import SurveyLogic.Proofs.Printing.Scanned

/-!
# How tokens are spelled

The lexical grammar, said without any scanning order:

```text
number := digit+ ("." digit+)?
text   := '"' (any character but '"')* '"' | "'" (any character but "'")* "'"
word   := letter (letter | digit | "-")*
symbol := "." | "+" | "-" | "*" | "/" | "^" | "(" | ")" | "[" | "]" | ","
        | "=" | "==" | "!=" | "<=" | ">=" | "<" | ">" | "!"
```

where the underscore counts as a letter.  A word is the token that the table of reserved words has
for it, or else a name; it is always the whole word that counts.

`Token.Spelled` says this.  The first character of a spelling shows which of the four it is, and
from there on the longest spelling in front of a source is easy to see: `Piece.longest_of_first?`
says that it is what the scanner takes.  `Piece.startless_of_first?` and
`Piece.unmatched_of_first?` are about the other two things that it may find in front.
-/

namespace SurveyLogic

/-! ## Spellings -/

/-- The words that are no names, with their tokens. -/
def reservedWords : List (String × Token) :=
  [("true", .truth true), ("TRUE", .truth true), ("false", .truth false), ("FALSE", .truth false),
    ("and", .keyword .and), ("AND", .keyword .and), ("or", .keyword .or), ("OR", .keyword .or),
    ("not", .keyword .not), ("NOT", .keyword .not), ("contains", .keyword .contains),
    ("in", .keyword .within), ("is", .keyword .is)]

/-- The characters write the token. -/
inductive Token.Spelled : Token → List Char → Prop
  | numeral {whole fraction : List Char} :
    whole ≠ [] → (∀ c ∈ whole, Text.isDigit c = true) → (∀ c ∈ fraction, Text.isDigit c = true) →
    Spelled (.number (.ofNumeral whole fraction)) (numeralChars whole fraction)
  | text {quote : Char} {content : List Char} :
    quote = '"' ∨ quote = '\'' → quote ∉ content →
    Spelled (.text (String.ofList content)) (quote :: content ++ [quote])
  | reserved {word : String} {token : Token} :
    (word, token) ∈ reservedWords → Spelled token word.toList
  | name {word : String} :
    Text.isName word.toList = true → (∀ token, (word, token) ∉ reservedWords) →
    Spelled (.name word) word.toList
  | symbol (sign : Symbol) : Spelled (.symbol sign) sign.spelling.toList

/-- No token starts with the character. -/
def Startless (c : Char) : Prop := ∀ token more, ¬ Token.Spelled token (c :: more)

/-- The characters stand in front of the source, and no token that does is longer. -/
structure Longest (spelling source : List Char) : Prop where
  front : ∃ rest, source = spelling ++ rest
  length_le : ∀ token longer rest, Token.Spelled token longer → source = longer ++ rest →
    longer.length ≤ spelling.length

/-- A quote that does not occur behind itself. -/
def Unmatched (quote : Char) (after : List Char) : Prop :=
  (quote = '"' ∨ quote = '\'') ∧ quote ∉ after

theorem isName_of_reserved {word : String} {token : Token} (h : (word, token) ∈ reservedWords) :
    Text.isName word.toList = true := by
  have hall : ∀ entry ∈ reservedWords, Text.isName entry.1.toList = true := by decide
  exact hall _ h

/-! ## Words -/

theorem Token.ofWord_of_reserved {word : String} {token : Token}
    (h : (word, token) ∈ reservedWords) : ofWord word = token := by
  have hall : ∀ entry ∈ reservedWords, ofWord entry.1 = entry.2 := by decide
  exact hall _ h

theorem Token.ofWord_of_not_reserved {word : String}
    (h : ∀ token, (word, token) ∉ reservedWords) : ofWord word = .name word := by
  unfold ofWord
  split <;> first
    | rfl
    | simp [reservedWords] at h

/-- Every word writes a token: the one of the table, or a name. -/
theorem Token.spelled_ofWord {cs : List Char} (h : Text.isName cs = true) :
    (Token.ofWord (String.ofList cs)).Spelled cs := by
  obtain ⟨word, rfl⟩ : ∃ word : String, cs = word.toList :=
    ⟨String.ofList cs, String.toList_ofList.symm⟩
  rw [String.ofList_toList]
  by_cases hreserved : ∃ token, (word, token) ∈ reservedWords
  · obtain ⟨token, hmem⟩ := hreserved
    rw [ofWord_of_reserved hmem]
    exact .reserved hmem
  · have hnone : ∀ token, (word, token) ∉ reservedWords :=
      fun token hmem => hreserved ⟨token, hmem⟩
    rw [ofWord_of_not_reserved hnone]
    exact .name h hnone

/-! ## Symbols -/

theorem Symbol.spelling_of_ofChar? {c : Char} {sign : Symbol} (h : ofChar? c = some sign) :
    sign.spelling.toList = [c] := by
  unfold ofChar? at h
  split at h <;> first
    | contradiction
    | (obtain rfl := Option.some.inj h; rfl)

theorem Symbol.spelling_of_ofPair? {c d : Char} {sign : Symbol} (h : ofPair? c d = some sign) :
    sign.spelling.toList = [c, d] := by
  unfold ofPair? at h
  split at h <;> first
    | contradiction
    | (obtain rfl := Option.some.inj h; rfl)

/-- A symbol is one character, or two whose first one is a symbol too. -/
theorem Symbol.spelling_cases (sign : Symbol) :
    (∃ c, sign.spelling.toList = [c] ∧ ofChar? c = some sign) ∨
    ∃ c d first, sign.spelling.toList = [c, d] ∧ ofPair? c d = some sign ∧
      ofChar? c = some first := by
  cases sign <;> first
    | exact Or.inl ⟨_, rfl, rfl⟩
    | exact Or.inr ⟨_, _, _, rfl, rfl, rfl⟩

/-! ## The first character of a token -/

/-- The rules of the lexical grammar. -/
inductive TokenKind
  | numeral | text | word | symbol
deriving DecidableEq

def Token.kind : Token → TokenKind
  | number _ => .numeral
  | text _ => .text
  | truth _ | name _ | keyword _ => .word
  | symbol _ => .symbol

theorem kind_of_reserved {word : String} {token : Token} (h : (word, token) ∈ reservedWords) :
    token.kind = .word := by
  have hall : ∀ entry ∈ reservedWords, entry.2.kind = .word := by decide
  exact hall _ h

/-- The rule whose tokens start with the character. -/
def TokenKind.ofFirst? (c : Char) : Option TokenKind :=
  if Text.isDigit c then some .numeral
  else if Text.isNameStart c then some .word
  else if c = '"' ∨ c = '\'' then some .text
  else if (Symbol.ofChar? c).isSome then some .symbol
  else none

theorem TokenKind.ofFirst?_digit {c : Char} (h : Text.isDigit c = true) :
    ofFirst? c = some .numeral := if_pos h

theorem TokenKind.ofFirst?_start {c : Char} (h : Text.isNameStart c = true) :
    ofFirst? c = some .word := by
  unfold ofFirst?
  rw [if_neg (by simp [not_isDigit_of_isNameStart h]), if_pos h]

theorem TokenKind.ofFirst?_quote {c : Char} (h : c = '"' ∨ c = '\'') :
    ofFirst? c = some .text := by
  rcases h with rfl | rfl <;> decide

theorem TokenKind.ofFirst?_sign {c : Char} {sign : Symbol} (h : Symbol.ofChar? c = some sign) :
    ofFirst? c = some .symbol := by
  obtain ⟨hdigit, hstart, hquote⟩ := other_of_ofChar? h
  unfold ofFirst?
  rw [if_neg (by simp [hdigit]), if_neg (by simp [hstart]), if_neg hquote, if_pos (by simp [h])]

theorem numeralChars_cons (c : Char) (cs fraction : List Char) :
    numeralChars (c :: cs) fraction = c :: numeralChars cs fraction := by
  unfold numeralChars
  split <;> rfl

theorem exists_cons_of_isName {cs : List Char} (h : Text.isName cs = true) :
    ∃ c more, cs = c :: more ∧ Text.isNameStart c = true := by
  cases cs with
  | nil => contradiction
  | cons c more =>
      rw [Text.isName, Bool.and_eq_true] at h
      exact ⟨c, more, rfl, h.1⟩

theorem isName_append {cs : List Char} {c : Char} (h : Text.isName cs = true)
    (hc : Text.isNameRest c = true) : Text.isName (cs ++ [c]) = true := by
  obtain ⟨d, more, rfl, hstart⟩ := exists_cons_of_isName h
  rw [Text.isName, Bool.and_eq_true] at h
  simp [Text.isName, hstart, List.all_append, h.2, hc]

/-- The first character of a token tells its rule. -/
theorem Token.Spelled.ofFirst? {token : Token} {cs : List Char} (h : token.Spelled cs) :
    ∃ c more, cs = c :: more ∧ TokenKind.ofFirst? c = some token.kind := by
  cases h with
  | @numeral whole fraction hne hwhole _ =>
      obtain ⟨c, cs, rfl⟩ := List.exists_cons_of_ne_nil hne
      have hdigit := hwhole c List.mem_cons_self
      exact ⟨c, _, numeralChars_cons c cs fraction, TokenKind.ofFirst?_digit hdigit⟩
  | text hquote _ => exact ⟨_, _, rfl, TokenKind.ofFirst?_quote hquote⟩
  | @reserved word token hmem =>
      obtain ⟨c, more, hword, hstart⟩ := exists_cons_of_isName (isName_of_reserved hmem)
      refine ⟨c, more, hword, ?_⟩
      rw [kind_of_reserved hmem]
      exact TokenKind.ofFirst?_start hstart
  | name hname _ =>
      obtain ⟨c, more, hword, hstart⟩ := exists_cons_of_isName hname
      exact ⟨c, more, hword, TokenKind.ofFirst?_start hstart⟩
  | symbol sign =>
      rcases sign.spelling_cases with ⟨c, heq, hc⟩ | ⟨c, d, first, heq, -, hc⟩
      · exact ⟨c, [], heq, TokenKind.ofFirst?_sign hc⟩
      · exact ⟨c, [d], heq, TokenKind.ofFirst?_sign hc⟩

theorem Token.Spelled.ne_nil {token : Token} {cs : List Char} (h : token.Spelled cs) :
    cs ≠ [] := by
  obtain ⟨c, more, rfl, -⟩ := h.ofFirst?
  exact List.cons_ne_nil c more

/-- A token in front of a source follows the rule that the first character tells. -/
theorem Token.Spelled.ofFirst?_of_eq {token : Token} {spelling rest cs : List Char} {c : Char}
    (h : token.Spelled spelling) (heq : c :: cs = spelling ++ rest) :
    TokenKind.ofFirst? c = some token.kind := by
  obtain ⟨first, more, rfl, hfirst⟩ := h.ofFirst?
  obtain ⟨rfl, -⟩ := List.cons.inj heq
  exact hfirst

/-- No token starts with a character that follows no rule. -/
theorem startless_of_ofFirst? {c : Char} (h : TokenKind.ofFirst? c = none) : Startless c := by
  intro token more hspelled
  rw [hspelled.ofFirst?_of_eq (List.append_nil _).symm] at h
  contradiction

/-- What a rule allows. -/
def TokenKind.Allows : TokenKind → List Char → Prop
  | .numeral, cs => ∃ whole fraction, (∀ c ∈ whole, Text.isDigit c = true) ∧
      (∀ c ∈ fraction, Text.isDigit c = true) ∧ cs = numeralChars whole fraction
  | .text, cs => ∃ quote content, quote ∉ content ∧ cs = quote :: content ++ [quote]
  | .word, cs => Text.isName cs = true
  | .symbol, cs => ∃ sign : Symbol, cs = sign.spelling.toList

theorem Token.Spelled.allows {token : Token} {cs : List Char} (h : token.Spelled cs) :
    token.kind.Allows cs := by
  cases h with
  | numeral _ hwhole hfraction => exact ⟨_, _, hwhole, hfraction, rfl⟩
  | text _ hcontent => exact ⟨_, _, hcontent, rfl⟩
  | reserved hmem =>
      rw [kind_of_reserved hmem]
      exact isName_of_reserved hmem
  | name hname _ => exact hname
  | symbol sign => exact ⟨sign, rfl⟩

/-- A word is a keyword or a truth value exactly if it is reserved. -/
theorem Token.Spelled.reserved_iff {token : Token} {cs : List Char} (h : token.Spelled cs)
    (hword : token.kind = .word) :
    ((∃ word, token = .keyword word) ∨ ∃ value, token = .truth value) ↔
      ∃ entry, (String.ofList cs, entry) ∈ reservedWords := by
  cases h with
  | numeral | text | symbol => contradiction
  | @reserved word _ hmem =>
      have hall : ∀ entry ∈ reservedWords, (∃ word, entry.2 = .keyword word) ∨
          ∃ value, entry.2 = .truth value := by simp [reservedWords]
      rw [String.ofList_toList]
      exact ⟨fun _ => ⟨token, hmem⟩, fun _ => hall _ hmem⟩
  | name _ hnone =>
      rw [String.ofList_toList]
      simp [hnone]

/-- A text is what stands between its quotes. -/
theorem Token.Spelled.of_text {value : String} {cs : List Char}
    (h : (Token.text value).Spelled cs) :
    ∃ quote, (quote = '"' ∨ quote = '\'') ∧ cs = quote :: value.toList ++ [quote] := by
  cases h with
  | @text quote content hquote _ =>
      rw [String.toList_ofList]
      exact ⟨quote, hquote, rfl⟩
  | reserved hmem =>
      have hword := kind_of_reserved hmem
      contradiction

/-! ## The longest token in front -/

/-- It is enough to compare what the rule allows that the first character tells. -/
theorem longest_of_allows {c : Char} {cs spelling rest : List Char} {kind : TokenKind}
    (hkind : TokenKind.ofFirst? c = some kind) (hfront : c :: cs = spelling ++ rest)
    (hle : ∀ longer rest, kind.Allows longer → c :: cs = longer ++ rest →
      longer.length ≤ spelling.length) : Longest spelling (c :: cs) where
  front := ⟨rest, hfront⟩
  length_le := by
    intro token longer rest htoken heq
    have hsame := htoken.ofFirst?_of_eq heq
    rw [hkind] at hsame
    obtain rfl := Option.some.inj hsame
    exact hle longer rest htoken.allows heq

theorem length_le_takeWhile {p : Char → Bool} {front cs rest : List Char}
    (hall : ∀ c ∈ front, p c = true) (heq : cs = front ++ rest) :
    front.length ≤ (cs.takeWhile p).length := by
  rw [heq, List.takeWhile_append_of_pos hall, List.length_append]
  exact Nat.le_add_right _ _

/-! ### Numerals -/

theorem length_le_numeralChars (whole fraction : List Char) :
    whole.length ≤ (numeralChars whole fraction).length := by
  unfold numeralChars
  split
  · exact Nat.le_refl _
  · rw [List.length_append]
    exact Nat.le_add_right _ _

theorem length_numeralChars_mono {whole fraction fraction' : List Char}
    (h : fraction.length ≤ fraction'.length) :
    (numeralChars whole fraction).length ≤ (numeralChars whole fraction').length := by
  unfold numeralChars
  by_cases hnil : fraction = []
  · rw [if_pos hnil]
    exact length_le_numeralChars whole fraction'
  · have hnil' : fraction' ≠ [] := by
      rintro rfl
      exact hnil (List.length_eq_zero_iff.mp (Nat.le_zero.mp h))
    rw [if_neg hnil, if_neg hnil']
    simp only [List.length_append, List.length_cons]
    omega

/-- The numeral in front of a source: all digits of the whole part, and as long a fraction as there
is. -/
theorem Piece.numeral_spec (cs : List Char) :
    ∃ fraction rest, numeral cs =
        (.token (.number (.ofNumeral (cs.takeWhile Text.isDigit) fraction))
          (numeralChars (cs.takeWhile Text.isDigit) fraction), rest) ∧
      (∀ c ∈ fraction, Text.isDigit c = true) ∧
      ∀ other rest', (∀ c ∈ other, Text.isDigit c = true) →
        cs.dropWhile Text.isDigit = '.' :: (other ++ rest') → other.length ≤ fraction.length := by
  unfold numeral
  dsimp only
  split
  · next rest hdrop =>
      have hlongest : ∀ other rest', (∀ c ∈ other, Text.isDigit c = true) →
          '.' :: rest = '.' :: (other ++ rest') →
          other.length ≤ (rest.takeWhile Text.isDigit).length := by
        intro other rest' hother heq
        exact length_le_takeWhile hother (List.cons.inj heq).2
      rw [hdrop]
      split
      · next hnil =>
          rw [hnil] at hlongest
          -- a point with no digit behind it is no part of the numeral
          exact ⟨[], _, rfl, by simp, hlongest⟩
      · next hne =>
          refine ⟨rest.takeWhile Text.isDigit, rest.dropWhile Text.isDigit, ?_, ?_, hlongest⟩
          · unfold numeralChars
            rw [if_neg hne]
          · exact List.all_eq_true.mp List.all_takeWhile
  · next hother =>
      refine ⟨[], _, rfl, by simp, ?_⟩
      intro other rest' _ heq
      exact absurd heq (hother _)

section Front

variable {c : Char} {cs spelling rest : List Char} {value : Token}

theorem Piece.longest_numeral (hdigit : Text.isDigit c = true)
    (h : numeral (c :: cs) = (.token value spelling, rest)) :
    value.Spelled spelling ∧ Longest spelling (c :: cs) := by
  obtain ⟨fraction, _, hnumeral, hfraction, hlongest⟩ := numeral_spec (c :: cs)
  have hfront := numeral_lossless (c :: cs)
  rw [h] at hnumeral hfront
  obtain ⟨⟨rfl, rfl⟩, rfl⟩ : (_ ∧ _) ∧ _ := by simpa using hnumeral
  constructor
  · refine .numeral ?_ (List.all_eq_true.mp List.all_takeWhile) hfraction
    rw [List.takeWhile_cons_of_pos hdigit]
    exact List.cons_ne_nil _ _
  · refine longest_of_allows (TokenKind.ofFirst?_digit hdigit) hfront.symm ?_
    rintro _ after ⟨whole, other, hwhole, hother, rfl⟩ heq
    by_cases hnil : other = []
    · subst hnil
      exact Nat.le_trans (length_le_takeWhile hwhole heq) (length_le_numeralChars _ _)
    · -- the point ends the digits of the whole part
      have hchars : c :: cs = whole ++ ('.' :: (other ++ after)) := by
        rw [heq, numeralChars, if_neg hnil, List.append_assoc, List.cons_append]
      have hpoint : ∀ d ∈ ('.' :: (other ++ after)).head?, Text.isDigit d = false :=
        Text.forall_mem_head?_cons (by decide) _
      obtain ⟨htake, hdrop⟩ := Text.takeWhile_append_of_head? hwhole hpoint
      rw [hchars, htake]
      rw [hchars, hdrop] at hlongest
      exact length_numeralChars_mono (hlongest other after hother rfl)

/-! ### Words, texts and symbols -/

theorem isNameRest_of_isName (h : Text.isName cs = true) : ∀ c ∈ cs, Text.isNameRest c = true := by
  obtain ⟨c, more, rfl, hstart⟩ := exists_cons_of_isName h
  rw [Text.isName, Bool.and_eq_true, List.all_eq_true] at h
  intro d hd
  rcases List.mem_cons.mp hd with rfl | hmore
  · simp [Text.isNameRest, hstart]
  · exact h.2 d hmore

theorem Piece.longest_word (hstart : Text.isNameStart c = true)
    (h : word (c :: cs) = (.token value spelling, rest)) :
    value.Spelled spelling ∧ Longest spelling (c :: cs) := by
  have hfront := word_lossless (c :: cs)
  rw [h] at hfront
  obtain ⟨⟨rfl, rfl⟩, rfl⟩ : (_ ∧ _) ∧ _ := by simpa [word] using h
  constructor
  · exact Token.spelled_ofWord (isName_word hstart)
  · refine longest_of_allows (TokenKind.ofFirst?_start hstart) hfront.symm ?_
    intro longer after hname heq
    exact length_le_takeWhile (isNameRest_of_isName hname) heq

theorem Piece.longest_literal (hquote : c = '"' ∨ c = '\'')
    (h : literal? c cs = some (.token value spelling, rest)) :
    value.Spelled spelling ∧ Longest spelling (c :: cs) := by
  have hfront := literal?_lossless h
  constructor
  · unfold literal? at h
    dsimp only at h
    split at h
    · contradiction
    · obtain ⟨⟨rfl, rfl⟩, rfl⟩ : (_ ∧ _) ∧ _ := by simpa using h
      refine .text hquote fun hmem => ?_
      have hne := List.all_eq_true.mp List.all_takeWhile c hmem
      simp at hne
  · refine longest_of_allows (TokenKind.ofFirst?_quote hquote) hfront.symm ?_
    rintro _ after ⟨quote, content, hcontent, rfl⟩ heq
    -- another text in front would be the same one
    obtain ⟨rfl, rfl⟩ : c = quote ∧ cs = content ++ quote :: after := by simpa using heq
    rw [literal?_eq hcontent] at h
    obtain ⟨⟨-, rfl⟩, -⟩ : (_ ∧ _) ∧ _ := by simpa using h
    exact Nat.le_refl _

/-- A symbol of one character, if the next one does not make it longer. -/
theorem Piece.longest_single (hpair : ∀ d ∈ cs.head?, Symbol.ofPair? c d = none)
    (h : symbol.single c cs = (.token value spelling, rest)) :
    value.Spelled spelling ∧ Longest spelling (c :: cs) := by
  unfold symbol.single at h
  split at h
  · next sign hsign =>
      obtain ⟨⟨rfl, rfl⟩, -⟩ : (_ ∧ _) ∧ _ := by simpa using h
      constructor
      · rw [← Symbol.spelling_of_ofChar? hsign]
        exact .symbol sign
      · refine longest_of_allows (TokenKind.ofFirst?_sign hsign) List.singleton_append.symm ?_
        rintro _ after ⟨other, rfl⟩ heq
        rcases other.spelling_cases with ⟨d, hspelling, -⟩ | ⟨first, d, _, hspelling, hother, -⟩
        · rw [hspelling]
          exact Nat.le_refl _
        · rw [hspelling] at heq
          obtain ⟨rfl, rfl⟩ : c = first ∧ cs = d :: after := by simpa using heq
          rw [hpair d rfl] at hother
          contradiction
  · simp at h

theorem Piece.longest_symbol (h : symbol c cs = (.token value spelling, rest)) :
    value.Spelled spelling ∧ Longest spelling (c :: cs) := by
  unfold symbol at h
  split at h
  · next d after =>
      split at h
      · next sign hsign =>
          obtain ⟨⟨rfl, rfl⟩, -⟩ : (_ ∧ _) ∧ _ := by simpa using h
          have hspelling := Symbol.spelling_of_ofPair? hsign
          have hspelled : (Token.symbol sign).Spelled [c, d] := hspelling ▸ .symbol sign
          have hkind := hspelled.ofFirst?_of_eq (List.append_nil _).symm
          have hchars : c :: d :: after = [c, d] ++ after := rfl
          refine ⟨hspelled, longest_of_allows hkind hchars ?_⟩
          rintro _ _ ⟨other, rfl⟩ -
          rcases other.spelling_cases with ⟨_, hother, -⟩ | ⟨_, _, _, hother, -⟩
          · rw [hother]
            exact Nat.le_succ 1
          · rw [hother]
            exact Nat.le_refl 2
      · next hnone =>
          refine longest_single (fun next hnext => ?_) h
          obtain rfl : d = next := by simpa using hnext
          exact hnone
  · exact longest_single (by simp) h

/-! ## The first piece of a source -/

/-- A token that is taken is the longest one in front. -/
theorem Piece.longest_of_first? (h : first? c cs = some (.token value spelling, rest)) :
    value.Spelled spelling ∧ Longest spelling (c :: cs) := by
  unfold first? at h
  split at h
  · next hdigit => exact longest_numeral hdigit (Option.some.inj h)
  · split at h
    · next hstart => exact longest_word hstart (Option.some.inj h)
    · split at h
      · next hquote => exact longest_literal hquote h
      · exact longest_symbol (Option.some.inj h)

theorem Piece.skipped_of_single {d : Char} (h : symbol.single c cs = (.skipped d, rest)) :
    d = c ∧ Symbol.ofChar? c = none := by
  unfold symbol.single at h
  split at h
  · simp at h
  · next hnone =>
      obtain ⟨rfl, -⟩ := by simpa using h
      exact ⟨rfl, hnone⟩

/-- A character that is skipped starts no token. -/
theorem Piece.startless_of_first? {d : Char} (h : first? c cs = some (.skipped d, rest)) :
    d = c ∧ Startless c := by
  unfold first? at h
  split at h
  · obtain ⟨fraction, _, hnumeral, -⟩ := numeral_spec (c :: cs)
    simp [hnumeral] at h
  · next hdigit =>
      split at h
      · simp [word] at h
      · next hstart =>
          split at h
          · unfold literal? at h
            split at h <;> simp at h
          · next hquote =>
              have hskipped : d = c ∧ Symbol.ofChar? c = none := by
                have hsymbol := Option.some.inj h
                unfold symbol at hsymbol
                split at hsymbol
                · split at hsymbol
                  · simp at hsymbol
                  · exact skipped_of_single hsymbol
                · exact skipped_of_single hsymbol
              obtain ⟨rfl, hsign⟩ := hskipped
              refine ⟨rfl, startless_of_ofFirst? ?_⟩
              unfold TokenKind.ofFirst?
              rw [if_neg hdigit, if_neg hstart, if_neg hquote, if_neg (by simp [hsign])]

theorem Piece.literal?_eq_none_iff : literal? c cs = none ↔ c ∉ cs := by
  constructor
  · intro h hmem
    obtain ⟨content, after, rfl, hcontent⟩ := List.eq_append_cons_of_mem hmem
    rw [literal?_eq hcontent] at h
    contradiction
  · intro hnot
    cases hliteral : literal? c cs with
    | none => rfl
    | some found =>
        -- the characters of a text end with the quote
        obtain ⟨piece, rest⟩ := found
        have hfront := literal?_lossless hliteral
        unfold literal? at hliteral
        dsimp only at hliteral
        split at hliteral
        · contradiction
        · obtain ⟨rfl, rfl⟩ := Prod.mk.inj (Option.some.inj hliteral)
          have hmem : c ∈ cs := by
            rw [← (List.cons.inj hfront).2]
            simp
          exact absurd hmem hnot

/-- Only a quote without a partner is neither taken nor skipped. -/
theorem Piece.first?_eq_none_iff : first? c cs = none ↔ Unmatched c cs := by
  unfold Unmatched
  rw [← literal?_eq_none_iff]
  constructor
  · intro h
    unfold first? at h
    split at h
    · contradiction
    · split at h
      · contradiction
      · split at h
        · next hquote => exact ⟨hquote, h⟩
        · contradiction
  · rintro ⟨hquote, hnone⟩
    have hdigit : Text.isDigit c = false := by
      rcases hquote with rfl | rfl <;> decide
    have hstart : Text.isNameStart c = false := by
      rcases hquote with rfl | rfl <;> decide
    unfold first?
    rw [if_neg (by simp [hdigit]), if_neg (by simp [hstart]), if_pos hquote, hnone]

end Front

end SurveyLogic

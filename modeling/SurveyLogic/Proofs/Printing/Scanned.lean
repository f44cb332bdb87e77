import SurveyLogic.Proofs.Number.ReadBack
import SurveyLogic.Token.Scan

/-!
# Texts that are cut into given tokens

`Scanned cs tokens` says that a text is cut into pieces with these tokens and nothing is left uncut.
There is one lemma for each kind of piece in front of a scanned text.  A piece ends where the next
character cannot go on with it, which is what the lemmas ask of the rest: no letter, digit or hyphen
behind a word, no digit or point behind a numeral, and behind a symbol no character that would make
a longer symbol of it.
-/

namespace SurveyLogic

/-- The token of a piece, if it is one. -/
def Piece.token? : Piece → Option Token
  | token value _ => some value
  | skipped _ => none

/-- The text is cut into pieces with these tokens, up to its end. -/
def Scanned (cs : List Char) (tokens : List Token) : Prop :=
  (Piece.cut cs).2 = [] ∧ (Piece.cut cs).1.filterMap Piece.token? = tokens

theorem scanned_nil : Scanned [] [] := by
  unfold Scanned
  rw [Piece.cut]
  exact ⟨rfl, rfl⟩

theorem Piece.cut_of_first? {c : Char} {cs rest : List Char} {piece : Piece}
    (h : first? c cs = some (piece, rest)) :
    cut (c :: cs) = (piece :: (cut rest).1, (cut rest).2) := by
  rw [cut]
  split
  · next hother => rw [h] at hother; contradiction
  · next hother =>
      rw [h] at hother
      obtain ⟨rfl, rfl⟩ := Prod.mk.inj (Option.some.inj hother)
      rfl

/-- One more piece in front. -/
theorem Scanned.cons {c : Char} {cs rest : List Char} {piece : Piece} {tokens : List Token}
    (h : Scanned rest tokens) (hfirst : Piece.first? c cs = some (piece, rest)) :
    Scanned (c :: cs) (piece.token?.toList ++ tokens) := by
  obtain ⟨huncut, htokens⟩ := h
  unfold Scanned
  rw [Piece.cut_of_first? hfirst, List.filterMap_cons, htokens]
  refine ⟨huncut, ?_⟩
  cases piece <;> rfl

/-! ## Blanks and symbols -/

theorem first?_of_other {c : Char} (hdigit : Text.isDigit c = false)
    (hstart : Text.isNameStart c = false) (hquote : ¬(c = '"' ∨ c = '\'')) (cs : List Char) :
    Piece.first? c cs = some (Piece.symbol c cs) := by
  unfold Piece.first?
  rw [if_neg (by simp [hdigit]), if_neg (by simp [hstart]), if_neg hquote]

theorem Scanned.blank {rest : List Char} {tokens : List Token} (h : Scanned rest tokens) :
    Scanned (' ' :: rest) tokens := by
  have hsymbol : Piece.symbol ' ' rest = (.skipped ' ', rest) := by
    cases rest <;> rfl
  have hfirst : Piece.first? ' ' rest = some (.skipped ' ', rest) := by
    rw [first?_of_other (by decide) (by decide) (by decide), hsymbol]
  exact h.cons hfirst

/-- The characters that are symbols are neither digits, letters nor quotes. -/
theorem other_of_ofChar? {c : Char} {sign : Symbol} (h : Symbol.ofChar? c = some sign) :
    Text.isDigit c = false ∧ Text.isNameStart c = false ∧ ¬(c = '"' ∨ c = '\'') := by
  unfold Symbol.ofChar? at h
  split at h <;> first
    | contradiction
    | decide

theorem Piece.first?_symbol {c : Char} {sign : Symbol} {rest : List Char}
    (hsign : Symbol.ofChar? c = some sign) (hnext : ∀ d ∈ rest.head?, Symbol.ofPair? c d = none) :
    first? c rest = some (.token (.symbol sign) [c], rest) := by
  obtain ⟨hdigit, hstart, hquote⟩ := other_of_ofChar? hsign
  have hsingle : symbol.single c rest = (.token (.symbol sign) [c], rest) := by
    unfold symbol.single
    rw [hsign]
  have hsymbol : symbol c rest = (.token (.symbol sign) [c], rest) := by
    cases rest with
    | nil => exact hsingle
    | cons d rest =>
        unfold symbol
        dsimp only
        rw [hnext d rfl]
        exact hsingle
  rw [first?_of_other hdigit hstart hquote, hsymbol]

theorem Scanned.symbol {c : Char} {sign : Symbol} {rest : List Char} {tokens : List Token}
    (h : Scanned rest tokens) (hsign : Symbol.ofChar? c = some sign)
    (hnext : ∀ d ∈ rest.head?, Symbol.ofPair? c d = none) :
    Scanned (c :: rest) (.symbol sign :: tokens) :=
  h.cons (Piece.first?_symbol hsign hnext)

theorem Scanned.pair {c d : Char} {sign : Symbol} {rest : List Char} {tokens : List Token}
    (h : Scanned rest tokens) (hsign : Symbol.ofPair? c d = some sign) :
    Scanned (c :: d :: rest) (.symbol sign :: tokens) := by
  have hother : Text.isDigit c = false ∧ Text.isNameStart c = false ∧ ¬(c = '"' ∨ c = '\'') := by
    unfold Symbol.ofPair? at hsign
    split at hsign <;> first
      | contradiction
      | decide
  have hsymbol : Piece.symbol c (d :: rest) = (.token (.symbol sign) [c, d], rest) := by
    unfold Piece.symbol
    dsimp only
    rw [hsign]
  have hfirst : Piece.first? c (d :: rest) = some (.token (.symbol sign) [c, d], rest) := by
    rw [first?_of_other hother.1 hother.2.1 hother.2.2, hsymbol]
  exact h.cons hfirst

/-! ## Words, numerals and texts -/

theorem not_isDigit_of_isNameStart {c : Char} (h : Text.isNameStart c = true) :
    Text.isDigit c = false := by
  rw [← Bool.not_eq_true]
  intro hdigit
  simp only [Text.isDigit, Bool.and_eq_true, decide_eq_true_eq,
    Char.le_def, UInt32.le_iff_toNat_le] at hdigit
  simp only [Text.isNameStart, Bool.or_eq_true, Bool.and_eq_true, decide_eq_true_eq, beq_iff_eq,
    Char.le_def, UInt32.le_iff_toNat_le] at h
  -- letters and the underscore have greater codes than digits
  rcases h with (⟨hlow, -⟩ | ⟨hlow, -⟩) | rfl
  · exact absurd (Nat.le_trans hlow hdigit.2) (by decide)
  · exact absurd (Nat.le_trans hlow hdigit.2) (by decide)
  · exact absurd hdigit.2 (by decide)

theorem Piece.isName_word {c : Char} {cs : List Char} (h : Text.isNameStart c = true) :
    Text.isName ((c :: cs).takeWhile Text.isNameRest) = true := by
  have hrest : Text.isNameRest c = true := by
    simp [Text.isNameRest, h]
  rw [List.takeWhile_cons_of_pos hrest, Text.isName, h, Bool.true_and]
  exact List.all_takeWhile

theorem Piece.first?_word {word : String} {rest : List Char}
    (hword : Text.isName word.toList = true)
    (hnext : ∀ d ∈ rest.head?, Text.isNameRest d = false) :
    ∃ c cs, word.toList = c :: cs ∧
      first? c (cs ++ rest) = some (.token (.ofWord word) word.toList, rest) := by
  cases hchars : word.toList with
  | nil =>
      rw [hchars] at hword
      contradiction
  | cons c cs =>
      rw [hchars, Text.isName, Bool.and_eq_true, List.all_eq_true] at hword
      obtain ⟨hstart, hrest⟩ := hword
      have hall : ∀ d ∈ c :: cs, Text.isNameRest d = true := by
        intro d hd
        rcases List.mem_cons.mp hd with rfl | htail
        · simp [Text.isNameRest, hstart]
        · exact hrest d htail
      obtain ⟨htake, hdrop⟩ := Text.takeWhile_append_of_head? hall hnext
      have hpiece : Piece.word (c :: cs ++ rest) = (.token (.ofWord word) (c :: cs), rest) := by
        unfold Piece.word
        dsimp only
        rw [htake, hdrop, ← hchars, String.ofList_toList]
      refine ⟨c, cs, rfl, ?_⟩
      unfold first?
      rw [if_neg (by simp [not_isDigit_of_isNameStart hstart]), if_pos hstart]
      exact congrArg some hpiece

theorem Scanned.word {word : String} {rest : List Char} {tokens : List Token}
    (h : Scanned rest tokens) (hword : Text.isName word.toList = true)
    (hnext : ∀ d ∈ rest.head?, Text.isNameRest d = false) :
    Scanned (word.toList ++ rest) (.ofWord word :: tokens) := by
  obtain ⟨c, cs, hchars, hfirst⟩ := Piece.first?_word hword hnext
  have hscanned := h.cons hfirst
  rwa [← List.cons_append, ← hchars] at hscanned

theorem numeral_eq {whole fraction rest : List Char}
    (hwhole : ∀ c ∈ whole, Text.isDigit c = true)
    (hfraction : ∀ c ∈ fraction, Text.isDigit c = true)
    (hnext : ∀ d ∈ rest.head?, Text.isDigit d = false ∧ d ≠ '.') :
    Piece.numeral (numeralChars whole fraction ++ rest) =
      (.token (.number (.ofNumeral whole fraction)) (numeralChars whole fraction), rest) := by
  have hdigit : ∀ d ∈ rest.head?, Text.isDigit d = false := fun d hd => (hnext d hd).1
  unfold Piece.numeral numeralChars
  dsimp only
  by_cases hnil : fraction = []
  · -- digits alone: neither a digit nor a point follows
    subst hnil
    obtain ⟨htake, hdrop⟩ := Text.takeWhile_append_of_head? hwhole hdigit
    rw [if_pos rfl, htake, hdrop]
    cases rest with
    | nil => rfl
    | cons d rest =>
        have hpoint : d ≠ '.' := (hnext d rfl).2
        split
        · next heq => exact absurd (List.cons.inj heq).1 hpoint
        · rfl
  · -- digits, a point and more digits, behind which there is no further digit
    have hpoint : ∀ d ∈ ('.' :: (fraction ++ rest)).head?, Text.isDigit d = false :=
      Text.forall_mem_head?_cons (by decide) _
    obtain ⟨htake, hdrop⟩ := Text.takeWhile_append_of_head? hwhole hpoint
    obtain ⟨htake', hdrop'⟩ := Text.takeWhile_append_of_head? hfraction hdigit
    rw [if_neg hnil, List.append_assoc, List.cons_append, htake, hdrop]
    split
    · next after heq =>
        obtain rfl := (List.cons.inj heq).2
        rw [htake', hdrop']
        split
        · exact absurd rfl hnil
        · rfl
    · next hother => exact absurd rfl (hother _)

/-- Digits, and possibly a point and more digits. -/
theorem Scanned.numeral {whole fraction rest : List Char} {tokens : List Token}
    (h : Scanned rest tokens) (hne : whole ≠ []) (hwhole : ∀ c ∈ whole, Text.isDigit c = true)
    (hfraction : ∀ c ∈ fraction, Text.isDigit c = true)
    (hnext : ∀ d ∈ rest.head?, Text.isDigit d = false ∧ d ≠ '.') :
    Scanned (numeralChars whole fraction ++ rest)
      (.number (.ofNumeral whole fraction) :: tokens) := by
  have hpiece := numeral_eq hwhole hfraction hnext
  obtain ⟨c, cs, hchars⟩ : ∃ c cs, numeralChars whole fraction = c :: cs := by
    obtain ⟨c, cs, rfl⟩ := List.exists_cons_of_ne_nil hne
    unfold numeralChars
    split
    · exact ⟨c, cs, rfl⟩
    · exact ⟨c, _, rfl⟩
  have hdigit : Text.isDigit c = true := by
    obtain ⟨d, ds, rfl⟩ := List.exists_cons_of_ne_nil hne
    have hhead : d = c := by
      unfold numeralChars at hchars
      split at hchars
      · exact (List.cons.inj hchars).1
      · exact (List.cons.inj hchars).1
    rw [← hhead]
    exact hwhole d List.mem_cons_self
  rw [hchars] at hpiece ⊢
  have hfirst : Piece.first? c (cs ++ rest) =
      some (.token (.number (.ofNumeral whole fraction)) (c :: cs), rest) := by
    unfold Piece.first?
    rw [if_pos hdigit]
    exact congrArg some hpiece
  exact h.cons hfirst

theorem literal?_eq {quote : Char} {value rest : List Char} (hvalue : quote ∉ value) :
    Piece.literal? quote (value ++ quote :: rest) =
      some (.token (.text (String.ofList value)) (quote :: value ++ [quote]), rest) := by
  have hcontent : ∀ c ∈ value, decide (c ≠ quote) = true := by
    intro c hc
    rw [decide_eq_true_iff]
    rintro rfl
    exact hvalue hc
  have hend : ∀ d ∈ (quote :: rest).head?, decide (d ≠ quote) = false := by simp
  obtain ⟨htake, hdrop⟩ := Text.takeWhile_append_of_head? hcontent hend
  unfold Piece.literal?
  dsimp only
  rw [htake, hdrop]

/-- A text between quotes that do not occur in it. -/
theorem Scanned.literal {quote : Char} {value : String} {rest : List Char} {tokens : List Token}
    (h : Scanned rest tokens) (hquote : quote = '"' ∨ quote = '\'')
    (hvalue : quote ∉ value.toList) :
    Scanned (quote :: value.toList ++ quote :: rest) (.text value :: tokens) := by
  have hdigit : Text.isDigit quote = false := by
    rcases hquote with rfl | rfl <;> decide
  have hstart : Text.isNameStart quote = false := by
    rcases hquote with rfl | rfl <;> decide
  have hfirst : Piece.first? quote (value.toList ++ quote :: rest) =
      some (.token (.text value) (quote :: value.toList ++ [quote]), rest) := by
    unfold Piece.first?
    rw [if_neg (by simp [hdigit]), if_neg (by simp [hstart]), if_pos hquote, literal?_eq hvalue,
      String.ofList_toList]
  exact h.cons hfirst

/-! ## Placed tokens -/

theorem map_token_place (position : Nat) (pieces : List Piece) :
    (Lexeme.place position pieces).map (·.token) = pieces.filterMap Piece.token? := by
  induction pieces generalizing position with
  | nil => rfl
  | cons piece pieces ih =>
      cases piece with
      | token value spelling =>
          rw [Lexeme.place, List.map_cons, ih]
          rfl
      | skipped c =>
          rw [Lexeme.place, ih]
          rfl

/-- A source that is cut into tokens is scanned. -/
theorem Scanned.scan {source : String} {tokens : List Token} (h : Scanned source.toList tokens) :
    ∃ lexemes, Lexeme.scan source = .ok lexemes ∧ lexemes.map (·.token) = tokens := by
  obtain ⟨huncut, htokens⟩ := h
  refine ⟨Lexeme.place 0 (Piece.cut source.toList).1, ?_, ?_⟩
  · unfold Lexeme.scan
    dsimp only
    rw [if_pos huncut]
  · rw [map_token_place]
    exact htokens

end SurveyLogic

import SurveyLogic.Json.Basic
import SurveyLogic.Json.Token

/-!
# The tokens of a written tree

The text of a tree is scanned into the tokens one expects, `Json.tokens`, in front of anything:
`Json.scan?_toText`.  A text is written between quotes with its quotes, backslashes and control
characters escaped, and each escape is read back as the character that it stands for
(`Token.units?_escape`), so that the closing quote is found and the characters in front of it are
those of the text.

The trees are those without numbers, their members called by names (`Json.Worded`): a text ends at
its quote, while the end of a number depends on what stands behind it.
-/

namespace SurveyLogic

namespace Json

/-! ## Texts -/

namespace Token

theorem hexValue?_hexDigit : ∀ n < 16, hexValue? (hexDigit n) = some n := by decide

/-- The four digits of a control character. -/
theorem hexUnit?_hexDigit {n : Nat} (h : n < 0x20) :
    hexUnit? '0' '0' (hexDigit (n / 16)) (hexDigit (n % 16)) = some n := by
  have hzero : hexValue? '0' = some 0 := by decide
  simp only [hexUnit?, hzero, hexValue?_hexDigit (n / 16) (by omega),
    hexValue?_hexDigit (n % 16) (by omega)]
  exact congrArg some (by omega)

/-- The characters that are escaped by a letter of their own. -/
def lettered : List (Char × Char) :=
  [('"', '"'), ('\\', '\\'), ('\x08', 'b'), ('\x0c', 'f'), ('\n', 'n'), ('\r', 'r'), ('\t', 't')]

theorem escape_of_mem_lettered : ∀ pair ∈ lettered,
    escape pair.1 = ['\\', pair.2] ∧ unescape? pair.2 = some pair.1 := by
  decide

theorem escape_of_not_mem_lettered {c : Char} (h : c ∉ lettered.map (·.1)) :
    escape c = if c.toNat < 0x20 then
      ['\\', 'u', '0', '0', hexDigit (c.toNat / 16), hexDigit (c.toNat % 16)] else [c] := by
  have hne : ∀ d ∈ lettered.map (·.1), c ≠ d := by
    rintro d hd rfl
    exact h hd
  simp only [escape, if_neg (hne '"' (by decide)), if_neg (hne '\\' (by decide)),
    if_neg (hne '\x08' (by decide)), if_neg (hne '\x0c' (by decide)), if_neg (hne '\n' (by decide)),
    if_neg (hne '\r' (by decide)), if_neg (hne '\t' (by decide))]

/-- How a character is written: by a backslash and a letter, by its code, or by itself. -/
theorem escape_cases (c : Char) :
    (∃ d, escape c = ['\\', d] ∧ unescape? d = some c) ∨
    (escape c = ['\\', 'u', '0', '0', hexDigit (c.toNat / 16), hexDigit (c.toNat % 16)] ∧
      c.toNat < 0x20) ∨
    (escape c = [c] ∧ c ≠ '"' ∧ c ≠ '\\' ∧ ¬ c.toNat < 0x20) := by
  by_cases hmem : c ∈ lettered.map (·.1)
  · obtain ⟨⟨_, d⟩, hpair, rfl⟩ := List.mem_map.mp hmem
    exact Or.inl ⟨d, escape_of_mem_lettered _ hpair⟩
  · rw [escape_of_not_mem_lettered hmem]
    by_cases hcontrol : c.toNat < 0x20
    · exact Or.inr (Or.inl ⟨if_pos hcontrol, hcontrol⟩)
    · refine Or.inr (Or.inr ⟨if_neg hcontrol, ?_, ?_, hcontrol⟩)
      · rintro rfl
        exact hmem (by decide)
      · rintro rfl
        exact hmem (by decide)

/-- An escaped character is read back. -/
theorem units?_escape (c : Char) (cs : List Char) :
    units? (escape c ++ cs) = (units? cs).map fun read => (c.toNat :: read.1, read.2) := by
  rcases escape_cases c with ⟨d, hescape, hd⟩ | ⟨hescape, hcontrol⟩ |
    ⟨hescape, hquote, hbackslash, hcontrol⟩
  · -- a letter stands for it
    have hnot : d ≠ 'u' := by
      rintro rfl
      contradiction
    rw [hescape, List.cons_append, List.cons_append, List.nil_append, units?]
    · rw [hd]
      cases units? cs <;> rfl
    · intro _ _ _ _ _ heq
      exact absurd heq hnot
  · -- a control character stands there as its code
    rw [hescape]
    simp only [List.cons_append, List.nil_append]
    rw [units?, hexUnit?_hexDigit hcontrol]
    cases units? cs <;> rfl
  · rw [hescape, List.singleton_append, units?]
    · rw [if_neg (by simp [hbackslash, hcontrol])]
      cases units? cs <;> rfl
    all_goals simp_all

theorem units?_written (cs rest : List Char) :
    units? (cs.flatMap escape ++ '"' :: rest) = some (cs.map Char.toNat, rest) := by
  induction cs with
  | nil => rfl
  | cons c cs ih =>
      rw [List.flatMap_cons, List.append_assoc, units?_escape, ih]
      rfl

/-- No character has the code of half a surrogate pair. -/
theorem chars?_map_toNat (cs : List Char) : chars? (cs.map Char.toNat) = some cs := by
  induction cs with
  | nil => rfl
  | cons c cs ih =>
      have hvalid : c.toNat < 0xD800 ∨ 0xDFFF < c.toNat ∧ c.toNat < 0x110000 := c.valid
      have hlow : ¬ (0xDC00 ≤ c.toNat ∧ c.toNat < 0xE000) := by omega
      have hhigh : ¬ (0xD800 ≤ c.toNat ∧ c.toNat < 0xDC00) := by omega
      rw [List.map_cons, chars?.eq_def]
      simp only [if_neg hlow, if_neg hhigh, ih, Option.map_some, Char.ofNat_toNat]

end Token

/-- The characters of a written text. -/
theorem toList_quote (content : String) :
    (quote content).toList = '"' :: content.toList.flatMap escape ++ ['"'] := by
  rw [quote, String.toList_ofList]

namespace Token

variable {rest : List Char} {tokens : List Token}

/-- One more token in front. -/
theorem scan?_cons {c : Char} {cs : List Char} {token : Token} (hblank : isBlank c = false)
    (hfirst : first? c cs = some (token, rest)) (hrest : scan? rest = some tokens) :
    scan? (c :: cs) = some (token :: tokens) := by
  rw [scan?, hblank]
  simp only [Bool.false_eq_true, if_false]
  split
  · next h => rw [hfirst] at h; contradiction
  · next h =>
    rw [hfirst] at h
    obtain ⟨rfl, rfl⟩ := Prod.mk.inj (Option.some.inj h)
    rw [hrest]
    rfl

theorem scan?_quote (content : String) (hrest : scan? rest = some tokens) :
    scan? ((quote content).toList ++ rest) = some (.text (some content) :: tokens) := by
  have hfirst : first? '"' (content.toList.flatMap escape ++ '"' :: rest) =
      some (.text (some content), rest) := by
    change (units? _).map _ = _
    rw [units?_written, Option.map_some, chars?_map_toNat, Option.map_some, String.ofList_toList]
  rw [toList_quote, List.append_assoc]
  exact scan?_cons (by decide) hfirst hrest

end Token

/-! ## Trees -/

mutual

/-- No number is in the tree, every text in it can be held, and members are called by names. -/
def Worded : Json → Prop
  | null | truth _ => True
  | number _ => False
  | text content => content.isSome = true
  | array elements => AllWorded elements
  | object members => MembersWorded members

def AllWorded : List Json → Prop
  | [] => True
  | json :: jsons => json.Worded ∧ AllWorded jsons

def MembersWorded : List (Option String × Json) → Prop
  | [] => True
  | (name, json) :: members =>
    (∃ key, name = some key ∧ Text.isName key.toList = true) ∧ json.Worded ∧ MembersWorded members

end

mutual

/-- The tokens of a tree as it is written. -/
def tokens : Json → List Token
  | null => [.null]
  | truth value => [.truth value]
  | number literal => [.number literal]
  | text content => [.text content]
  | array elements => .openBracket :: tokensOfAll elements ++ [.closeBracket]
  | object members => .openBrace :: tokensOfMembers members ++ [.closeBrace]

def tokensOfAll : List Json → List Token
  | [] => []
  | [json] => json.tokens
  | json :: jsons => json.tokens ++ .comma :: tokensOfAll jsons

def tokensOfMembers : List (Option String × Json) → List Token
  | [] => []
  | [(name, json)] => .text name :: .colon :: json.tokens
  | (name, json) :: members =>
    .text name :: .colon :: json.tokens ++ .comma :: tokensOfMembers members

end

open Token

/-- The comma stands between items only. -/
theorem toList_intercalate_cons (first second : String) (texts : List String) :
    (String.intercalate "," (first :: second :: texts)).toList =
      first.toList ++ ',' :: (String.intercalate "," (second :: texts)).toList := by
  rw [String.intercalate_cons_cons]
  simp

theorem toList_toTexts_cons (json next : Json) (jsons : List Json) :
    (String.intercalate "," (toTexts (json :: next :: jsons))).toList =
      json.toText.toList ++ ',' :: (String.intercalate "," (toTexts (next :: jsons))).toList := by
  rw [toTexts, toTexts, toList_intercalate_cons]

theorem toList_memberTexts_cons (name : Option String) (json : Json) (next : Option String × Json)
    (members : List (Option String × Json)) :
    (String.intercalate "," (memberTexts ((name, json) :: next :: members))).toList =
      (quote (name.getD "")).toList ++ ':' :: (json.toText.toList ++
        ',' :: (String.intercalate "," (memberTexts (next :: members))).toList) := by
  rw [memberTexts, memberTexts, toList_intercalate_cons]
  simp

mutual

theorem scan?_toText : ∀ (json : Json), json.Worded → ∀ {rest : List Char} {tokens : List Token},
    scan? rest = some tokens → scan? (json.toText.toList ++ rest) = some (json.tokens ++ tokens)
  | null, _, rest, tokens, hrest => by
    have hword : first? 'n' ('u' :: 'l' :: 'l' :: rest) = some (.null, rest) := rfl
    exact scan?_cons rfl hword hrest
  | truth true, _, rest, tokens, hrest => by
    have hword : first? 't' ('r' :: 'u' :: 'e' :: rest) = some (.truth true, rest) := rfl
    exact scan?_cons rfl hword hrest
  | truth false, _, rest, tokens, hrest => by
    have hword : first? 'f' ('a' :: 'l' :: 's' :: 'e' :: rest) = some (.truth false, rest) := rfl
    exact scan?_cons rfl hword hrest
  | text none, h, _, _, _ => Bool.noConfusion h
  | text (some content), _, _, _, hrest => scan?_quote content hrest
  | array elements, h, rest, tokens, hrest => by
    have hclose : scan? (']' :: rest) = some (.closeBracket :: tokens) :=
      scan?_cons rfl rfl hrest
    have hopen := scan?_cons (c := '[') rfl rfl (scan?_toTexts elements h hclose)
    simpa [toText, Json.tokens] using hopen
  | object members, h, rest, tokens, hrest => by
    have hclose : scan? ('\x7d' :: rest) = some (.closeBrace :: tokens) :=
      scan?_cons rfl rfl hrest
    have hopen := scan?_cons (c := '\x7b') rfl rfl (scan?_memberTexts members h hclose)
    simpa [toText, Json.tokens] using hopen

theorem scan?_toTexts : ∀ (elements : List Json), AllWorded elements →
    ∀ {rest : List Char} {tokens : List Token}, scan? rest = some tokens →
    scan? ((String.intercalate "," (toTexts elements)).toList ++ rest) =
      some (tokensOfAll elements ++ tokens)
  | [], _, rest, tokens, hrest => hrest
  | [json], h, rest, tokens, hrest => by
    simpa [toTexts, tokensOfAll] using scan?_toText json h.1 hrest
  | json :: next :: jsons, h, rest, tokens, hrest => by
    have hothers := scan?_toTexts (next :: jsons) h.2 hrest
    have hcomma := scan?_cons (c := ',') rfl rfl hothers
    have hfirst := scan?_toText json h.1 hcomma
    rw [toList_toTexts_cons]
    simpa [tokensOfAll] using hfirst

theorem scan?_memberTexts : ∀ (members : List (Option String × Json)), MembersWorded members →
    ∀ {rest : List Char} {tokens : List Token}, scan? rest = some tokens →
    scan? ((String.intercalate "," (memberTexts members)).toList ++ rest) =
      some (tokensOfMembers members ++ tokens)
  | [], _, rest, tokens, hrest => hrest
  | [(name, json)], h, rest, tokens, hrest => by
    obtain ⟨⟨key, rfl, -⟩, hjson, -⟩ := h
    have hvalue := scan?_toText json hjson hrest
    have hcolon := scan?_cons (c := ':') rfl rfl hvalue
    simpa [memberTexts, tokensOfMembers] using scan?_quote key hcolon
  | (name, json) :: next :: members, h, rest, tokens, hrest => by
    obtain ⟨⟨key, rfl, -⟩, hjson, hmembers⟩ := h
    have hothers := scan?_memberTexts (next :: members) hmembers hrest
    have hcomma := scan?_cons (c := ',') rfl rfl hothers
    have hvalue := scan?_toText json hjson hcomma
    have hcolon := scan?_cons (c := ':') rfl rfl hvalue
    have hname := scan?_quote key hcolon
    rw [toList_memberTexts_cons]
    simpa [tokensOfMembers] using hname

end

end Json

end SurveyLogic

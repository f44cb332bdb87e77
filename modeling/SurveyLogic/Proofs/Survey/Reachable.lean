import SurveyLogic.Proofs.Survey.Freshness
import SurveyLogic.Proofs.Survey.Steps

/-!
# Reachable states

The states that a loaded survey can come into.  In all of them names are unique, the index of a
question is its place, every condition is one that was accepted, and the questions are up to date
with the answers.
-/

namespace SurveyLogic

namespace Model

/-- A loaded survey, or what an operation makes of a reachable state. -/
inductive Reachable : Model → Prop
  | load {definition : Definition} {model : Model} :
    load definition = .ok model → Reachable model
  | apply {model : Model} (operation : Operation) :
    Reachable model → Reachable (operation.apply model)

theorem Reachable.run {model : Model} (h : model.Reachable) (operations : List Operation) :
    (model.run operations).Reachable := by
  induction operations generalizing model with
  | nil => exact h
  | cons operation operations ih => exact ih (h.apply operation)

/-! ## Loading -/

/-- Repeated names are refused. -/
theorem loadQuestions_names {options : Options} {definitions : List QuestionDefinition}
    {index : Nat} {seen : List String} {cache : Cache} {questions : List Question}
    (h : loadQuestions options index seen cache definitions = .ok questions) :
    (questions.map (·.name)).Nodup ∧ ∀ question ∈ questions, question.name ∉ seen := by
  induction definitions generalizing index seen cache questions with
  | nil =>
      obtain rfl : questions = [] := by simpa [loadQuestions] using h.symm
      exact ⟨List.nodup_nil, by simp⟩
  | cons definition definitions ih =>
      unfold loadQuestions at h
      split at h
      · simp at h
      · next hnew =>
          obtain ⟨⟨condition, after⟩, -, hmore⟩ := exists_of_bind_eq_ok h
          obtain ⟨rest, hrest, hok⟩ := exists_of_bind_eq_ok hmore
          obtain rfl := Except.ok.inj hok
          obtain ⟨hnodup, hunseen⟩ := ih hrest
          constructor
          · -- the name is among those that the later questions may not have
            rw [List.map_cons, List.nodup_cons]
            refine ⟨?_, hnodup⟩
            intro hmem
            obtain ⟨question, hquestion, hname⟩ := List.mem_map.mp hmem
            exact hunseen question hquestion (hname ▸ List.mem_cons_self)
          · intro question hquestion
            rcases List.mem_cons.mp hquestion with rfl | hquestion
            · exact hnew
            · exact fun hseen => hunseen question hquestion (List.mem_cons_of_mem _ hseen)

variable {model : Model}

theorem names_nodup_of_load {definition : Definition} (h : load definition = .ok model) :
    (model.questions.map (·.name)).Nodup := by
  obtain ⟨questions, hquestions, hmodel, -⟩ := questions_of_load h
  rw [hmodel, List.map_map]
  exact (loadQuestions_names hquestions).1

theorem indices_of_load {definition : Definition} (h : load definition = .ok model) :
    model.questions.map (·.index) = List.range model.questions.length := by
  obtain ⟨questions, hquestions, hmodel, -⟩ := questions_of_load h
  obtain ⟨-, -, hindices⟩ := loadQuestions_spec hquestions
  rw [hmodel, List.map_map, List.length_map, List.range_eq_range']
  exact hindices

/-- In two lists that are related item by item, every item on the left has a partner. -/
theorem exists_of_forall₂_left {α β : Type} {R : α → β → Prop} {as : List α} {bs : List β}
    (h : List.Forall₂ R as bs) {a : α} (ha : a ∈ as) : ∃ b ∈ bs, R a b := by
  induction h with
  | nil => simp at ha
  | @cons first partner as bs hfirst _ ih =>
      rcases List.mem_cons.mp ha with rfl | ha
      · exact ⟨partner, List.mem_cons_self, hfirst⟩
      · obtain ⟨b, hb, hrelated⟩ := ih ha
        exact ⟨b, List.mem_cons_of_mem _ hb, hrelated⟩

theorem exists_of_forall₂_right {α β : Type} {R : α → β → Prop} {as : List α} {bs : List β}
    (h : List.Forall₂ R as bs) {b : β} (hb : b ∈ bs) : ∃ a ∈ as, R a b := by
  have hflip : List.Forall₂ (flip R) bs as := List.Forall₂.flip h
  exact exists_of_forall₂_left hflip hb

/-- A question has no condition but the one that its definition asks for, which was accepted. -/
theorem accepted_of_defines {entry : QuestionDefinition} {question : Question}
    (h : Question.Defines entry question) {condition : Compiled}
    (hcondition : question.condition = some condition) :
    ∃ source, entry.Asks source ∧ Compiled.condition source = .ok condition := by
  have hgives := h.condition
  rw [hcondition] at hgives
  cases hgives with
  | compiled hasks hcompiled => exact ⟨_, hasks, hcompiled⟩

theorem accepted_of_load {definition : Definition} (h : load definition = .ok model)
    {condition : Compiled} (hcondition : some condition ∈ model.questions.map (·.condition)) :
    ∃ source, Compiled.condition source = .ok condition := by
  obtain ⟨question, hquestion, hsome⟩ := List.mem_map.mp hcondition
  obtain ⟨entry, -, hdefines⟩ := exists_of_forall₂_right (defines_of_load h) hquestion
  obtain ⟨source, -, haccepted⟩ := accepted_of_defines hdefines hsome
  exact ⟨source, haccepted⟩

/-- Whether a condition holds before any answer is given; one that reads answers does not. -/
def holdsAtLoad (condition : Compiled) : Bool :=
  condition.roots.isEmpty &&
    match (condition.evaluate .empty).1 with
    | .ok value => value.isTruthy
    | .error _ => false

/-- Titles start rendered without answers, and questions start visible if nothing hides them. -/
theorem initial_of_load {definition : Definition} (h : load definition = .ok model)
    {question : Question} (hquestion : question ∈ model.questions) :
    question.rendered = question.title.render .empty definition.options.placeholderFallback ∧
      question.visible = question.condition.all holdsAtLoad := by
  obtain ⟨questions, hquestions, hmodel, -⟩ := questions_of_load h
  obtain ⟨-, hinitial, hindices⟩ := loadQuestions_spec hquestions
  rw [hmodel] at hquestion
  obtain ⟨read, hread, rfl⟩ := List.mem_map.mp hquestion
  obtain ⟨hrendered, hvisible⟩ := hinitial read hread
  have hconstant := index_mem_constantConditions (hindices ▸ List.nodup_range') hread
  refine ⟨by simpa [Question.refreshed] using hrendered, ?_⟩
  cases hcondition : read.condition with
  | none => simp [Question.refreshed, Question.visibleAfter, hcondition, hvisible]
  | some condition =>
      -- of the conditions only those without roots were looked at
      have hdue : read.index ∈ constantConditions questions ↔ condition.roots = [] := by
        simp [hconstant, hcondition]
      by_cases hroots : condition.roots = []
      · cases houtcome : (condition.evaluate .empty).1 <;>
          simp [Question.refreshed, Question.visibleAfter, holdsAtLoad, hdue, hroots, hcondition,
            hvisible, houtcome]
      · simp [Question.refreshed, holdsAtLoad, hdue, hroots, hcondition, hvisible]

/-! ## All states -/

theorem Reachable.consistent (h : model.Reachable) : model.Consistent := by
  induction h with
  | load hload => exact consistent_of_load hload
  | apply operation _ ih => exact ih.apply operation

theorem Reachable.names_nodup (h : model.Reachable) : (model.questions.map (·.name)).Nodup := by
  induction h with
  | load hload => exact names_nodup_of_load hload
  | apply operation _ ih =>
      rw [operation.map_apply _ fun _ _ _ _ _ => rfl]
      exact ih

theorem Reachable.indices (h : model.Reachable) :
    model.questions.map (·.index) = List.range model.questions.length := by
  induction h with
  | load hload => exact indices_of_load hload
  | @apply model operation _ ih =>
      rw [operation.map_apply _ fun _ _ _ _ _ => rfl, ih, operation.apply_questions_eq,
        List.length_map]

theorem Reachable.accepted (h : model.Reachable) {condition : Compiled}
    (hcondition : some condition ∈ model.questions.map (·.condition)) :
    ∃ source, Compiled.condition source = .ok condition := by
  induction h with
  | load hload => exact accepted_of_load hload hcondition
  | apply operation _ ih =>
      rw [operation.map_apply _ fun _ _ _ _ _ => rfl] at hcondition
      exact ih hcondition

theorem Reachable.exists_fresh (h : model.Reachable) : ∃ past, model.Fresh past := by
  induction h with
  | load hload => exact ⟨[], fresh_of_load hload⟩
  | apply operation hbefore ih =>
      obtain ⟨past, hfresh⟩ := ih
      exact ⟨past ++ [operation], hfresh.apply hbefore.consistent operation⟩

end Model

end SurveyLogic

import SurveyLogic.Survey.Model

/-!
# Refreshing, question by question

`Question.refreshDue` walks over the questions of a survey and mends those that are due.  Each
question is treated by itself, so the walk is a `map` on the questions (`refreshDue_fst`) and a
`flatMap` on each part of the report.  What one refresh does is said field by field in
`Question.refreshed`, the question after its title and then its visibility were due or not.

Refreshing never touches what loading fixed: name, index, title and condition.
-/

namespace SurveyLogic

namespace Question

/-! ## One title, one condition -/

section OneQuestion

variable (env : Environment) (fallback : Fallback) (question : Question)

/-- A refreshed title leaves everything but the rendered text as it is. -/
theorem refreshTitle_fst_eq : (question.refreshTitle env fallback).1 =
    { question with rendered := question.title.render env fallback } := by
  unfold refreshTitle
  dsimp only
  split
  · next heq => rw [heq]
  · rfl

/-- Whether a question is visible once its condition has been looked at. -/
def visibleAfter : Bool :=
  match question.condition with
  | none => question.visible
  | some condition =>
    match (condition.evaluate env).1 with
    | .error _ => question.visible
    | .ok value => value.isTruthy

/-- A refreshed condition leaves everything but the visibility as it is. -/
theorem refreshVisibility_fst_eq : (question.refreshVisibility env).1 =
    { question with visible := question.visibleAfter env } := by
  obtain ⟨name, index, title, condition, rendered, visible⟩ := question
  cases condition with
  | none => rfl
  | some condition =>
      cases houtcome : (condition.evaluate env).1 with
      | error error => simp [refreshVisibility, visibleAfter, houtcome]
      | ok value =>
          -- nothing is written if the visibility stays, but then the two are the same
          by_cases hsame : value.isTruthy = visible
          · simp [refreshVisibility, visibleAfter, houtcome, hsame]
          · simp [refreshVisibility, visibleAfter, houtcome, hsame]

end OneQuestion

/-! ## The questions that are due -/

section Due

variable (due : List Nat) (refresh : Question → Question × Report)

/-- A question after a walk, and what the walk reports of it. -/
def refreshIfDue (question : Question) : Question × Report :=
  if question.index ∈ due then refresh question else (question, {})

theorem refreshDue_cons (question : Question) (questions : List Question) :
    refreshDue due refresh (question :: questions) =
      ((refreshIfDue due refresh question).1 :: (refreshDue due refresh questions).1,
        (refreshIfDue due refresh question).2 ++ (refreshDue due refresh questions).2) := by
  simp only [refreshDue, refreshIfDue]

theorem refreshDue_fst (questions : List Question) :
    (refreshDue due refresh questions).1 =
      questions.map fun question => (refreshIfDue due refresh question).1 := by
  induction questions with
  | nil => rfl
  | cons question questions ih => rw [refreshDue_cons, List.map_cons, ih]

theorem refreshDue_titles (questions : List Question) :
    (refreshDue due refresh questions).2.titles =
      questions.flatMap fun question => (refreshIfDue due refresh question).2.titles := by
  induction questions with
  | nil => rfl
  | cons question questions ih =>
      rw [refreshDue_cons, List.flatMap_cons, ← ih]
      rfl

theorem refreshDue_visibility (questions : List Question) :
    (refreshDue due refresh questions).2.visibility =
      questions.flatMap fun question => (refreshIfDue due refresh question).2.visibility := by
  induction questions with
  | nil => rfl
  | cons question questions ih =>
      rw [refreshDue_cons, List.flatMap_cons, ← ih]
      rfl

end Due

/-! ## Titles, then visibility -/

section Refreshed

variable (env : Environment) (fallback : Fallback) (titles visibility : List Nat)

/-- A question after the titles and then the conditions that are due. -/
def refreshed (question : Question) : Question :=
  { question with
    rendered :=
      if question.index ∈ titles then question.title.render env fallback else question.rendered
    visible := if question.index ∈ visibility then question.visibleAfter env else question.visible }

theorem refreshIfDue_refreshTitle_fst (question : Question) :
    (refreshIfDue titles (refreshTitle env fallback) question).1 =
      { question with
        rendered := if question.index ∈ titles then question.title.render env fallback
          else question.rendered } := by
  unfold refreshIfDue
  split
  · exact refreshTitle_fst_eq env fallback question
  · rfl

theorem refreshIfDue_refreshVisibility_fst (question : Question) :
    (refreshIfDue visibility (refreshVisibility env) question).1 =
      { question with
        visible := if question.index ∈ visibility then question.visibleAfter env
          else question.visible } := by
  unfold refreshIfDue
  split
  · exact refreshVisibility_fst_eq env question
  · rfl

end Refreshed

end Question

/-! ## Refreshing a model -/

namespace Model

open Question

variable (model : Model) (titles visibility : List Nat)

@[simp] theorem refresh_environment :
    (model.refresh titles visibility).1.environment = model.environment := rfl

@[simp] theorem refresh_options :
    (model.refresh titles visibility).1.options = model.options := rfl

@[simp] theorem refresh_dependents :
    (model.refresh titles visibility).1.dependents = model.dependents := rfl

theorem refresh_questions : (model.refresh titles visibility).1.questions =
    model.questions.map
      (refreshed model.environment model.options.placeholderFallback titles visibility) := by
  unfold refresh
  dsimp only
  rw [refreshDue_fst, refreshDue_fst, List.map_map]
  refine List.map_congr_left fun question _ => ?_
  rw [Function.comp_apply, refreshIfDue_refreshVisibility_fst, refreshIfDue_refreshTitle_fst]
  rfl

end Model

end SurveyLogic

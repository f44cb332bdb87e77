import SurveyLogic.Proofs.Survey.Runs

/-!
# One operation, question by question

Every operation does the same thing to a survey: it may write an answer, and then it refreshes the
titles and the conditions that are due.  `Operation.apply_questions_eq` says what becomes of each
question, and `Operation.report_titles`, `Operation.report_visibility` and
`Operation.report_failures` what is reported of each.  In a consistent state a title or a condition
is due exactly if the operation touches a name that it reads (`Operation.Touches`).

Whatever refreshing leaves alone is the same in all states of a run: `Operation.map_apply`.
-/

namespace SurveyLogic

/-! ## What is reported of one question -/

namespace Question

/-- The entry of a report for a title that changed. -/
def titleChange? (before after : Question) : Option (String × String) :=
  if after.rendered = before.rendered then none else some (after.name, after.rendered)

/-- The entry of a report for a visibility that changed. -/
def visibilityChange? (before after : Question) : Option (String × Bool) :=
  if after.visible = before.visible then none else some (after.name, after.visible)

/-- The entry of a report for a condition that fails. -/
def failure? (env : Environment) (question : Question) : Option Failure :=
  question.condition.bind fun condition =>
    match (condition.evaluate env).1 with
    | .ok _ => none
    | .error error => some ⟨question.name, error⟩

theorem key_of_titleChange? {before after : Question} {entry : String × String}
    (h : titleChange? before after = some entry) : entry.1 = after.name := by
  unfold titleChange? at h
  split at h
  · simp at h
  · rw [← Option.some.inj h]

theorem key_of_visibilityChange? {before after : Question} {entry : String × Bool}
    (h : visibilityChange? before after = some entry) : entry.1 = after.name := by
  unfold visibilityChange? at h
  split at h
  · simp at h
  · rw [← Option.some.inj h]

theorem key_of_failure? {env : Environment} {question : Question} {failure : Failure}
    (h : question.failure? env = some failure) : failure.question = question.name := by
  obtain ⟨condition, -, hfailure⟩ := Option.bind_eq_some_iff.mp h
  split at hfailure
  · simp at hfailure
  · rw [← Option.some.inj hfailure]

theorem key_of_failure?_if_due {due : Prop} [Decidable due] {env : Environment}
    {question : Question} {failure : Failure}
    (h : (if due then question.failure? env else none) = some failure) :
    failure.question = question.name := by
  split at h
  · exact key_of_failure? h
  · contradiction

section OneQuestion

variable (env : Environment) (fallback : Fallback) (question : Question)

theorem refreshTitle_snd_eq : (question.refreshTitle env fallback).2 =
    { titles := (titleChange? question (question.refreshTitle env fallback).1).toList } := by
  unfold refreshTitle
  dsimp only
  split
  · simp [titleChange?]
  · next hchanged => simp [titleChange?, hchanged]

theorem refreshVisibility_snd_eq : (question.refreshVisibility env).2 =
    { visibility := (visibilityChange? question (question.refreshVisibility env).1).toList
      failures := (question.failure? env).toList } := by
  unfold refreshVisibility failure?
  cases question.condition with
  | none => simp [visibilityChange?]
  | some condition =>
      cases houtcome : (condition.evaluate env).1 with
      | error error => simp [houtcome, visibilityChange?]
      | ok value =>
          by_cases hsame : value.isTruthy = question.visible
          · simp [houtcome, hsame, visibilityChange?]
          · simp [houtcome, hsame, visibilityChange?]

end OneQuestion

theorem refreshDue_failures (due : List Nat) (refresh : Question → Question × Report)
    (questions : List Question) :
    (refreshDue due refresh questions).2.failures =
      questions.flatMap fun question => (refreshIfDue due refresh question).2.failures := by
  induction questions with
  | nil => rfl
  | cons question questions ih =>
      rw [refreshDue_cons, List.flatMap_cons, ← ih]
      rfl

section Refreshed

variable (env : Environment) (fallback : Fallback) (titles visibility : List Nat)
  (question : Question)

theorem refreshIfDue_refreshTitle_snd :
    (refreshIfDue titles (refreshTitle env fallback) question).2 =
      { titles :=
          (titleChange? question (question.refreshed env fallback titles visibility)).toList } := by
  unfold refreshIfDue
  split
  · next hdue => simp [refreshTitle_snd_eq, refreshTitle_fst_eq, refreshed, hdue, titleChange?]
  · next hdue => simp [refreshed, hdue, titleChange?]

/-- What is reported of a condition does not depend on the title, due or not. -/
theorem refreshIfDue_refreshVisibility_snd :
    (refreshIfDue visibility (refreshVisibility env)
        (refreshIfDue titles (refreshTitle env fallback) question).1).2 =
      { visibility :=
          (visibilityChange? question (question.refreshed env fallback titles visibility)).toList
        failures :=
          if question.index ∈ visibility then (question.failure? env).toList else [] } := by
  -- the title is put in first, and no condition looks at it
  rw [refreshIfDue_refreshTitle_fst]
  unfold refreshIfDue
  dsimp only
  split
  · next hdue =>
      rw [refreshVisibility_snd_eq, refreshVisibility_fst_eq]
      simp only [refreshed, if_pos hdue]
      rfl
  · next hdue => simp [refreshed, hdue, visibilityChange?]

end Refreshed

end Question

/-! ## What is reported of a refresh -/

namespace Report

@[simp] theorem append_titles (a b : Report) : (a ++ b).titles = a.titles ++ b.titles := rfl

@[simp] theorem append_visibility (a b : Report) :
    (a ++ b).visibility = a.visibility ++ b.visibility := rfl

@[simp] theorem append_failures (a b : Report) :
    (a ++ b).failures = a.failures ++ b.failures := rfl

end Report

namespace Model

open Question

variable (model : Model) (titles visibility : List Nat)

theorem refresh_titles : (model.refresh titles visibility).2.titles =
    model.questions.filterMap fun question => titleChange? question (question.refreshed
      model.environment model.options.placeholderFallback titles visibility) := by
  unfold refresh
  dsimp only
  rw [Report.append_titles, refreshDue_titles, refreshDue_titles, refreshDue_fst, List.flatMap_map]
  simp [refreshIfDue_refreshTitle_snd _ _ titles visibility, refreshIfDue_refreshVisibility_snd,
    List.filterMap_eq_flatMap_toList]

theorem refresh_visibility : (model.refresh titles visibility).2.visibility =
    model.questions.filterMap fun question => visibilityChange? question (question.refreshed
      model.environment model.options.placeholderFallback titles visibility) := by
  unfold refresh
  dsimp only
  rw [Report.append_visibility, refreshDue_visibility, refreshDue_visibility, refreshDue_fst,
    List.flatMap_map]
  simp [refreshIfDue_refreshTitle_snd _ _ titles visibility, refreshIfDue_refreshVisibility_snd,
    List.filterMap_eq_flatMap_toList]

theorem refresh_failures : (model.refresh titles visibility).2.failures =
    model.questions.filterMap fun question =>
      if question.index ∈ visibility then question.failure? model.environment else none := by
  unfold refresh
  dsimp only
  rw [Report.append_failures, refreshDue_failures, refreshDue_failures, refreshDue_fst,
    List.flatMap_map]
  simp [refreshIfDue_refreshTitle_snd _ _ titles visibility, refreshIfDue_refreshVisibility_snd,
    List.filterMap_eq_flatMap_toList, apply_ite]

end Model

/-! ## Operations -/

namespace Operation

open Question

/-- Whether an operation makes what reads the given names be looked at again. -/
def Touches (names : Names) : Operation → Prop
  | update path _ => Text.root path ∈ names
  | evaluateAll => True
  | subscribe | unsubscribe _ => False

/-- The questions whose titles an operation renders anew. -/
def titlesDue (operation : Operation) (model : Model) : List Nat :=
  match operation with
  | update path _ => model.dependents.ofTitle path
  | evaluateAll => model.questions.map (·.index)
  | subscribe | unsubscribe _ => []

/-- The questions whose conditions an operation evaluates anew. -/
def conditionsDue (operation : Operation) (model : Model) : List Nat :=
  match operation with
  | update path _ => model.dependents.ofVisibility path
  | evaluateAll => model.questions.map (·.index)
  | subscribe | unsubscribe _ => []

/-- What an operation reports. -/
def report (operation : Operation) (model : Model) : Report :=
  match operation with
  | update path value => (model.update path value).2
  | evaluateAll => model.evaluateAll.2
  | subscribe | unsubscribe _ => {}

variable (operation : Operation) (model : Model)

/-- What an operation makes of one question of a model. -/
def after (question : Question) : Question :=
  question.refreshed (operation.write model.environment) model.options.placeholderFallback
    (operation.titlesDue model) (operation.conditionsDue model)

/-- An operation that refreshes nothing leaves every question as it is. -/
theorem refreshed_nil (env : Environment) (fallback : Fallback) :
    Question.refreshed env fallback [] [] = id := by
  funext question
  simp [refreshed]

theorem apply_questions_eq :
    (operation.apply model).questions = model.questions.map (operation.after model) := by
  unfold after
  cases operation with
  | update path value => exact Model.refresh_questions _ _ _
  | evaluateAll => exact Model.refresh_questions _ _ _
  | _ => simp [titlesDue, conditionsDue, refreshed_nil, apply, Model.subscribe, Model.unsubscribe]

/-- What refreshing leaves alone in a question, an operation leaves alone in all of them. -/
theorem map_apply {α : Type} {view : Question → α}
    (hview : ∀ env fallback titles visibility question,
      view (Question.refreshed env fallback titles visibility question) = view question) :
    (operation.apply model).questions.map view = model.questions.map view := by
  rw [apply_questions_eq, List.map_map]
  exact List.map_congr_left fun question _ => hview _ _ _ _ question

theorem report_titles : (operation.report model).titles =
    model.questions.filterMap fun question =>
      titleChange? question (operation.after model question) := by
  unfold after
  cases operation with
  | update path value => exact Model.refresh_titles _ _ _
  | evaluateAll => exact Model.refresh_titles _ _ _
  | _ => simp [report, titlesDue, conditionsDue, refreshed_nil, titleChange?]

theorem report_visibility : (operation.report model).visibility =
    model.questions.filterMap fun question =>
      visibilityChange? question (operation.after model question) := by
  unfold after
  cases operation with
  | update path value => exact Model.refresh_visibility _ _ _
  | evaluateAll => exact Model.refresh_visibility _ _ _
  | _ => simp [report, titlesDue, conditionsDue, refreshed_nil, visibilityChange?]

theorem report_failures : (operation.report model).failures =
    model.questions.filterMap fun question =>
      if question.index ∈ operation.conditionsDue model then
        question.failure? (operation.write model.environment) else none := by
  cases operation with
  | update path value => exact Model.refresh_failures _ _ _
  | evaluateAll => exact Model.refresh_failures _ _ _
  | _ => simp [report, conditionsDue]

end Operation

/-! ## What is due in a consistent state -/

namespace Model.Consistent

variable {model : Model} {question : Question}

theorem index_mem_titlesDue (h : model.Consistent) (hquestion : question ∈ model.questions)
    (operation : Operation) :
    question.index ∈ operation.titlesDue model ↔ operation.Touches question.title.roots := by
  cases operation with
  | update path value => exact h.index_mem_ofTitle hquestion path
  | evaluateAll => exact iff_of_true (List.mem_map_of_mem hquestion) trivial
  | _ => simp [Operation.titlesDue, Operation.Touches]

theorem index_mem_conditionsDue (h : model.Consistent) (hquestion : question ∈ model.questions)
    (operation : Operation) :
    question.index ∈ operation.conditionsDue model ↔
      operation.Touches (Dependents.conditionRoots question) := by
  cases operation with
  | update path value => exact h.index_mem_ofVisibility hquestion path
  | evaluateAll => exact iff_of_true (List.mem_map_of_mem hquestion) trivial
  | _ => simp [Operation.conditionsDue, Operation.Touches]

end Model.Consistent

end SurveyLogic

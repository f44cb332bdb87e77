import SurveyLogic.Proofs.Survey.InTurn

/-!
# Reports are exact

A report lists what differs between the state before an operation and the state after it, and
nothing else: `Model.Reachable.report_exact`.  Nothing has to be known about what is skipped, for a
title or a condition that is not due stays as it is.  That names are unique makes an entry tell
which question it is about.  The entries come in survey order because the dependents of a path do,
however they are taken (`Model.Reachable.update_eq_inTurn`).
-/

namespace SurveyLogic

/-! ## Entries about questions -/

section Entries

variable {α : Type} {key : α → String} {about? : Question → Option α} {questions : List Question}

/-- There is an entry for some of the questions, under the names of these. -/
theorem map_key_filterMap (hkey : ∀ question entry, about? question = some entry →
      key entry = question.name) (questions : List Question) :
    (questions.filterMap about?).map key =
      (questions.filter fun question => (about? question).isSome).map (·.name) := by
  induction questions with
  | nil => rfl
  | cons question questions ih =>
      cases hentry : about? question with
      | none => simp [hentry, ih]
      | some entry => simp [hentry, ih, hkey question entry hentry]

/-- Where names are unique, there is at most one entry for each. -/
theorem nodup_map_key_filterMap (hkey : ∀ question entry, about? question = some entry →
      key entry = question.name) (hnames : (questions.map (·.name)).Nodup) :
    ((questions.filterMap about?).map key).Nodup := by
  rw [map_key_filterMap hkey]
  exact hnames.sublist (List.filter_sublist.map _)

end Entries

/-! ## One question -/

namespace Question

/-- What becomes of a question when its title and its condition are looked at, each if it is due
for the names that it reads. -/
structure Renewed (env : Environment) (fallback : Fallback) (due : Names → Bool)
    (before after : Question) : Prop where
  name : after.name = before.name
  index : after.index = before.index
  title : after.title = before.title
  condition : after.condition = before.condition
  rendered : due before.title.roots = true → after.rendered = before.title.render env fallback
  shown : ∀ condition value, before.condition = some condition → due condition.roots = true →
    (condition.evaluate env).1 = .ok value → after.visible = value.isTruthy
  failed : ∀ condition error, before.condition = some condition →
    (condition.evaluate env).1 = .error error → after.visible = before.visible
  titleKept : due before.title.roots = false → after.rendered = before.rendered
  visibleKept : (∀ condition, before.condition = some condition → due condition.roots = false) →
    after.visible = before.visible

theorem visibleAfter_of_error {question : Question} {condition : Compiled} {env : Environment}
    {error : RuntimeError} (hcondition : question.condition = some condition)
    (herror : (condition.evaluate env).1 = .error error) :
    question.visibleAfter env = question.visible := by
  simp [visibleAfter, hcondition, herror]

theorem renewed_refreshed {question : Question} {env : Environment} {fallback : Fallback}
    {titles visibility : List Nat} {due : Names → Bool}
    (htitle : question.index ∈ titles ↔ due question.title.roots = true)
    (hcondition : question.index ∈ visibility ↔
      due (Dependents.conditionRoots question) = true) :
    question.Renewed env fallback due (question.refreshed env fallback titles visibility) where
  name := rfl
  index := rfl
  title := rfl
  condition := rfl
  rendered hdue := if_pos (htitle.mpr hdue)
  shown condition value hsome hdue hvalue := by
    rw [← conditionRoots_eq hsome] at hdue
    simp only [refreshed, if_pos (hcondition.mpr hdue)]
    exact visibleAfter_of_ok hsome hvalue
  failed condition error hsome herror := by
    simp only [refreshed, visibleAfter_of_error hsome herror, ite_self]
  titleKept hdue := if_neg fun hmem => by simp [htitle.mp hmem] at hdue
  visibleKept hdue := by
    cases hsome : question.condition with
    | none => simp only [refreshed, visibleAfter_of_none hsome, ite_self]
    -- a visibility that is due belongs to a condition that is
    | some condition =>
        refine if_neg fun hmem => ?_
        rw [hcondition, conditionRoots_eq hsome, hdue condition hsome] at hmem
        contradiction

end Question

/-! ## A whole survey -/

/-- What becomes of a survey when everything that is due is looked at with the given answers.  What
was fixed when it was loaded stays, and so do the listeners. -/
structure Model.Renewed (env : Environment) (due : Names → Bool) (before after : Model) : Prop where
  environment : after.environment = env
  questions : List.Forall₂ (Question.Renewed env before.options.placeholderFallback due)
    before.questions after.questions
  dependents : after.dependents = before.dependents
  options : after.options = before.options
  listeners : after.listeners = before.listeners

/-- A report lists the titles and the visibilities in which two states differ, and the conditions
that were due and fail, each in survey order and under the unique name of its question. -/
structure Report.Exact (report : Report) (due : Names → Bool) (before after : Model) : Prop where
  titles : report.titles = (before.questions.zip after.questions).filterMap fun both =>
    Question.titleChange? both.1 both.2
  visibility : report.visibility = (before.questions.zip after.questions).filterMap fun both =>
    Question.visibilityChange? both.1 both.2
  failures : report.failures =
    (before.questions.filter fun question => due (Dependents.conditionRoots question)).filterMap
      (Question.failure? after.environment)
  names_nodup : (before.questions.map (·.name)).Nodup
  titles_nodup : (report.titles.map (·.1)).Nodup
  visibility_nodup : (report.visibility.map (·.1)).Nodup
  failures_nodup : (report.failures.map (·.question)).Nodup

namespace Operation

variable {model : Model} {operation : Operation} {due : Names → Bool}

theorem renewed_apply (hconsistent : model.Consistent)
    (hdue : ∀ names, due names = true ↔ operation.Touches names) :
    List.Forall₂ (Question.Renewed (operation.write model.environment)
      model.options.placeholderFallback due) model.questions (operation.apply model).questions := by
  rw [apply_questions_eq, List.forall₂_map_right_iff, List.forall₂_same]
  intro question hquestion
  refine Question.renewed_refreshed ?_ ?_
  · rw [hdue, hconsistent.index_mem_titlesDue hquestion]
  · rw [hdue, hconsistent.index_mem_conditionsDue hquestion]

theorem exact_report (h : model.Reachable)
    (hdue : ∀ names, due names = true ↔ operation.Touches names) :
    (operation.report model).Exact due model (operation.apply model) := by
  -- a question and what becomes of it stand at the same place
  have hzip : model.questions.zip (operation.apply model).questions =
      model.questions.map fun question => (question, operation.after model question) := by
    rw [apply_questions_eq]
    exact List.map_prod_left_eq_zip.symm
  refine ⟨?_, ?_, ?_, h.names_nodup, ?_, ?_, ?_⟩
  · rw [report_titles, hzip, List.filterMap_map]
    rfl
  · rw [report_visibility, hzip, List.filterMap_map]
    rfl
  · rw [report_failures, List.filterMap_filter, Model.apply_environment]
    refine List.filterMap_congr fun question hquestion => ?_
    -- what is due by index is due by the names that it reads
    have hiff := (h.consistent.index_mem_conditionsDue hquestion operation).trans (hdue _).symm
    exact if_congr hiff rfl rfl
  · rw [report_titles]
    exact nodup_map_key_filterMap (fun _ _ => Question.key_of_titleChange?) h.names_nodup
  · rw [report_visibility]
    exact nodup_map_key_filterMap (fun _ _ => Question.key_of_visibilityChange?) h.names_nodup
  · rw [report_failures]
    exact nodup_map_key_filterMap (fun _ _ => Question.key_of_failure?_if_due) h.names_nodup

end Operation

namespace Model

/-- **The report of an update is the exact difference of the two states.**  An update takes the
dependents of its path in turn: whatever reads the root of the path is looked at with the new answer
in place.  The report lists what has come out differently, in survey order, and which conditions
failed.  Refreshing everything does the same to all questions, with the answers as they are. -/
theorem Reachable.report_exact {model : Model} (h : model.Reachable) :
    (∀ path value, model.update path value = model.updateInTurn path value ∧
      model.Renewed (model.environment.set path value)
        (fun names => decide (Text.root path ∈ names)) (model.update path value).1 ∧
      (model.update path value).2.Exact (fun names => decide (Text.root path ∈ names)) model
        (model.update path value).1) ∧
    model.evaluateAll = model.evaluateAllInTurn ∧
    model.Renewed model.environment (fun _ => true) model.evaluateAll.1 ∧
    model.evaluateAll.2.Exact (fun _ => true) model model.evaluateAll.1 := by
  have hupdate : ∀ path value names, decide (Text.root path ∈ names) = true ↔
      (Operation.update path value).Touches names := fun _ _ _ => decide_eq_true_iff
  have hall : ∀ names, true = true ↔ Operation.evaluateAll.Touches names :=
    fun _ => iff_of_true rfl trivial
  refine ⟨fun path value => ⟨h.update_eq_inTurn path value, ?_, ?_⟩,
    h.evaluateAll_eq_inTurn, ?_, ?_⟩
  · exact ⟨rfl, Operation.renewed_apply h.consistent (hupdate path value), rfl, rfl, rfl⟩
  · exact Operation.exact_report h (hupdate path value)
  · exact ⟨rfl, Operation.renewed_apply h.consistent hall, rfl, rfl, rfl⟩
  · exact Operation.exact_report h hall

/-- Three questions, of which the last two read the answer to the first. -/
def placeSurvey : Definition where
  questions := [
    { name := "place", title := "Where to?" },
    { name := "trip", title := "How to get to the {{place}}?",
      visibleWhen := some "place = 'sea'" },
    { name := "cost", title := "Why the {{place}}?", visibleWhen := some "place < 3" }]

/-- The report of an update after which the last condition orders a text and a number. -/
def placeReport : Report where
  titles := [("trip", "How to get to the sea?"), ("cost", "Why the sea?")]
  visibility := [("trip", true)]
  failures := [⟨"cost", .kindMismatch (.ordering .text .number) 6⟩]

theorem report_exact_place : ∃ model, load placeSurvey = .ok model ∧
    (model.update "place" (.text "sea")).2 = placeReport ∧
    placeReport.Exact (fun names => decide ("place" ∈ names)) model
      (model.update "place" (.text "sea")).1 := by
  have hreport : (load placeSurvey).toOption.map
      (fun model => (model.update "place" (.text "sea")).2) = some placeReport := by decide +kernel
  have hroot : Text.root "place" = "place" := by decide +kernel
  obtain ⟨model, hload, hreport⟩ := exists_of_toOption_map hreport
  have hexact := ((Reachable.report_exact (.load hload)).1 "place" (.text "sea")).2.2
  rw [hreport, hroot] at hexact
  exact ⟨model, hload, hreport, hexact⟩

end Model

end SurveyLogic

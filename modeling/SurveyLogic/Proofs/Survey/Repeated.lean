import SurveyLogic.Proofs.Store
import SurveyLogic.Proofs.Survey.Calls
import SurveyLogic.Proofs.Survey.Changes

/-!
# An operation done again

An operation that is done twice in a row leaves what it left the first time.  The second time it
writes what is there already, so that every title and every condition that is due is looked at in
the environment in which it was looked at before, and looking at a question again in the same
environment changes nothing about it (`Question.refreshed_refreshed`).  The report has no more than
the conditions that fail, which fail again, and there is nothing to tell the listeners.

That the questions are up to date is not needed here: what is not due the first time is not due the
second time either.
-/

namespace SurveyLogic

attribute [ext] Model

/-! ## One question -/

namespace Question

/-- A question that its condition has shown or hidden is looked at again with the same result. -/
theorem visibleAfter_eq_of_visible_eq {env : Environment} {question shown : Question}
    (hcondition : shown.condition = question.condition)
    (hvisible : shown.visible = question.visibleAfter env) :
    shown.visibleAfter env = question.visibleAfter env := by
  cases hquestion : question.condition with
  | none => rw [visibleAfter_of_none (hcondition.trans hquestion), hvisible]
  | some condition =>
      have hshown := hcondition.trans hquestion
      cases houtcome : (condition.evaluate env).1 with
      -- a condition that fails leaves what was seen before, which is what it showed
      | error error => rw [visibleAfter_of_error hshown houtcome, hvisible]
      | ok value => rw [visibleAfter_of_ok hshown houtcome, visibleAfter_of_ok hquestion houtcome]

theorem refreshed_refreshed (env : Environment) (fallback : Fallback) (titles visibility : List Nat)
    (question : Question) :
    refreshed env fallback titles visibility (question.refreshed env fallback titles visibility) =
      question.refreshed env fallback titles visibility := by
  rw [refreshed]
  congr 1
  · exact ite_eq_right_iff.mpr fun hdue => (if_pos hdue).symm
  · refine ite_eq_right_iff.mpr fun hdue => ?_
    have hvisible : (question.refreshed env fallback titles visibility).visible =
        question.visibleAfter env := if_pos hdue
    rw [hvisible]
    exact visibleAfter_eq_of_visible_eq rfl hvisible

@[simp] theorem titleChange?_self (question : Question) :
    titleChange? question question = none := by
  simp [titleChange?]

@[simp] theorem visibilityChange?_self (question : Question) :
    visibilityChange? question question = none := by
  simp [visibilityChange?]

end Question

namespace Operation

open Question

variable (operation : Operation) (model : Model)

theorem write_write (env : Environment) :
    operation.write (operation.write env) = operation.write env := by
  cases operation with
  | update path value => exact env.set_set path value value
  | evaluateAll | subscribe | unsubscribe _ => rfl

/-- What is due is due again. -/
theorem due_apply : operation.titlesDue (operation.apply model) = operation.titlesDue model ∧
    operation.conditionsDue (operation.apply model) = operation.conditionsDue model := by
  cases operation with
  | update path value => exact ⟨rfl, rfl⟩
  | evaluateAll =>
      have hindices := @map_apply .evaluateAll model _ (·.index) fun _ _ _ _ _ => rfl
      exact ⟨hindices, hindices⟩
  | subscribe | unsubscribe _ => exact ⟨rfl, rfl⟩

theorem after_after (question : Question) :
    operation.after (operation.apply model) (operation.after model question) =
      operation.after model question := by
  -- the second time the same is due, and the same answers are read
  obtain ⟨htitles, hconditions⟩ := operation.due_apply model
  unfold after
  rw [htitles, hconditions, Model.apply_environment, write_write, Model.apply_options]
  exact refreshed_refreshed _ _ _ _ question

theorem apply_apply_questions :
    (operation.apply (operation.apply model)).questions = (operation.apply model).questions := by
  rw [apply_questions_eq operation (operation.apply model), apply_questions_eq operation model,
    List.map_map]
  exact List.map_congr_left fun question _ => operation.after_after model question

/-- The conditions that fail are those that failed before. -/
theorem report_apply : operation.report (operation.apply model) =
    { failures := (operation.report model).failures } := by
  ext1
  · rw [report_titles, apply_questions_eq, List.filterMap_map]
    simp [after_after]
  · rw [report_visibility, apply_questions_eq, List.filterMap_map]
    simp [after_after]
  · rw [report_failures, report_failures, (operation.due_apply model).2, Model.apply_environment,
      write_write, apply_questions_eq, List.filterMap_map]
    rfl

end Operation

namespace Model

variable {model : Model}

/-- **An operation done again changes nothing.**  After an update, or after everything was
refreshed, doing the same once more leaves the state as it is, reports neither a title nor a
visibility, and calls no listener.  What it reports are the failures that were reported before. -/
theorem Reachable.repeated_idle (h : model.Reachable) :
    (∀ path value, (model.update path value).1.update path value =
        ((model.update path value).1, { failures := (model.update path value).2.failures }) ∧
      ((Operation.update path value).perform (model.update path value).1).calls = []) ∧
    model.evaluateAll.1.evaluateAll =
      (model.evaluateAll.1, { failures := model.evaluateAll.2.failures }) ∧
    (Operation.evaluateAll.perform model.evaluateAll.1).calls = [] := by
  have hcalls : ∀ operation : Operation,
      (operation.perform (operation.apply model)).calls = [] := by
    intro operation
    rw [(h.apply operation).perform_eq operation, operation.report_apply model]
    rfl
  refine ⟨fun path value => ⟨Prod.ext ?_ ?_, hcalls (.update path value)⟩,
    Prod.ext ?_ ?_, hcalls .evaluateAll⟩
  · exact Model.ext ((Operation.update path value).apply_apply_questions model) rfl
      (model.environment.set_set path value value) rfl rfl rfl
  · exact (Operation.update path value).report_apply model
  · exact Model.ext (Operation.evaluateAll.apply_apply_questions model) rfl rfl rfl rfl rfl
  · exact Operation.evaluateAll.report_apply model

/-- A listener is subscribed and one condition fails, so that there is something to tell and to
report. -/
theorem repeated_idle_place : ∃ model, load placeSurvey = .ok model ∧
    let listened := model.subscribe.1
    listened.Reachable ∧ listened.listeners = [0] ∧
    (listened.update "place" (.text "sea")).2 = placeReport ∧
    (listened.update "place" (.text "sea")).1.update "place" (.text "sea") =
      ((listened.update "place" (.text "sea")).1, { failures := placeReport.failures }) ∧
    ((Operation.update "place" (.text "sea")).perform
      (listened.update "place" (.text "sea")).1).calls = [] ∧
    listened.evaluateAll.1.evaluateAll =
      (listened.evaluateAll.1, { failures := listened.evaluateAll.2.failures }) := by
  have hreport : (load placeSurvey).toOption.map
      (fun model => (model.subscribe.1.listeners,
        (model.subscribe.1.update "place" (.text "sea")).2)) = some ([0], placeReport) := by
    decide +kernel
  obtain ⟨model, hload, hseen⟩ := exists_of_toOption_map hreport
  obtain ⟨hlisteners, hreport⟩ := Prod.mk.inj hseen
  have hreachable : model.subscribe.1.Reachable := (Reachable.load hload).apply .subscribe
  obtain ⟨hupdate, hall, -⟩ := Reachable.repeated_idle hreachable
  obtain ⟨hagain, hcalls⟩ := hupdate "place" (.text "sea")
  rw [hreport] at hagain
  exact ⟨model, hload, hreachable, hlisteners, hreport, hagain, hcalls, hall⟩

end Model

end SurveyLogic

import SurveyLogic.Proofs.Survey.InTurn

/-!
# Telling the listeners

A title or a visibility that comes out differently is changed, reported and told to the listeners at
once, before the next question is looked at (`Progress.make`).  What an operation reports and the
state that it leaves do not depend on this, and the calls can be read off the report afterwards:
`Model.Reachable.perform_eq`.  Each step adds to the calls what it adds to the report, so that the
calls are always those of the report so far (`Progress.Told`).
-/

namespace SurveyLogic

/-! ## One change -/

namespace Event

/-- The question after a change. -/
def applyTo (event : Event) (question : Question) : Question :=
  match event with
  | titleChanged _ title => { question with rendered := title }
  | visibilityChanged _ visible => { question with visible := visible }

/-- The report of a change. -/
def report (event : Event) : Report :=
  match event with
  | titleChanged question title => { titles := [(question, title)] }
  | visibilityChanged question visible => { visibility := [(question, visible)] }

end Event

/-- An operation under way: the model, and the report and the calls so far. -/
structure Progress where
  model : Model
  report : Report := {}
  calls : List (Nat × Event) := []

namespace Progress

/-- Makes a change to the question at a place, reports it, and calls every listener with it. -/
def make (progress : Progress) (place : Nat) (question : Question) (event : Event) : Progress where
  model := { progress.model with
    questions := progress.model.questions.set place (event.applyTo question) }
  report := progress.report ++ event.report
  calls := progress.calls ++ progress.model.listeners.map fun listener => (listener, event)

/-- The environment that an evaluation has left, and what it adds to the report. -/
def evaluated (progress : Progress) (env : Environment) (failures : List Failure) : Progress :=
  { progress with
    model := { progress.model with environment := env }
    report := progress.report ++ { failures := failures } }

/-- Renders the title at a place. -/
def titleAt (progress : Progress) (place : Nat) : Progress :=
  match progress.model.questions[place]? with
  | none => progress
  | some question =>
    let rendered := question.title.render progress.model.environment
      progress.model.options.placeholderFallback
    if rendered = question.rendered then progress
    else progress.make place question (.titleChanged question.name rendered)

/-- Evaluates the condition at a place. -/
def visibilityAt (progress : Progress) (place : Nat) : Progress :=
  match progress.model.questions[place]? with
  | none => progress
  | some question =>
    match question.condition with
    | none => progress
    | some condition =>
      match condition.evaluate progress.model.environment with
      | (.error error, env) => progress.evaluated env [⟨question.name, error⟩]
      | (.ok value, env) =>
        if value.isTruthy = question.visible then progress.evaluated env []
        else (progress.evaluated env []).make place question
          (.visibilityChanged question.name value.isTruthy)

/-- Takes some titles in turn, and then some conditions. -/
def refresh (model : Model) (titles visibility : List Nat) : Progress :=
  visibility.foldl visibilityAt (titles.foldl titleAt { model := model })

/-! ## What a step does -/

variable (progress : Progress) (place : Nat)

theorem titleAt_cases : progress.titleAt place = progress ∨
    ∃ question title, progress.model.questions[place]? = some question ∧
      progress.titleAt place =
        progress.make place question (.titleChanged question.name title) := by
  unfold titleAt
  split
  · exact Or.inl rfl
  · next question hquestion =>
    dsimp only
    split
    · exact Or.inl rfl
    · exact Or.inr ⟨question, _, hquestion, rfl⟩

theorem evaluated_nil (env : Environment) : progress.evaluated env [] =
    { progress with model := { progress.model with environment := env } } := by
  unfold evaluated
  congr 1
  exact progress.report.append_nil

theorem visibilityAt_cases : ∃ env failures,
    progress.visibilityAt place = progress.evaluated env failures ∨
    ∃ question visible, progress.model.questions[place]? = some question ∧
      progress.visibilityAt place = (progress.evaluated env failures).make place question
        (.visibilityChanged question.name visible) := by
  have hnothing : ∃ env failures, progress = progress.evaluated env failures :=
    ⟨progress.model.environment, [], (progress.evaluated_nil _).symm⟩
  unfold visibilityAt
  split
  · exact hnothing.imp fun _ => Exists.imp fun _ => Or.inl
  · next question hquestion =>
    split
    · exact hnothing.imp fun _ => Exists.imp fun _ => Or.inl
    · split
      · exact ⟨_, _, Or.inl rfl⟩
      · split
        · exact ⟨_, _, Or.inl rfl⟩
        · exact ⟨_, _, Or.inr ⟨question, _, hquestion, rfl⟩⟩

/-! ## State and report -/

/-- What is left of an operation under way without the calls. -/
def withoutCalls (progress : Progress) : Model × Report := (progress.model, progress.report)

theorem set_of_getElem? {questions : List Question} {place : Nat} {question : Question}
    (h : questions[place]? = some question) : questions.set place question = questions := by
  obtain ⟨hplace, rfl⟩ := List.getElem?_eq_some_iff.mp h
  exact List.set_getElem_self hplace

theorem withoutCalls_titleAt : (progress.titleAt place).withoutCalls =
    Model.refreshTitleAt progress.withoutCalls place := by
  unfold titleAt Model.refreshTitleAt Question.refreshAt withoutCalls
  dsimp only
  cases hquestion : progress.model.questions[place]? with
  | none => rfl
  | some question =>
      unfold Question.refreshTitle
      dsimp only
      by_cases hsame : question.title.render progress.model.environment
          progress.model.options.placeholderFallback = question.rendered
      · rw [if_pos hsame, if_pos hsame, set_of_getElem? hquestion, Report.append_nil]
      · rw [if_neg hsame, if_neg hsame]
        rfl

theorem withoutCalls_visibilityAt : (progress.visibilityAt place).withoutCalls =
    Model.refreshVisibilityAt progress.withoutCalls place := by
  unfold visibilityAt Model.refreshVisibilityAt Question.refreshAt withoutCalls
  dsimp only
  cases hquestion : progress.model.questions[place]? with
  | none => rfl
  | some question =>
      dsimp only
      rw [Option.map_some, Option.getD_some]
      unfold Question.refreshVisibility Question.environmentAfter
      obtain ⟨name, index, title, condition, rendered, visible⟩ := question
      cases condition with
      | none =>
          dsimp only
          rw [set_of_getElem? hquestion, Report.append_nil]
      | some condition =>
          dsimp only
          rcases condition.evaluate progress.model.environment with ⟨error | value, env⟩
          · dsimp only
            rw [set_of_getElem? hquestion]
            rfl
          · dsimp only
            rw [evaluated_nil]
            -- where the visibility stays, the other loop writes what is there anyway
            by_cases hsame : value.isTruthy = visible
            · rw [if_pos hsame, if_pos hsame, set_of_getElem? hquestion, Report.append_nil]
            · rw [if_neg hsame, if_neg hsame]
              rfl

theorem withoutCalls_refresh (model : Model) (titles visibility : List Nat) :
    (refresh model titles visibility).withoutCalls = model.refreshInTurn titles visibility := by
  unfold refresh Model.refreshInTurn
  rw [← List.foldl_hom withoutCalls fun progress place =>
      (withoutCalls_visibilityAt progress place).symm,
    ← List.foldl_hom withoutCalls fun progress place =>
      (withoutCalls_titleAt progress place).symm]
  rfl

/-! ## The calls -/

/-- What is reported next is told next, unless it is a title after a visibility. -/
theorem events_append (report : Report) {event : Event}
    (horder : report.visibility = [] ∨ event.report.titles = []) :
    (report ++ event.report).events = report.events ++ [event] := by
  unfold Report.events
  cases event with
  | titleChanged question title =>
      have hnone : report.visibility = [] := horder.resolve_right (by simp [Event.report])
      simp [Event.report, hnone]
  | visibilityChanged question visible => simp [Event.report]

/-- The calls of an operation under way are those of the report so far. -/
structure Told (listeners : List Nat) (progress : Progress) : Prop where
  listeners : progress.model.listeners = listeners
  calls : progress.calls = progress.model.notifications progress.report

variable {listeners : List Nat} {progress : Progress}

theorem Told.make (h : progress.Told listeners) (place : Nat) (question : Question) {event : Event}
    (horder : progress.report.visibility = [] ∨ event.report.titles = []) :
    (progress.make place question event).Told listeners where
  listeners := h.listeners
  calls := by
    simp only [Progress.make, Model.notifications, events_append _ horder, List.flatMap_append,
      List.flatMap_cons, List.flatMap_nil, List.append_nil]
    rw [h.calls]
    rfl

theorem Told.evaluated (h : progress.Told listeners) (env : Environment)
    (failures : List Failure) : (progress.evaluated env failures).Told listeners where
  listeners := h.listeners
  calls := by
    have hevents : (progress.report ++ { failures := failures }).events =
        progress.report.events := by
      simp [Report.events]
    simp only [Progress.evaluated, Model.notifications, hevents]
    exact h.calls

theorem Told.titleAt (h : progress.Told listeners) (hvisibility : progress.report.visibility = [])
    (place : Nat) : (progress.titleAt place).Told listeners ∧
      (progress.titleAt place).report.visibility = [] := by
  rcases progress.titleAt_cases place with heq | ⟨question, title, -, heq⟩
  · rw [heq]
    exact ⟨h, hvisibility⟩
  · rw [heq]
    exact ⟨h.make place question (Or.inl hvisibility), by
      simp [Progress.make, Event.report, hvisibility]⟩

theorem Told.visibilityAt (h : progress.Told listeners) (place : Nat) :
    (progress.visibilityAt place).Told listeners := by
  obtain ⟨env, failures, heq | ⟨question, visible, -, heq⟩⟩ := progress.visibilityAt_cases place
  · rw [heq]
    exact h.evaluated env failures
  · rw [heq]
    exact (h.evaluated env failures).make place question (Or.inr rfl)

theorem told_refresh (model : Model) (titles visibility : List Nat) :
    (refresh model titles visibility).Told model.listeners := by
  have hstart : Told model.listeners { model := model } := ⟨rfl, rfl⟩
  have htitles := List.foldlRecOn titles titleAt
    (motive := fun progress => progress.Told model.listeners ∧ progress.report.visibility = [])
    ⟨hstart, rfl⟩ fun _ h place _ => h.1.titleAt h.2 place
  exact List.foldlRecOn visibility visibilityAt htitles.1 fun _ h place _ => h.visibilityAt place

end Progress

/-! ## Operations -/

/-- An operation that tells the listeners of each change at once. -/
def Operation.perform (operation : Operation) (model : Model) : Progress :=
  match operation with
  | update path value =>
    .refresh { model with environment := model.environment.set path value }
      (model.dependents.ofTitle path) (model.dependents.ofVisibility path)
  | evaluateAll =>
    .refresh model (List.range model.questions.length) (List.range model.questions.length)
  | subscribe => { model := model.subscribe.1 }
  | unsubscribe listener => { model := (model.unsubscribe listener).1 }

namespace Model

/-- **The calls are those of the report**, made to the listeners that there are. -/
theorem Reachable.perform_eq {model : Model} (h : model.Reachable) (operation : Operation) :
    operation.perform model = ⟨operation.apply model, operation.report model,
      model.notifications (operation.report model)⟩ := by
  have hrefresh : ∀ {start : Model} {titles visibility : List Nat} {after : Model × Report},
      start.listeners = model.listeners → start.refreshInTurn titles visibility = after →
      Progress.refresh start titles visibility =
        ⟨after.1, after.2, model.notifications after.2⟩ := by
    intro start titles visibility after hlisteners hafter
    -- the loops neither add nor remove a listener
    obtain ⟨hkept, hcalls⟩ := Progress.told_refresh start titles visibility
    rw [← Progress.withoutCalls_refresh] at hafter
    subst hafter
    rw [hlisteners] at hkept
    unfold Model.notifications at hcalls ⊢
    rw [hkept] at hcalls
    rw [Progress.withoutCalls]
    dsimp only
    rw [← hcalls]
  cases operation with
  | update path value => exact hrefresh rfl (h.update_eq_inTurn path value).symm
  | evaluateAll => exact hrefresh rfl h.evaluateAll_eq_inTurn.symm
  | subscribe => rfl
  | unsubscribe listener => rfl

end Model

end SurveyLogic

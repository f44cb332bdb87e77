import SurveyLogic.Proofs.Confinement
import SurveyLogic.Proofs.Survey.Runs

/-!
# Incremental refreshing is as good as refreshing everything

An update refreshes only the questions found through the dependents.  `Model.run_fresh` says that
nothing is lost by it: in every state of every run each title is what rendering it from scratch
would give, and each condition that has been reached and has a value has decided the visibility.

The invariant is `Question.Fresh`, about one question, the current answers and the operations so
far.  One step keeps it (`Question.Fresh.refreshed`), because a question that is not due reads
nothing that was written, by confinement, and one that is due is looked at anew.  A condition that
fails leaves the visibility behind; that is no harm, since freshness speaks of the visibility only
where the condition has a value now, and whether it has one changes only when it is looked at.
-/

namespace SurveyLogic

open Environment

/-! ## Reaching a condition -/

/-- Whether an operation makes a condition be looked at. -/
def Operation.Reaches (condition : Compiled) : Operation → Prop
  | update path _ => Text.root path ∈ condition.roots
  | evaluateAll => True
  | subscribe | unsubscribe _ => False

/-- A condition has been looked at: when the survey was loaded, because it reads no names, or by
one of the operations since. -/
def Reached (condition : Compiled) (past : List Operation) : Prop :=
  condition.roots = [] ∨ ∃ operation ∈ past, operation.Reaches condition

theorem reached_append_singleton {condition : Compiled} {past : List Operation}
    {operation : Operation} :
    Reached condition (past ++ [operation]) ↔
      Reached condition past ∨ operation.Reaches condition := by
  simp only [Reached, List.mem_append, List.mem_singleton, or_and_right, exists_or,
    exists_eq_left, or_assoc]

/-! ## The invariant of one question -/

namespace Question

/-- A question is up to date with the answers, given the operations that led to them. -/
structure Fresh (question : Question) (env : Environment) (fallback : Fallback)
    (past : List Operation) : Prop where
  title : question.rendered = question.title.render env fallback
  unconditional : question.condition = none → question.visible = true
  decided : ∀ condition, question.condition = some condition → Reached condition past →
    ∀ value, (condition.evaluate env).1 = .ok value → question.visible = value.isTruthy
  unreached : ∀ condition, question.condition = some condition → ¬ Reached condition past →
    question.visible = false

theorem visibleAfter_of_ok {question : Question} {condition : Compiled} {env : Environment}
    {value : Value} (hcondition : question.condition = some condition)
    (hvalue : (condition.evaluate env).1 = .ok value) :
    question.visibleAfter env = value.isTruthy := by
  simp [visibleAfter, hcondition, hvalue]

theorem visibleAfter_of_none {question : Question} (hcondition : question.condition = none)
    (env : Environment) : question.visibleAfter env = question.visible := by
  simp [visibleAfter, hcondition]

theorem conditionRoots_eq {question : Question} {condition : Compiled}
    (hcondition : question.condition = some condition) :
    Dependents.conditionRoots question = condition.roots := by
  simp [Dependents.conditionRoots, hcondition]

variable {question : Question} {env after : Environment} {fallback : Fallback}
  {past : List Operation} {operation : Operation} {titles visibility : List Nat}

/-- A step keeps a question fresh if it refreshes the title unless what the title reads is as it
was, and the condition exactly when the step reaches it, which it does unless what the condition
reads is as it was. -/
theorem Fresh.refreshed (h : question.Fresh env fallback past)
    (htitle : question.index ∈ titles ∨ AgreeOn question.title.roots after env)
    (hreaches : ∀ condition, question.condition = some condition →
      (question.index ∈ visibility ↔ operation.Reaches condition))
    (hcondition : ∀ condition, question.condition = some condition →
      question.index ∈ visibility ∨ AgreeOn condition.roots after env) :
    (question.refreshed after fallback titles visibility).Fresh after fallback
      (past ++ [operation]) := by
  refine ⟨?_, ?_, ?_, ?_⟩
  · -- the title was rendered just now, or would be rendered as before
    unfold Question.refreshed
    dsimp only
    split
    · rfl
    · next hdue =>
        rw [h.title]
        exact (Title.render_congr (htitle.resolve_left hdue) fallback).symm
  · intro hnone
    replace hnone : question.condition = none := hnone
    have hlook := visibleAfter_of_none hnone after
    simp [Question.refreshed, hlook, h.unconditional hnone]
  · intro condition hsome hreached value hvalue
    by_cases hdue : question.index ∈ visibility
    · simp only [Question.refreshed, if_pos hdue]
      exact visibleAfter_of_ok hsome hvalue
    · -- the condition was reached before, and had the value it has now
      simp only [Question.refreshed, if_neg hdue]
      have hnot : ¬ operation.Reaches condition := fun hop => hdue ((hreaches _ hsome).mpr hop)
      have hbefore : Reached condition past :=
        (reached_append_singleton.mp hreached).resolve_right hnot
      have hagree := (hcondition _ hsome).resolve_left hdue
      have hsame : (condition.evaluate env).1 = (condition.evaluate after).1 :=
        Expr.outcome_eval_congr hagree.symm
      exact h.decided condition hsome hbefore value (hsame.trans hvalue)
  · intro condition hsome hunreached
    rw [reached_append_singleton, not_or] at hunreached
    have hdue : question.index ∉ visibility :=
      fun hmem => hunreached.2 ((hreaches _ hsome).mp hmem)
    simp only [Question.refreshed, if_neg hdue]
    exact h.unreached condition hsome hunreached.1

/-- A step that refreshes nothing and writes nothing keeps a question fresh. -/
theorem Fresh.idle (h : question.Fresh env fallback past)
    (hidle : ∀ condition, ¬ operation.Reaches condition) :
    question.Fresh env fallback (past ++ [operation]) := by
  have hsame : ∀ condition, Reached condition (past ++ [operation]) ↔ Reached condition past := by
    intro condition
    rw [reached_append_singleton, or_iff_left (hidle condition)]
  exact ⟨h.title, h.unconditional,
    fun condition hsome hreached => h.decided condition hsome ((hsame condition).mp hreached),
    fun condition hsome hnot => h.unreached condition hsome fun hr =>
      hnot ((hsame condition).mpr hr)⟩

end Question

/-! ## The invariant of a model -/

namespace Model

/-- Every question is up to date with the answers. -/
def Fresh (model : Model) (past : List Operation) : Prop :=
  ∀ question ∈ model.questions,
    question.Fresh model.environment model.options.placeholderFallback past

variable {model : Model} {past : List Operation}

theorem Fresh.update (h : model.Fresh past) (hconsistent : model.Consistent) (path : String)
    (value : Value) :
    (model.update path value).1.Fresh (past ++ [.update path value]) := by
  intro changed hchanged
  unfold Model.update at hchanged
  rw [refresh_questions] at hchanged
  obtain ⟨question, hquestion, rfl⟩ := List.mem_map.mp hchanged
  refine (h question hquestion).refreshed ?_ ?_ ?_
  · rw [hconsistent.index_mem_ofTitle hquestion]
    exact (Classical.em _).imp_right fun hroot => agreeOn_set hroot value _
  · intro condition hsome
    rw [hconsistent.index_mem_ofVisibility hquestion, Question.conditionRoots_eq hsome]
    rfl
  · intro condition hsome
    rw [hconsistent.index_mem_ofVisibility hquestion, Question.conditionRoots_eq hsome]
    exact (Classical.em _).imp_right fun hroot => agreeOn_set hroot value _

theorem Fresh.evaluateAll (h : model.Fresh past) :
    model.evaluateAll.1.Fresh (past ++ [.evaluateAll]) := by
  intro changed hchanged
  unfold Model.evaluateAll at hchanged
  rw [refresh_questions] at hchanged
  obtain ⟨question, hquestion, rfl⟩ := List.mem_map.mp hchanged
  have hdue : question.index ∈ model.questions.map (·.index) := List.mem_map_of_mem hquestion
  refine (h question hquestion).refreshed (Or.inl hdue) ?_ fun _ _ => Or.inl hdue
  intro condition _
  exact iff_of_true hdue trivial

theorem Fresh.apply (h : model.Fresh past) (hconsistent : model.Consistent)
    (operation : Operation) : (operation.apply model).Fresh (past ++ [operation]) := by
  cases operation with
  | update path value => exact h.update hconsistent path value
  | evaluateAll => exact h.evaluateAll
  | subscribe => exact fun question hquestion => (h question hquestion).idle fun _ => id
  | unsubscribe listener => exact fun question hquestion => (h question hquestion).idle fun _ => id

theorem Fresh.run (h : model.Fresh past) (hconsistent : model.Consistent)
    (operations : List Operation) : (model.run operations).Fresh (past ++ operations) := by
  induction operations generalizing model past with
  | nil => simpa using h
  | cons operation operations ih =>
      have hnext := ih (h.apply hconsistent operation) (hconsistent.apply operation)
      simpa using hnext

/-! ## The state after loading -/

theorem index_mem_constantConditions {questions : List Question}
    (hnodup : (questions.map (·.index)).Nodup) {question : Question}
    (hquestion : question ∈ questions) :
    question.index ∈ constantConditions questions ↔
      ∃ condition, question.condition = some condition ∧ condition.roots = [] := by
  unfold constantConditions
  rw [List.mem_map]
  constructor
  · rintro ⟨other, hother, hindex⟩
    obtain ⟨hmem, hconstant⟩ := List.mem_filter.mp hother
    obtain rfl := List.inj_on_of_nodup_map hnodup hmem hquestion hindex
    cases hcondition : other.condition with
    | none => simp [hcondition] at hconstant
    | some condition => exact ⟨condition, rfl, by simpa [hcondition] using hconstant⟩
  · rintro ⟨condition, hcondition, hroots⟩
    exact ⟨question, List.mem_filter.mpr ⟨hquestion, by simp [hcondition, hroots]⟩, rfl⟩

theorem questions_of_load {definition : Definition} (h : load definition = .ok model) :
    ∃ questions, loadQuestions definition.options 0 [] .empty definition.questions = .ok questions ∧
      model.questions = questions.map (Question.refreshed .empty
        definition.options.placeholderFallback [] (constantConditions questions)) ∧
      model.dependents = .ofQuestions questions ∧ model.environment = .empty ∧
      model.options = definition.options := by
  obtain ⟨questions, hquestions, rfl⟩ := load_spec h
  refine ⟨questions, hquestions, ?_, rfl, rfl, rfl⟩
  dsimp only
  rw [Question.refreshDue_fst]
  refine List.map_congr_left fun question _ => ?_
  rw [Question.refreshIfDue_refreshVisibility_fst]
  simp [Question.refreshed]

theorem consistent_of_load {definition : Definition} (h : load definition = .ok model) :
    model.Consistent := by
  obtain ⟨questions, hquestions, hmodel, hdependents, -⟩ := questions_of_load h
  obtain ⟨-, -, hindices⟩ := loadQuestions_spec hquestions
  constructor
  · rw [hmodel, List.map_map]
    exact hindices ▸ List.nodup_range'
  · rw [hdependents, hmodel, Dependents.ofQuestions_map_refreshed]

theorem defines_of_load {definition : Definition} (h : load definition = .ok model) :
    List.Forall₂ Question.Defines definition.questions model.questions := by
  obtain ⟨questions, hquestions, hmodel, -⟩ := questions_of_load h
  obtain ⟨hdefines, -⟩ := loadQuestions_spec hquestions
  rw [hmodel, List.forall₂_map_right_iff]
  exact hdefines.imp fun _ _ hdefines => ⟨hdefines.name, hdefines.title, hdefines.condition⟩

theorem fresh_of_load {definition : Definition} (h : load definition = .ok model) :
    model.Fresh [] := by
  obtain ⟨questions, hquestions, hmodel, -, henv, hoptions⟩ := questions_of_load h
  obtain ⟨-, hinitial, hindices⟩ := loadQuestions_spec hquestions
  intro decided hdecided
  rw [hmodel] at hdecided
  obtain ⟨question, hquestion, rfl⟩ := List.mem_map.mp hdecided
  obtain ⟨hrendered, hvisible⟩ := hinitial question hquestion
  have hconstant := index_mem_constantConditions (hindices ▸ List.nodup_range') hquestion
  rw [henv, hoptions]
  refine ⟨by simpa [Question.refreshed] using hrendered, ?_, ?_, ?_⟩
  · intro hnone
    replace hnone : question.condition = none := hnone
    have hlook := Question.visibleAfter_of_none hnone .empty
    simp [Question.refreshed, hlook, hvisible, hnone]
  · intro condition hsome hreached value hvalue
    -- only conditions without roots count as reached so far, and these were looked at
    have hroots : condition.roots = [] := by simpa [Reached] using hreached
    simp only [Question.refreshed, if_pos (hconstant.mpr ⟨condition, hsome, hroots⟩)]
    exact Question.visibleAfter_of_ok hsome hvalue
  · intro condition hsome hunreached
    replace hsome : question.condition = some condition := hsome
    have hdue : question.index ∉ constantConditions questions := by
      rw [hconstant]
      rintro ⟨other, hother, hroots⟩
      obtain rfl : condition = other := Option.some.inj (hsome.symm.trans hother)
      exact hunreached (Or.inl hroots)
    simp [Question.refreshed, hdue, hvisible, hsome]

/-! ## Nothing is left to refresh -/

end Model

namespace Question

variable {question : Question} {env : Environment} {fallback : Fallback} {past : List Operation}

theorem Fresh.refreshTitle_eq (h : question.Fresh env fallback past) :
    question.refreshTitle env fallback = (question, {}) := by
  unfold Question.refreshTitle
  simp [h.title]

/-- Looking at a reached condition again changes nothing; it may fail again. -/
theorem Fresh.refreshVisibility_eq (h : question.Fresh env fallback past)
    (hreached : ∀ condition, question.condition = some condition → Reached condition past) :
    ∃ failures, question.refreshVisibility env = (question, { failures := failures }) := by
  unfold Question.refreshVisibility
  cases hcondition : question.condition with
  | none => exact ⟨[], rfl⟩
  | some condition =>
      cases houtcome : (condition.evaluate env).1 with
      | error error => exact ⟨[⟨question.name, error⟩], by simp [houtcome]⟩
      | ok value =>
          have hvisible : question.visible = value.isTruthy :=
            h.decided condition hcondition (hreached condition hcondition) value houtcome
          exact ⟨[], by simp [houtcome, hvisible]⟩

/-- A walk that changes no question, and reports neither titles nor visibility, of any of them. -/
theorem refreshDue_idle (due : List Nat) {refresh : Question → Question × Report}
    {questions : List Question}
    (hidle : ∀ question ∈ questions,
      ∃ failures, refresh question = (question, { failures := failures })) :
    (refreshDue due refresh questions).1 = questions ∧
      (refreshDue due refresh questions).2.titles = [] ∧
      (refreshDue due refresh questions).2.visibility = [] := by
  have hstep : ∀ question ∈ questions, ∃ failures,
      refreshIfDue due refresh question = (question, { failures := failures }) := by
    intro question hquestion
    unfold refreshIfDue
    split
    · exact hidle question hquestion
    · exact ⟨[], rfl⟩
  refine ⟨?_, ?_, ?_⟩
  · rw [refreshDue_fst]
    refine (List.map_congr_left fun question hquestion => ?_).trans (List.map_id _)
    obtain ⟨failures, hfailures⟩ := hstep question hquestion
    rw [hfailures]
    rfl
  · rw [refreshDue_titles, List.flatMap_eq_nil_iff]
    intro question hquestion
    obtain ⟨failures, hfailures⟩ := hstep question hquestion
    rw [hfailures]
  · rw [refreshDue_visibility, List.flatMap_eq_nil_iff]
    intro question hquestion
    obtain ⟨failures, hfailures⟩ := hstep question hquestion
    rw [hfailures]

end Question

namespace Model

/-- Where every condition has been reached, refreshing everything changes nothing. -/
theorem Fresh.evaluateAll_eq {model : Model} {past : List Operation} (h : model.Fresh past)
    (hreached : ∀ question ∈ model.questions, ∀ condition,
      question.condition = some condition → Reached condition past) :
    model.evaluateAll.1.questions = model.questions ∧ model.evaluateAll.2.titles = [] ∧
      model.evaluateAll.2.visibility = [] := by
  obtain ⟨htitled, htitles₁, hvisibility₁⟩ := Question.refreshDue_idle
    (model.questions.map (·.index)) fun question hquestion =>
      ⟨[], (h question hquestion).refreshTitle_eq⟩
  obtain ⟨hshown, htitles₂, hvisibility₂⟩ := Question.refreshDue_idle
    (model.questions.map (·.index)) fun question hquestion =>
      (h question hquestion).refreshVisibility_eq (hreached question hquestion)
  unfold Model.evaluateAll Model.refresh
  dsimp only
  rw [htitled, hshown]
  refine ⟨rfl, ?_, ?_⟩
  · exact List.append_eq_nil_iff.mpr ⟨htitles₁, htitles₂⟩
  · exact List.append_eq_nil_iff.mpr ⟨hvisibility₁, hvisibility₂⟩

/-! ## Every state of every run -/

/-- **Refreshing what depends on an answer is as good as refreshing everything.**  After any
operations on a loaded survey, the environment holds their answers, the questions are those of the
definition, and each of them is up to date.  Once every condition has been reached, refreshing
everything changes neither a title nor a visibility. -/
theorem run_fresh {definition : Definition} {model : Model} (hload : load definition = .ok model)
    (operations : List Operation) :
    (model.run operations).environment = answers operations ∧
    List.Forall₂ Question.Defines definition.questions (model.run operations).questions ∧
    (∀ question ∈ (model.run operations).questions,
      question.Fresh (answers operations) definition.options.placeholderFallback operations) ∧
    ((∀ question ∈ (model.run operations).questions, ∀ condition,
        question.condition = some condition → Reached condition operations) →
      (model.run operations).evaluateAll.1.questions = (model.run operations).questions ∧
      (model.run operations).evaluateAll.2.titles = [] ∧
      (model.run operations).evaluateAll.2.visibility = []) := by
  obtain ⟨questions, -, -, -, henv, hoptions⟩ := questions_of_load hload
  have henvironment : (model.run operations).environment = answers operations := by
    rw [run_environment_from, henv]
    rfl
  have hfresh : (model.run operations).Fresh operations := by
    simpa using (fresh_of_load hload).run (consistent_of_load hload) operations
  refine ⟨henvironment, forall₂_defines_run (defines_of_load hload) operations, ?_,
    hfresh.evaluateAll_eq⟩
  intro question hquestion
  have hquestionFresh := hfresh question hquestion
  rwa [henvironment, run_options, hoptions] at hquestionFresh

/-- Two questions, the second of them conditional and with a placeholder. -/
def colorSurvey : Definition where
  questions := [
    { name := "liked", title := "Do you like colors?" },
    { name := "why", title := "Why {{color}}?", visibleWhen := some "liked.answer = 'yes'" }]

/-- The first answer hides the second question, the last one changes its title only. -/
def colorRun : List Operation :=
  [.update "liked.answer" (.text "no"), .evaluateAll, .update "color" (.text "red")]

theorem run_fresh_colorSurvey : ∃ model, load colorSurvey = .ok model ∧
    (∀ question ∈ (model.run colorRun).questions,
      question.Fresh (answers colorRun) .empty colorRun) ∧
    (model.run colorRun).evaluateAll.1.questions = (model.run colorRun).questions := by
  have hok : (load colorSurvey).isOk = true := by decide +kernel
  cases hload : load colorSurvey with
  | error error => simp [hload, Except.isOk, Except.toBool] at hok
  | ok model =>
      obtain ⟨-, -, hfresh, hall⟩ := run_fresh hload colorRun
      refine ⟨model, rfl, hfresh, (hall ?_).1⟩
      intro _ _ condition _
      exact Or.inr ⟨.evaluateAll, by simp [colorRun], trivial⟩

end Model

end SurveyLogic

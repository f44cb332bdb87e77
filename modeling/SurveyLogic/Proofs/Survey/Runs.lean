import Mathlib.Data.List.Forall2
import Mathlib.Data.List.Nodup
import SurveyLogic.Proofs.Survey.Dependents

/-!
# Loaded surveys and their runs

A run is a list of operations applied to a loaded model, one after the other.  Three things hold in
every state of a run:

* the environment holds what was written and nothing else (`run_environment_from`);
* the questions are those of the definition, in its order (`forall₂_defines_run`);
* the state is `Consistent`, which every operation keeps (`Consistent.apply`): no two questions share
  an index, and the dependents are those of the questions.  So a question is due after an update
  exactly when it reads the root of the path (`Consistent.index_mem_ofTitle`,
  `Consistent.index_mem_ofVisibility`).
-/

namespace SurveyLogic

/-- What can be done with a loaded survey. -/
inductive Operation
  | update (path : String) (value : Value)
  | evaluateAll
  | subscribe
  | unsubscribe (listener : Nat)

namespace Operation

/-- The model after an operation. -/
def apply (operation : Operation) (model : Model) : Model :=
  match operation with
  | update path value => (model.update path value).1
  | evaluateAll => model.evaluateAll.1
  | subscribe => model.subscribe.1
  | unsubscribe listener => (model.unsubscribe listener).1

/-- What an operation writes. -/
def write (operation : Operation) (env : Environment) : Environment :=
  match operation with
  | update path value => env.set path value
  | evaluateAll | subscribe | unsubscribe _ => env

end Operation

/-- The answers that some operations leave in the empty environment. -/
def answers (operations : List Operation) : Environment :=
  operations.foldl (fun env operation => operation.write env) .empty

/-- The state after a run. -/
def Model.run (model : Model) (operations : List Operation) : Model :=
  operations.foldl (fun model operation => operation.apply model) model

@[simp] theorem Model.run_nil (model : Model) : model.run [] = model := rfl

@[simp] theorem Model.run_cons (model : Model) (operation : Operation)
    (operations : List Operation) :
    model.run (operation :: operations) = (operation.apply model).run operations := rfl

@[simp] theorem Model.run_append_singleton (model : Model) (operations : List Operation)
    (operation : Operation) :
    model.run (operations ++ [operation]) = operation.apply (model.run operations) := by
  simp [run]

@[simp] theorem answers_append_singleton (operations : List Operation) (operation : Operation) :
    answers (operations ++ [operation]) = operation.write (answers operations) := by
  simp [answers]

/-! ## Consistent states -/

/-- Each question has an index of its own, and the dependents are those of the questions. -/
structure Model.Consistent (model : Model) : Prop where
  nodup : (model.questions.map (·.index)).Nodup
  dependents : model.dependents = .ofQuestions model.questions

namespace Model

variable {model : Model}

/-- Of several questions with one index, there is only one. -/
theorem Consistent.eq_of_index_eq (h : model.Consistent) {a b : Question}
    (ha : a ∈ model.questions) (hb : b ∈ model.questions) (hindex : a.index = b.index) : a = b :=
  List.inj_on_of_nodup_map h.nodup ha hb hindex

theorem Consistent.index_mem_ofTitle (h : model.Consistent) {question : Question}
    (hquestion : question ∈ model.questions) (path : String) :
    question.index ∈ model.dependents.ofTitle path ↔
      Text.root path ∈ question.title.roots := by
  rw [h.dependents, Dependents.mem_ofTitle]
  constructor
  · rintro ⟨other, hother, hindex, hroot⟩
    rwa [h.eq_of_index_eq hother hquestion hindex] at hroot
  · intro hroot
    exact ⟨question, hquestion, rfl, hroot⟩

theorem Consistent.index_mem_ofVisibility (h : model.Consistent) {question : Question}
    (hquestion : question ∈ model.questions) (path : String) :
    question.index ∈ model.dependents.ofVisibility path ↔
      Text.root path ∈ Dependents.conditionRoots question := by
  rw [h.dependents, Dependents.mem_ofVisibility]
  constructor
  · rintro ⟨other, hother, hindex, hroot⟩
    rwa [h.eq_of_index_eq hother hquestion hindex] at hroot
  · intro hroot
    exact ⟨question, hquestion, rfl, hroot⟩

/-- Refreshing keeps a state consistent, since it changes neither indices nor what is read. -/
theorem Consistent.refresh (h : model.Consistent) (titles visibility : List Nat) :
    (model.refresh titles visibility).1.Consistent := by
  constructor
  · rw [refresh_questions, List.map_map]
    exact h.nodup
  · rw [refresh_dependents, refresh_questions, Dependents.ofQuestions_map_refreshed]
    exact h.dependents

theorem Consistent.apply (h : model.Consistent) (operation : Operation) :
    (operation.apply model).Consistent := by
  cases operation with
  | update path value =>
      have hwritten : ({ model with environment := model.environment.set path value } :
          Model).Consistent := ⟨h.nodup, h.dependents⟩
      exact hwritten.refresh _ _
  | evaluateAll => exact h.refresh _ _
  | subscribe => exact ⟨h.nodup, h.dependents⟩
  | unsubscribe listener => exact ⟨h.nodup, h.dependents⟩

/-! ## Options and answers -/

theorem apply_options (operation : Operation) (model : Model) :
    (operation.apply model).options = model.options := by
  cases operation <;> rfl

theorem run_options (model : Model) (operations : List Operation) :
    (model.run operations).options = model.options := by
  induction operations generalizing model with
  | nil => rfl
  | cons operation operations ih => exact (ih _).trans (apply_options operation model)

theorem apply_environment (operation : Operation) (model : Model) :
    (operation.apply model).environment = operation.write model.environment := by
  cases operation <;> rfl

theorem run_environment_from (model : Model) (operations : List Operation) :
    (model.run operations).environment =
      operations.foldl (fun env operation => operation.write env) model.environment := by
  induction operations generalizing model with
  | nil => rfl
  | cons operation operations ih =>
      rw [List.foldl_cons, ← apply_environment]
      exact ih _

end Model

/-! ## The questions of a definition -/

namespace QuestionDefinition

variable {definition : QuestionDefinition} {source : String} {condition : Option Compiled}

/-- The condition that a definition asks for: its text without the blanks around it, where anything
is left of it. -/
def Asks (definition : QuestionDefinition) (source : String) : Prop :=
  ∃ text, definition.visibleWhen = some text ∧ Text.trim text = source ∧ source ≠ ""

theorem Asks.unique {other : String} (h : definition.Asks source) (h' : definition.Asks other) :
    source = other := by
  obtain ⟨text, htext, htrim, -⟩ := h
  obtain ⟨text', htext', htrim', -⟩ := h'
  obtain rfl := Option.some.inj (htext.symm.trans htext')
  exact htrim.symm.trans htrim'

theorem condition?_eq_some_iff : definition.condition? = some source ↔ definition.Asks source := by
  unfold condition? Asks
  rw [Option.filter_eq_some_iff, Option.map_eq_some_iff, decide_eq_true_iff]
  constructor
  · rintro ⟨⟨text, htext, htrim⟩, hsource⟩
    exact ⟨text, htext, htrim, hsource⟩
  · rintro ⟨text, htext, htrim, hsource⟩
    exact ⟨⟨text, htext, htrim⟩, hsource⟩

theorem condition?_eq_none_iff :
    definition.condition? = none ↔ ∀ source, ¬ definition.Asks source := by
  simp only [Option.eq_none_iff_forall_ne_some, Ne, condition?_eq_some_iff]

/-- The compiled condition that a definition gives to its question. -/
inductive Gives (definition : QuestionDefinition) : Option Compiled → Prop
  | nothing : (∀ source, ¬ definition.Asks source) → Gives definition none
  | compiled {source : String} {compiled : Compiled} : definition.Asks source →
    Compiled.condition source = .ok compiled → Gives definition (some compiled)

theorem Gives.unique {other : Option Compiled} (h : definition.Gives condition)
    (h' : definition.Gives other) : condition = other := by
  cases h with
  | nothing hnone =>
      cases h' with
      | nothing => rfl
      | compiled hasks => exact absurd hasks (hnone _)
  | compiled hasks hcompiled =>
      cases h' with
      | nothing hnone => exact absurd hasks (hnone _)
      | compiled hasks' hcompiled' =>
          obtain rfl := hasks.unique hasks'
          rw [Except.ok.inj (hcompiled.symm.trans hcompiled')]

/-- The text that a definition asks for compiles, if the definition gives its question anything. -/
theorem Gives.compiles (h : definition.Gives condition) (hasks : definition.Asks source) :
    ∃ compiled, Compiled.condition source = .ok compiled := by
  cases h with
  | nothing hnone => exact absurd hasks (hnone source)
  | compiled hasks' hcompiled => exact ⟨_, hasks.unique hasks' ▸ hcompiled⟩

end QuestionDefinition

/-- A question has the name, the title and the condition that its definition gives it. -/
structure Question.Defines (definition : QuestionDefinition) (question : Question) : Prop where
  name : question.name = definition.name
  title : question.title = .parse definition.title
  condition : definition.Gives question.condition

/-- The state of a question that has just been read from its definition. -/
structure Question.Initial (options : Options) (question : Question) : Prop where
  rendered : question.rendered = question.title.render .empty options.placeholderFallback
  visible : question.visible = question.condition.isNone

/-- A change of questions that keeps what loading fixed of them. -/
structure Question.Keeps (change : Question → Question) : Prop where
  name : ∀ question, (change question).name = question.name
  title : ∀ question, (change question).title = question.title
  condition : ∀ question, (change question).condition = question.condition

theorem Question.Defines.change {definition : QuestionDefinition} {question : Question}
    (h : Defines definition question) {change : Question → Question} (hkeeps : Keeps change) :
    Defines definition (change question) := by
  refine ⟨?_, ?_, ?_⟩
  · rw [hkeeps.name, h.name]
  · rw [hkeeps.title, h.title]
  · rw [hkeeps.condition]
    exact h.condition

namespace Model

theorem apply_questions (operation : Operation) (model : Model) :
    ∃ change, Question.Keeps change ∧
      (operation.apply model).questions = model.questions.map change := by
  have hrefresh : ∀ (model : Model) (titles visibility : List Nat),
      ∃ change, Question.Keeps change ∧
        (model.refresh titles visibility).1.questions = model.questions.map change := by
    intro model titles visibility
    refine ⟨_, ?_, model.refresh_questions titles visibility⟩
    exact ⟨fun _ => rfl, fun _ => rfl, fun _ => rfl⟩
  have hid : Question.Keeps id := ⟨fun _ => rfl, fun _ => rfl, fun _ => rfl⟩
  cases operation with
  | update path value => exact hrefresh _ _ _
  | evaluateAll => exact hrefresh _ _ _
  | subscribe => exact ⟨id, hid, (List.map_id _).symm⟩
  | unsubscribe listener => exact ⟨id, hid, (List.map_id _).symm⟩

theorem forall₂_defines_run {definitions : List QuestionDefinition} {model : Model}
    (h : List.Forall₂ Question.Defines definitions model.questions)
    (operations : List Operation) :
    List.Forall₂ Question.Defines definitions (model.run operations).questions := by
  induction operations generalizing model with
  | nil => exact h
  | cons operation operations ih =>
      obtain ⟨change, hkeeps, hquestions⟩ := apply_questions operation model
      refine ih ?_
      rw [hquestions, List.forall₂_map_right_iff]
      exact h.imp fun _ _ hdefines => hdefines.change hkeeps

/-! ## Loading -/

theorem compileCondition_spec {cache after : Cache} {definition : QuestionDefinition}
    {condition : Option Compiled}
    (h : compileCondition cache definition = .ok (condition, after)) :
    definition.Gives condition := by
  unfold compileCondition at h
  cases hsource : definition.condition? with
  | none =>
      obtain ⟨rfl, -⟩ := by simpa [hsource] using h
      exact .nothing (QuestionDefinition.condition?_eq_none_iff.mp hsource)
  | some source =>
      -- what the cache answers is what compiling gives
      have hcompile := cache.compile_fst source
      rcases hcached : cache.compile source with ⟨_ | compiled, rest⟩
      · simp [hsource, hcached] at h
      · obtain ⟨rfl, -⟩ := by simpa [hsource, hcached] using h
        rw [hcached] at hcompile
        exact .compiled (QuestionDefinition.condition?_eq_some_iff.mp hsource) hcompile.symm

theorem loadQuestions_spec {options : Options} {definitions : List QuestionDefinition} {index : Nat}
    {seen : List String} {cache : Cache} {questions : List Question}
    (h : loadQuestions options index seen cache definitions = .ok questions) :
    List.Forall₂ Question.Defines definitions questions ∧
      (∀ question ∈ questions, question.Initial options) ∧
      questions.map (·.index) = List.range' index questions.length := by
  induction definitions generalizing index seen cache questions with
  | nil =>
      obtain rfl : questions = [] := by simpa [loadQuestions] using h.symm
      exact ⟨.nil, by simp, rfl⟩
  | cons definition definitions ih =>
      unfold loadQuestions at h
      split at h
      · simp at h
      · obtain ⟨⟨condition, after⟩, hcondition, hmore⟩ := exists_of_bind_eq_ok h
        obtain ⟨rest, hrest, hok⟩ := exists_of_bind_eq_ok hmore
        obtain rfl := Except.ok.inj hok
        obtain ⟨hdefines, hinitial, hindices⟩ := ih hrest
        refine ⟨.cons ⟨rfl, rfl, compileCondition_spec hcondition⟩ hdefines, ?_, ?_⟩
        · intro question hquestion
          rcases List.mem_cons.mp hquestion with rfl | hquestion
          · exact ⟨rfl, rfl⟩
          · exact hinitial question hquestion
        · simp [hindices, List.range'_succ]

theorem load_spec {definition : Definition} {model : Model} (h : load definition = .ok model) :
    ∃ questions, loadQuestions definition.options 0 [] .empty definition.questions = .ok questions ∧
      model = {
        questions := (Question.refreshDue (constantConditions questions)
          (Question.refreshVisibility .empty) questions).1
        dependents := .ofQuestions questions
        environment := .empty
        options := definition.options
        listeners := []
        nextListener := 0 } := by
  obtain ⟨questions, hquestions, hok⟩ := exists_of_bind_eq_ok h
  exact ⟨questions, hquestions, (Except.ok.inj hok).symm⟩

end Model

end SurveyLogic

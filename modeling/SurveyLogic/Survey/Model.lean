import SurveyLogic.Survey.Dependents

/-!
# Survey models

A loaded survey together with the answers given so far.  An update writes one answer and refreshes
the questions that depend on it; every operation returns the model after it, and a report of what
changed.  Listeners are told of each change, title or visibility, in the order of the report.
-/

namespace SurveyLogic

/-- Why a definition is no survey. -/
inductive SurveyError
  | duplicateQuestion (name : String)
  | invalidCondition (question : String) (error : SyntaxError)
deriving DecidableEq

def SurveyError.message : SurveyError → String
  | .duplicateQuestion name => s!"Question '{name}' is defined more than once."
  | .invalidCondition question error =>
    s!"Visibility condition of question '{question}' is invalid: {error.message}"

/-- What a listener is told. -/
inductive Event
  | titleChanged (question title : String)
  | visibilityChanged (question : String) (visible : Bool)
deriving DecidableEq

namespace Event

def question : Event → String
  | titleChanged question _ => question
  | visibilityChanged question _ => question

def toText : Event → String
  | titleChanged question title => s!"{question}: title -> \"{title}\""
  | visibilityChanged question true => s!"{question}: shown"
  | visibilityChanged question false => s!"{question}: hidden"

end Event

/-- The changes of a report, titles first. -/
def Report.events (report : Report) : List Event :=
  report.titles.map (fun change => .titleChanged change.1 change.2) ++
    report.visibility.map fun change => .visibilityChanged change.1 change.2

structure Model where
  questions : List Question
  dependents : Dependents
  environment : Environment
  options : Options
  /-- The listeners in the order in which they subscribed. -/
  listeners : List Nat
  /-- The next listener's number. -/
  nextListener : Nat

namespace Model

/-! ## Loading -/

/-- The condition of a question, compiled. -/
def compileCondition (cache : Cache) (definition : QuestionDefinition) :
    Except SurveyError (Option Compiled × Cache) :=
  match definition.condition? with
  | none => .ok (none, cache)
  | some source =>
    match cache.compile source with
    | (.ok compiled, cache) => .ok (some compiled, cache)
    | (.error error, _) => .error (.invalidCondition definition.name error)

/-- The questions from the given index on, where `seen` are the names of those before.  Questions
without a condition are visible from the start. -/
def loadQuestions (options : Options) :
    (index : Nat) → (seen : List String) → Cache → List QuestionDefinition →
      Except SurveyError (List Question)
  | _, _, _, [] => .ok []
  | index, seen, cache, definition :: definitions =>
    -- a repeated name is noticed before the condition is looked at
    if definition.name ∈ seen then .error (.duplicateQuestion definition.name)
    else do
      let (condition, cache) ← compileCondition cache definition
      let title := Title.parse definition.title
      let questions ← loadQuestions options (index + 1) (definition.name :: seen) cache definitions
      return {
        name := definition.name
        index := index
        title := title
        condition := condition
        rendered := title.render .empty options.placeholderFallback
        visible := condition.isNone } :: questions

/-- The questions with a condition that reads no answer. -/
def constantConditions (questions : List Question) : List Nat :=
  (questions.filter fun question =>
    match question.condition with
    | some condition => condition.roots.isEmpty
    | none => false).map (·.index)

/-- Loads a survey.  Conditions that read no answer are decided here. -/
def load (definition : Definition) : Except SurveyError Model := do
  let questions ← loadQuestions definition.options 0 [] .empty definition.questions
  let decided :=
    Question.refreshDue (constantConditions questions) (Question.refreshVisibility .empty) questions
  return {
    questions := decided.1
    -- refreshing changes neither titles nor conditions, so the dependents stay as they are
    dependents := .ofQuestions questions
    environment := .empty
    options := definition.options
    listeners := []
    nextListener := 0 }

/-! ## Looking at a model -/

def question? (model : Model) (name : String) : Option Question :=
  model.questions.find? (·.name = name)

def visibleQuestions (model : Model) : List Question := model.questions.filter (·.visible)

/-! ## Changing a model -/

/-- Refreshes the given titles, then the given visibilities. -/
def refresh (model : Model) (titles visibility : List Nat) : Model × Report :=
  let titled := Question.refreshDue titles
    (Question.refreshTitle model.environment model.options.placeholderFallback) model.questions
  let shown := Question.refreshDue visibility
    (Question.refreshVisibility model.environment) titled.1
  ({ model with questions := shown.1 }, titled.2 ++ shown.2)

/-- Writes an answer and refreshes the questions that depend on it. -/
def update (model : Model) (path : String) (value : Value) : Model × Report :=
  refresh { model with environment := model.environment.set path value }
    (model.dependents.ofTitle path) (model.dependents.ofVisibility path)

/-- Refreshes all questions. -/
def evaluateAll (model : Model) : Model × Report :=
  let all := model.questions.map (·.index)
  model.refresh all all

/-! ## Listeners -/

/-- Adds a listener, under a number that none had before. -/
def subscribe (model : Model) : Model × Nat :=
  ({ model with
      listeners := model.listeners ++ [model.nextListener]
      nextListener := model.nextListener + 1 }, model.nextListener)

/-- Removes a listener; tells whether it was there. -/
def unsubscribe (model : Model) (listener : Nat) : Model × Bool :=
  ({ model with listeners := model.listeners.filter (· ≠ listener) },
    decide (listener ∈ model.listeners))

/-- The calls made for a report: every listener is told of the first change, then of the next. -/
def notifications (model : Model) (report : Report) : List (Nat × Event) :=
  report.events.flatMap fun event => model.listeners.map fun listener => (listener, event)

end Model

end SurveyLogic

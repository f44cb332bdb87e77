import SurveyLogic.Survey.Model
import SurveyLogic.Survey.Format

/-!
# Commands

What the two commands print.  `evaluate` gives names their values, then prints the value of an
expression, and for a binding also the environment after it.  `survey` loads a survey, gives the
answers one by one and prints what each changes, then all questions.
-/

namespace SurveyLogic

namespace Command

/-- How a command ends: what it printed, and the message of the error that ended it, if one did. -/
structure Outcome where
  output : String
  error? : Option String := none

/-- The exit code. -/
def Outcome.exitCode (outcome : Outcome) : Nat := if outcome.error?.isSome then 1 else 0

def line (text : String) : String := text ++ "\n"

def lines (texts : List String) : String := String.join (texts.map line)

/-! ## Assignments -/

/-- Why a text is no assignment. -/
inductive AssignmentError
  | noEqualsSign (text : String)
  | noName (text : String)

def AssignmentError.message : AssignmentError → String
  | .noEqualsSign text => s!"Expected NAME=VALUE, found '{text}'."
  | .noName text => s!"Missing name in '{text}'."

/-- The value that a text stands for: what it evaluates to without any answer, or else itself. -/
def valueOfText (text : String) : Value :=
  match Compiled.condition text with
  | .ok compiled =>
    match (compiled.evaluate .empty).1 with
    | .ok value => value
    | .error _ => .text text
  | .error _ => .text text

/-- The name and the value around the first `=`. -/
def splitAssignment (text : String) : Except AssignmentError (String × Value) :=
  match text.toList.dropWhile (· ≠ '=') with
  | [] => .error (.noEqualsSign text)
  | _ :: value =>
    let name := Text.trimChars (text.toList.takeWhile (· ≠ '='))
    if name = [] then .error (.noName text)
    else .ok (String.ofList name, valueOfText (String.ofList value))

/-- Makes all assignments in order. -/
def assignAll (env : Environment) : List String → Except AssignmentError Environment
  | [] => .ok env
  | text :: texts => do
    let (name, value) ← splitAssignment text
    assignAll (env.set name value) texts

/-! ## The commands -/

def assignmentText (name : String) (value : Value) : String := name ++ " = " ++ value.toText

/-- The bindings of an environment below an empty line; nothing for the empty environment. -/
def environmentText (env : Environment) : String :=
  match env.bindings with
  | [] => ""
  | bindings => line "" ++ lines (bindings.map fun entry => assignmentText entry.1 entry.2)

/-- Evaluates a condition or a binding. -/
def evaluate (assignments : List String) (isBinding : Bool) (source : String) : Outcome :=
  match assignAll .empty assignments with
  | .error error => ⟨"", some error.message⟩
  | .ok env =>
    match if isBinding then Compiled.binding source else Compiled.condition source with
    | .error error => ⟨"", some error.message⟩
    | .ok compiled =>
      match compiled.evaluate env with
      | (.error error, _) => ⟨"", some error.message⟩
      | (.ok value, after) =>
        ⟨line value.toText ++ if isBinding then environmentText after else "", none⟩

/-- What one answer prints: itself, then the changes as a listener hears of them, then the
conditions that failed. -/
def answerText (name : String) (value : Value) (report : Report) : String :=
  lines (assignmentText name value ::
    (report.events.map ("  " ++ ·.toText) ++ report.failures.map ("  failed " ++ ·.toText)))

def questionText (question : Question) : String :=
  (if question.visible then "[x] " else "[ ] ") ++ question.name ++ ": " ++ question.rendered

/-- Gives the answers in order, with the output so far; then prints the questions. -/
def answerAll (model : Model) (output : String) : List String → Outcome
  | [] => ⟨output ++ line "" ++ lines (model.questions.map questionText), none⟩
  | text :: texts =>
    match splitAssignment text with
    -- what the answers before it changed has been printed
    | .error error => ⟨output, some error.message⟩
    | .ok (name, value) =>
      let (model, report) := model.update name value
      answerAll model (output ++ answerText name value report) texts

/-- Runs a survey. -/
def survey (definition : Definition) (answers : List String) : Outcome :=
  match Model.load definition with
  | .error error => ⟨"", some error.message⟩
  | .ok model => answerAll model "" answers

end Command

end SurveyLogic

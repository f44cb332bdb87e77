import SurveyLogic.Environment
import SurveyLogic.Evaluation.Operation

/-!
# Evaluation

A tree is evaluated from left to right in an environment that assignments change.  The first error
ends the evaluation, and what was written before it stays.
-/

namespace SurveyLogic

/-- A step of evaluation: a result or an error, and in both cases the environment after it. -/
abbrev Evaluation (α : Type) := ExceptT RuntimeError (StateM Environment) α

namespace Evaluation

variable {α β : Type}

/-- The outcome and the environment after it. -/
def outcome (step : Evaluation α) (env : Environment) : Except RuntimeError α × Environment :=
  step.run.run env

/-- A result that does not depend on the environment. -/
def ofResult (result : Except RuntimeError α) : Evaluation α := ExceptT.mk (pure result)

/-- A result that depends on the environment as it is. -/
def read (result : Environment → Except RuntimeError α) : Evaluation α := do
  ofResult (result (← get))

/-- Changes the environment. -/
def write (change : Environment → Environment) : Evaluation Unit := modify change

@[simp] theorem outcome_pure (a : α) (env : Environment) :
    outcome (pure a) env = (.ok a, env) := rfl

@[simp] theorem outcome_ofResult (result : Except RuntimeError α) (env : Environment) :
    outcome (ofResult result) env = (result, env) := rfl

@[simp] theorem outcome_read (result : Environment → Except RuntimeError α) (env : Environment) :
    outcome (read result) env = (result env, env) := rfl

@[simp] theorem outcome_write (change : Environment → Environment) (env : Environment) :
    outcome (write change) env = (.ok (), change env) := rfl

/-- What follows an error is not run. -/
@[simp] theorem outcome_bind (step : Evaluation α) (next : α → Evaluation β) (env : Environment) :
    outcome (step >>= next) env =
      match outcome step env with
      | (.ok a, after) => outcome (next a) after
      | (.error error, after) => (.error error, after) := by
  simp only [outcome, ExceptT.run_bind, StateT.run_bind]
  rcases step.run.run env with ⟨_ | _, _⟩ <;> rfl

end Evaluation

namespace Expr

open Evaluation

mutual

def eval : Expr → Evaluation Value
  | number value _ => pure (.number value)
  | text value _ => pure (.text value)
  | truth value _ => pure (.truth value)
  | name word position => read (·.lookup word position)
  | member object property _ => do return (← object.eval).property property
  | array elements _ => do return .array (← evalAll elements)
  | unary operator operand position => do ofResult (operator.apply (← operand.eval) position)
  | binary operator left right position => do
    let a ← left.eval
    let b ← right.eval
    ofResult (operator.apply a b position)
  | logical .and left right _ => do
    if (← left.eval).isTruthy then return .truth (← right.eval).isTruthy
    else return .truth false
  | logical .or left right _ => do
    if (← left.eval).isTruthy then return .truth true
    else return .truth (← right.eval).isTruthy
  | group inner _ => inner.eval
  | assign target value _ =>
    match target.path? with
    | some path => do
      -- the target is only written to, so its names may be unbound
      let result ← value.eval
      write (·.set (Text.joinSegments path) result)
      return result
    | none => ofResult (.error (.unsupportedTarget target.position))
  | between subject lower upper position => do
    let a ← subject.eval
    let b ← lower.eval
    let c ← upper.eval
    ofResult (a.isBetween b c position)

def evalAll : List Expr → Evaluation (List Value)
  | [] => pure []
  | tree :: trees => do
    let first ← tree.eval
    let rest ← evalAll trees
    return first :: rest

end

end Expr

end SurveyLogic

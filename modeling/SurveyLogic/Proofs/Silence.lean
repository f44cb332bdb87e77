import SurveyLogic.Compiled
import SurveyLogic.Proofs.Grammar.Exact

/-!
# Conditions write nothing

Only an assignment changes the environment, and there is none in a condition: the grammar has no
place for it (`Expr.assignmentFree_of_derives`).  So evaluating a condition leaves the environment
as it is, whether it has a value or fails: `Compiled.evaluate_snd_of_condition`.
-/

namespace SurveyLogic

/-! ## Silent steps -/

namespace Evaluation

variable {α β : Type}

/-- Leaves every environment as it is. -/
def Silent (step : Evaluation α) : Prop := ∀ env, (step.outcome env).2 = env

theorem Silent.pure (value : α) : Silent (Pure.pure value : Evaluation α) := fun _ => rfl

theorem Silent.ofResult (result : Except RuntimeError α) : Silent (ofResult result) := fun _ => rfl

theorem Silent.read (result : Environment → Except RuntimeError α) : Silent (read result) :=
  fun _ => rfl

theorem Silent.bind {step : Evaluation α} {next : α → Evaluation β} (hstep : Silent step)
    (hnext : ∀ value, Silent (next value)) : Silent (step >>= next) := by
  intro env
  have hafter := hstep env
  rw [outcome_bind]
  rcases houtcome : step.outcome env with ⟨_ | value, after⟩
  · rwa [houtcome] at hafter
  · obtain rfl : after = env := by rwa [houtcome] at hafter
    -- the second step starts from the same environment
    exact hnext value after

end Evaluation

/-! ## Trees without assignments -/

namespace Expr

open Evaluation

mutual

/-- Whether no assignment occurs in a tree. -/
def assignmentFree : Expr → Bool
  | number _ _ | text _ _ | truth _ _ | name _ _ => true
  | member object _ _ => object.assignmentFree
  | array elements _ => allAssignmentFree elements
  | unary _ operand _ => operand.assignmentFree
  | binary _ left right _ | logical _ left right _ => left.assignmentFree && right.assignmentFree
  | group inner _ => inner.assignmentFree
  | assign _ _ _ => false
  | between subject lower upper _ =>
    subject.assignmentFree && lower.assignmentFree && upper.assignmentFree

def allAssignmentFree : List Expr → Bool
  | [] => true
  | tree :: trees => tree.assignmentFree && allAssignmentFree trees

end

mutual

theorem silent_eval : ∀ tree : Expr, tree.assignmentFree = true → Silent tree.eval
  | number _ _, _ | text _ _, _ | truth _ _, _ => .pure _
  | name _ _, _ => .read _
  | member object _ _, h => (silent_eval object h).bind fun _ => .pure _
  | array elements _, h => (silent_evalAll elements h).bind fun _ => .pure _
  | unary _ operand _, h => (silent_eval operand h).bind fun _ => .ofResult _
  | binary _ left right _, h => by
    obtain ⟨hleft, hright⟩ := Bool.and_eq_true_iff.mp h
    exact (silent_eval left hleft).bind fun _ => (silent_eval right hright).bind fun _ =>
      .ofResult _
  | logical operator left right _, h => by
    obtain ⟨hleft, hright⟩ := Bool.and_eq_true_iff.mp h
    cases operator <;>
    · refine (silent_eval left hleft).bind fun value => ?_
      split
      all_goals first
        | exact .pure _
        | exact (silent_eval right hright).bind fun _ => .pure _
  | group inner _, h => silent_eval inner h
  | between subject lower upper _, h => by
    obtain ⟨hboth, hupper⟩ := Bool.and_eq_true_iff.mp h
    obtain ⟨hsubject, hlower⟩ := Bool.and_eq_true_iff.mp hboth
    exact (silent_eval subject hsubject).bind fun _ => (silent_eval lower hlower).bind fun _ =>
      (silent_eval upper hupper).bind fun _ => .ofResult _

theorem silent_evalAll :
    ∀ trees : List Expr, allAssignmentFree trees = true → Silent (evalAll trees)
  | [], _ => .pure _
  | tree :: trees, h => by
    obtain ⟨hfirst, hrest⟩ := Bool.and_eq_true_iff.mp h
    exact (silent_eval tree hfirst).bind fun _ => (silent_evalAll trees hrest).bind fun _ => .pure _

end

/-! ## The grammar has no assignments -/

theorem assignmentFree_of_derivesMember {tokens : List Lexeme} {tree : Expr}
    (h : DerivesMember tokens tree) : tree.assignmentFree = true := by
  induction h with
  | name => rfl
  | property _ _ _ _ ih => exact ih

mutual

theorem assignmentFree_of_derives {level : Level} {tokens : List Lexeme} {tree : Expr} :
    Derives level tokens tree → tree.assignmentFree = true
  | .number .. | .text .. | .truth .. | .emptyArray .. => rfl
  | .member h => assignmentFree_of_derivesMember h
  | .group _ _ h | .unary _ h => by
    rw [assignmentFree]
    exact assignmentFree_of_derives h
  | .array _ _ h => by
    rw [assignmentFree]
    exact allAssignmentFree_of_derivesAll h
  | .power _ hleft hright | .binary _ _ _ _ hleft hright | .and _ hleft hright
  | .or _ hleft hright => by
    rw [assignmentFree, assignmentFree_of_derives hleft, assignmentFree_of_derives hright]
    rfl
  | .between _ _ _ hsubject hlower hupper => by
    rw [assignmentFree, assignmentFree_of_derives hsubject, assignmentFree_of_derives hlower,
      assignmentFree_of_derives hupper]
    rfl
  | .operand _ h => assignmentFree_of_derives h

theorem allAssignmentFree_of_derivesAll {tokens : List Lexeme} {trees : List Expr} :
    DerivesAll tokens trees → allAssignmentFree trees = true
  | .one h => by
    rw [allAssignmentFree, assignmentFree_of_derives h]
    rfl
  | .more _ h hothers => by
    rw [allAssignmentFree, assignmentFree_of_derives h, allAssignmentFree_of_derivesAll hothers]
    rfl

end

end Expr

/-! ## Accepted conditions -/

namespace Compiled

theorem assignmentFree_of_condition {source : String} {compiled : Compiled}
    (h : condition source = .ok compiled) : compiled.tree.assignmentFree = true := by
  obtain ⟨lexemes, -, hparse⟩ := parse_of_condition h
  exact Expr.assignmentFree_of_derives (Expr.sentence_of_parse hparse).1

/-- A condition leaves the environment as it is, also when it fails. -/
theorem evaluate_snd_of_condition {source : String} {compiled : Compiled}
    (h : condition source = .ok compiled) (env : Environment) : (compiled.evaluate env).2 = env :=
  Expr.silent_eval compiled.tree (assignmentFree_of_condition h) env

end Compiled

end SurveyLogic

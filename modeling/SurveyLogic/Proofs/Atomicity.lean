import SurveyLogic.Proofs.Grammar.Bindings
import SurveyLogic.Proofs.Silence

/-!
# Bindings write all or nothing

An assignment stands only at the root of a binding, and its value is a condition
(`Expr.BindingSentence`).  So evaluating a binding writes once and last, when the value is there:
the environment is as before if the evaluation fails, and else the value stands at the path of the
target.  `Expr.Atomic` says this of one evaluation, `Compiled.atomic_of_binding` of all bindings
that are accepted, and `evaluateSource_atomic` of sources that are compiled and evaluated at once.
-/

namespace SurveyLogic

namespace Expr

open Evaluation

/-- How an evaluation of a tree may leave the environment: as it was, but for an assignment that has
a value, which is written at the path of the target. -/
structure Atomic (tree : Expr) (env : Environment) (result : Except RuntimeError Value)
    (after : Environment) : Prop where
  failed : ∀ error, result = .error error → after = env
  silent : (∀ target value position, tree ≠ .assign target value position) → after = env
  assigned : ∀ target value position, tree = .assign target value position →
    ∀ written, result = .ok written → ∃ path, target.path? = some path ∧
      after = env.set (Text.joinSegments path) written

theorem atomic_of_assignmentFree {tree : Expr} (h : tree.assignmentFree = true)
    (env : Environment) :
    tree.Atomic env (tree.eval.outcome env).1 (tree.eval.outcome env).2 := by
  have hsilent := silent_eval tree h env
  refine ⟨fun _ _ => hsilent, fun _ => hsilent, ?_⟩
  rintro target value position rfl
  simp [assignmentFree] at h

theorem eval_assign {target value : Expr} {path : List String} (hpath : target.path? = some path)
    (position : Nat) : (assign target value position).eval =
      value.eval >>= fun result =>
        write (·.set (Text.joinSegments path) result) >>= fun _ => pure result := by
  rw [eval, hpath]

/-- The value of an assignment is written after it was evaluated, which wrote nothing. -/
theorem atomic_assign {target value : Expr} {position : Nat} (hpath : target.path?.isSome = true)
    (hvalue : value.assignmentFree = true) (env : Environment) :
    (assign target value position).Atomic env ((assign target value position).eval.outcome env).1
      ((assign target value position).eval.outcome env).2 := by
  obtain ⟨path, hpath⟩ := Option.isSome_iff_exists.mp hpath
  have hsilent := silent_eval value hvalue env
  rw [eval_assign hpath, outcome_bind]
  rcases houtcome : value.eval.outcome env with ⟨error | result, after⟩
  · obtain rfl : after = env := by rwa [houtcome] at hsilent
    refine ⟨fun _ _ => rfl, fun hnot => absurd rfl (hnot _ _ _), ?_⟩
    intro _ _ _ _ written hwritten
    contradiction
  · obtain rfl : after = env := by rwa [houtcome] at hsilent
    refine ⟨?_, fun hnot => absurd rfl (hnot _ _ _), ?_⟩
    · intro _ hfailed
      contradiction
    · rintro _ _ _ ⟨rfl, rfl, rfl⟩ written hwritten
      obtain rfl := Except.ok.inj hwritten
      exact ⟨path, hpath, rfl⟩

theorem BindingSentence.atomic {tokens : List Lexeme} {tree : Expr}
    (h : BindingSentence tokens tree) (env : Environment) :
    tree.Atomic env (tree.eval.outcome env).1 (tree.eval.outcome env).2 := by
  cases h with
  | assign position htarget hvalue =>
      exact atomic_assign (path?_of_derivesMember htarget) (assignmentFree_of_derives hvalue) env
  | condition _ hsentence =>
      exact atomic_of_assignmentFree (assignmentFree_of_derives hsentence) env

end Expr

/-! ## Accepted bindings -/

theorem Compiled.atomic_of_binding {source : String} {compiled : Compiled}
    (h : binding source = .ok compiled) (env : Environment) :
    compiled.tree.Atomic env (compiled.evaluate env).1 (compiled.evaluate env).2 := by
  obtain ⟨lexemes, -, hparse⟩ := parseBinding_of_binding h
  exact (Expr.bindingSentence_of_parseBinding hparse).1.atomic env

/-- A source that is compiled and evaluated at once leaves the environment as it is unless it has a
value, and then does what its binding does. -/
theorem evaluateSource_atomic (source : String) (env : Environment) :
    (∃ error, evaluateSource source env = (.error error, env)) ∨
    ∃ compiled value, Compiled.binding source = .ok compiled ∧
      (compiled.evaluate env).1 = .ok value ∧
      evaluateSource source env = (.ok value, (compiled.evaluate env).2) := by
  unfold evaluateSource
  cases hcompiled : Compiled.binding source with
  | error error => exact Or.inl ⟨_, rfl⟩
  | ok compiled =>
      have hatomic := Compiled.atomic_of_binding hcompiled env
      rcases houtcome : compiled.evaluate env with ⟨error | value, after⟩
      · rw [houtcome] at hatomic
        obtain rfl : after = env := hatomic.failed error rfl
        exact Or.inl ⟨.failed error, by simp [houtcome]⟩
      · exact Or.inr ⟨compiled, value, rfl, by rw [houtcome], by simp [houtcome]⟩

end SurveyLogic

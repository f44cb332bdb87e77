import SurveyLogic.Proofs.Errors.Raised
import SurveyLogic.Proofs.Grammar.Positions

/-!
# Trees up to positions

Two trees have the same structure if they are one tree once all positions are erased
(`Expr.sameStructure_iff`).  Nothing that is done with a tree depends on more than that: its text,
its roots, its path, its levels, and what it evaluates to, but for the position of an error.

Each of these is shown of a tree and the same tree at other positions, whatever these are.  For the
evaluation this is an equation between two steps, `Evaluation.Moved`: the same value, or the same
error at its other position, and the same environment.  Each way of building a step keeps it, so
that it holds of a tree by closure (`Expr.moved_eval`).
-/

namespace SurveyLogic

variable {place : Nat → Nat}

/-! ## Errors at other positions -/

/-- The same error at another position. -/
def RuntimeError.moved (place : Nat → Nat) : RuntimeError → RuntimeError
  | undefinedVariable word position => undefinedVariable word (place position)
  | divisionByZero position => divisionByZero (place position)
  | kindMismatch mismatch position => kindMismatch mismatch (place position)
  | unsupportedOperator operator position => unsupportedOperator operator (place position)
  | unsupportedTarget position => unsupportedTarget (place position)

theorem mapError_ok {ε δ α : Type} (f : ε → δ) (a : α) :
    (Except.ok a : Except ε α).mapError f = .ok a := rfl

theorem mapError_error {ε δ α : Type} (f : ε → δ) (error : ε) :
    (Except.error error : Except ε α).mapError f = .error (f error) := rfl

section Apply

variable (a b : Value) (position : Nat)

theorem Value.order_moved : a.order b (place position) =
    (a.order b position).mapError (.moved place) := by
  unfold order
  split
  -- between a number and a text it depends on whether the text is a number
  any_goals split
  all_goals rfl

theorem BinaryOperator.applyOrdering_moved (operator : BinaryOperator) :
    operator.applyOrdering a b (place position) =
      (operator.applyOrdering a b position).mapError (.moved place) := by
  unfold applyOrdering
  rw [Value.order_moved]
  rcases a.order b position with error | order
  · rfl
  · cases order with
    | none => rfl
    | some ordering =>
        rw [mapError_ok, ok_bind, ok_bind]
        cases operator.admits? <;> rfl

theorem BinaryOperator.applyArithmetic_moved (operator : BinaryOperator) :
    operator.applyArithmetic a b (place position) =
      (operator.applyArithmetic a b position).mapError (.moved place) := by
  unfold applyArithmetic
  split
  · cases operator with
    | divide =>
        dsimp only
        split
        all_goals rfl
    | _ => rfl
  · rfl

theorem BinaryOperator.apply_moved (operator : BinaryOperator) :
    operator.apply a b (place position) =
      (operator.apply a b position).mapError (.moved place) := by
  cases operator with
  | add | subtract | multiply | divide | power => simp only [apply, applyArithmetic_moved]
  | less | lessEqual | greater | greaterEqual => simp only [apply, applyOrdering_moved]
  | equal | notEqual | contains | within => rfl

theorem UnaryOperator.apply_moved (operator : UnaryOperator) :
    operator.apply a (place position) = (operator.apply a position).mapError (.moved place) := by
  cases operator with
  | negate => cases a <;> rfl
  | not => rfl

theorem Value.isBetween_moved (c : Value) : a.isBetween b c (place position) =
    (a.isBetween b c position).mapError (.moved place) := by
  unfold isBetween
  rw [BinaryOperator.applyOrdering_moved, BinaryOperator.applyOrdering_moved]
  rcases BinaryOperator.lessEqual.applyOrdering b a position with error | above
  · rfl
  · rw [mapError_ok, ok_bind, ok_bind]
    split
    all_goals rfl

end Apply

/-! ## Steps with errors at other positions -/

namespace Evaluation

variable {α β : Type}

/-- The second step does the same as the first one, with its errors at other positions. -/
def Moved (place : Nat → Nat) (step moved : Evaluation α) : Prop :=
  ∀ env, moved.outcome env =
    ((step.outcome env).1.mapError (.moved place), (step.outcome env).2)

theorem Moved.pure (value : α) : Moved place (Pure.pure value : Evaluation α) (Pure.pure value) :=
  fun _ => rfl

theorem Moved.ofResult {result result' : Except RuntimeError α}
    (h : result' = result.mapError (.moved place)) :
    Moved place (ofResult result) (ofResult result') :=
  fun env => congrArg (·, env) h

theorem Moved.read {result result' : Environment → Except RuntimeError α}
    (h : ∀ env, result' env = (result env).mapError (.moved place)) :
    Moved place (read result) (read result') :=
  fun env => congrArg (·, env) (h env)

theorem Moved.write (change : Environment → Environment) :
    Moved place (write change) (write change) := fun _ => rfl

theorem Moved.bind {step step' : Evaluation α} {next next' : α → Evaluation β}
    (hstep : Moved place step step') (hnext : ∀ value, Moved place (next value) (next' value)) :
    Moved place (step >>= next) (step' >>= next') := by
  intro env
  rw [outcome_bind, outcome_bind, hstep env]
  rcases step.outcome env with ⟨error | value, after⟩
  · rfl
  · exact hnext value after

end Evaluation

/-! ## Trees at other positions -/

namespace Expr

open Evaluation

mutual

/-- What a tree evaluates to does not depend on positions, but for the position of an error. -/
theorem moved_eval : ∀ tree : Expr, Moved place tree.eval (tree.moved place).eval
  | number _ _ | text _ _ | truth _ _ => .pure _
  | name word position => .read fun env => by
    unfold Environment.lookup
    cases env.get? word <;> rfl
  | member object _ _ => (moved_eval object).bind fun _ => .pure _
  | array elements _ => (moved_evalAll elements).bind fun _ => .pure _
  | unary operator operand position => (moved_eval operand).bind fun a =>
    .ofResult (operator.apply_moved a position)
  | binary operator left right position => (moved_eval left).bind fun a =>
    (moved_eval right).bind fun b => .ofResult (operator.apply_moved a b position)
  | logical operator left right _ => by
    cases operator <;>
    · refine (moved_eval left).bind fun value => ?_
      split
      all_goals first
        | exact .pure _
        | exact (moved_eval right).bind fun _ => .pure _
  | group inner _ => moved_eval inner
  | assign target value position => by
    have heval : ((assign target value position).moved place).eval =
        match (target.moved place).path? with
        | some path => do
          let result ← (value.moved place).eval
          write (·.set (Text.joinSegments path) result)
          return result
        | none => ofResult (.error (.unsupportedTarget (target.moved place).position)) := rfl
    -- the path of the target does not depend on positions, so both sides write or both refuse
    rw [heval, path?_moved, position_moved, eval]
    cases target.path? with
    | some path => exact (moved_eval value).bind fun _ => (Moved.write _).bind fun _ => .pure _
    | none => exact .ofResult rfl
  | between subject lower upper position => (moved_eval subject).bind fun a =>
    (moved_eval lower).bind fun b => (moved_eval upper).bind fun c =>
      .ofResult (a.isBetween_moved b position c)

theorem moved_evalAll : ∀ trees : List Expr,
    Moved place (evalAll trees) (evalAll (relabelAll number place trees))
  | [] => .pure _
  | tree :: trees => (moved_eval tree).bind fun _ => (moved_evalAll trees).bind fun _ => .pure _

end

mutual

theorem toText_relabel : ∀ tree : Expr, (tree.relabel number place).toText = tree.toText
  | number _ _ | text _ _ | truth _ _ | name _ _ => rfl
  | member object _ _ | unary _ object _ | group object _ => by
    simp only [relabel, toText, toText_relabel object]
  | array elements _ => by
    simp only [relabel, toText, toTexts_relabelAll elements]
  | binary _ left right _ | logical _ left right _ | assign left right _ => by
    simp only [relabel, toText, toText_relabel left, toText_relabel right]
  | between subject lower upper _ => by
    simp only [relabel, toText, toText_relabel subject, toText_relabel lower, toText_relabel upper]

theorem toTexts_relabelAll : ∀ trees : List Expr,
    toTexts (relabelAll number place trees) = toTexts trees
  | [] => rfl
  | tree :: trees => by
    simp only [relabelAll, toTexts, toText_relabel tree, toTexts_relabelAll trees]

end

mutual

theorem namesRead_relabel : ∀ tree : Expr, (tree.relabel number place).namesRead = tree.namesRead
  | number _ _ | text _ _ | truth _ _ | name _ _ => rfl
  | member object _ _ | unary _ object _ | group object _ => by
    simp only [relabel, namesRead, namesRead_relabel object]
  | array elements _ => by
    simp only [relabel, namesRead, namesReadByAll_relabelAll elements]
  | binary _ left right _ | logical _ left right _ => by
    simp only [relabel, namesRead, namesRead_relabel left, namesRead_relabel right]
  | assign _ value _ => by
    simp only [relabel, namesRead, namesRead_relabel value]
  | between subject lower upper _ => by
    simp only [relabel, namesRead, namesRead_relabel subject, namesRead_relabel lower,
      namesRead_relabel upper]

theorem namesReadByAll_relabelAll : ∀ trees : List Expr,
    namesReadByAll (relabelAll number place trees) = namesReadByAll trees
  | [] => rfl
  | tree :: trees => by
    simp only [relabelAll, namesReadByAll, namesRead_relabel tree, namesReadByAll_relabelAll trees]

end

/-! ## Levels -/

/-- Whether a tree has more levels than a limit.  It is not looked into any further than that. -/
def deeperThan : Nat → Expr → Bool
  | 0, _ => true
  | limit + 1, tree => tree.parts.any (deeperThan limit)

theorem height_eq_parts (tree : Expr) : tree.height = heightOfAll tree.parts + 1 := by
  cases tree <;> simp [height, parts, heightOfAll]

theorem lt_heightOfAll_iff {limit : Nat} {trees : List Expr} :
    limit < heightOfAll trees ↔ ∃ tree ∈ trees, limit < tree.height := by
  induction trees with
  | nil => simp [heightOfAll]
  | cons tree trees ih =>
      simp only [heightOfAll, List.mem_cons, exists_eq_or_imp, ← ih]
      omega

/-- The height decides every limit. -/
theorem deeperThan_eq (limit : Nat) (tree : Expr) :
    tree.deeperThan limit = decide (limit < tree.height) := by
  induction limit generalizing tree with
  | zero => simp [deeperThan, tree.height_pos]
  | succ limit ih =>
      rw [Bool.eq_iff_iff, deeperThan, List.any_eq_true, decide_eq_true_iff, height_eq_parts,
        Nat.succ_lt_succ_iff, lt_heightOfAll_iff]
      simp only [ih, decide_eq_true_iff]

end Expr

/-! ## Trees with the same structure -/

/-- The same value, or the same error but for its position. -/
def RuntimeError.SameBut : Except RuntimeError Value → Except RuntimeError Value → Prop
  | .ok a, .ok b => a = b
  | .error error, .error error' => error.moved (fun _ => 0) = error'.moved fun _ => 0
  | _, _ => False

theorem RuntimeError.sameBut_iff {a b : Except RuntimeError Value} :
    SameBut a b ↔ a.mapError (moved fun _ => 0) = b.mapError (moved fun _ => 0) := by
  cases a <;> cases b <;> simp [SameBut, mapError_ok, mapError_error]

namespace Expr

/-- Whatever erasing positions does not change is the same of two trees with the same structure. -/
theorem eq_of_bare_eq {α : Type} (view : Expr → α)
    (hview : ∀ tree : Expr, view tree.bare = view tree) {a b : Expr} (h : a.bare = b.bare) :
    view a = view b := by
  rw [← hview a, h, hview b]

theorem deeperThan_bare (limit : Nat) (tree : Expr) :
    tree.bare.deeperThan limit = tree.deeperThan limit := by
  have hheight : tree.bare.height = tree.height := height_moved tree
  rw [deeperThan_eq, deeperThan_eq, hheight]

theorem roots_bare (tree : Expr) : tree.bare.roots = tree.roots :=
  congrArg Names.ofList (namesRead_relabel tree)

theorem outcome_eval_bare (env : Environment) (tree : Expr) : tree.bare.eval.outcome env =
    ((tree.eval.outcome env).1.mapError (RuntimeError.moved fun _ => 0),
      (tree.eval.outcome env).2) :=
  moved_eval tree env

/-- Where the positions of a tree are erased, nothing is left of those of its errors to erase. -/
theorem mapError_eval_bare (env : Environment) (tree : Expr) :
    (tree.bare.eval.outcome env).1.mapError (RuntimeError.moved fun _ => 0) =
      (tree.eval.outcome env).1.mapError (RuntimeError.moved fun _ => 0) := by
  rw [outcome_eval_bare]
  rcases tree.eval.outcome env with ⟨error | value, after⟩
  · cases error <;> rfl
  · rfl

/-- Two trees that nobody can tell apart but by their positions. -/
structure Interchangeable (a b : Expr) : Prop where
  text : a.toText = b.toText
  roots : a.roots = b.roots
  path : a.path? = b.path?
  levels : ∀ limit, a.deeperThan limit = b.deeperThan limit
  result : ∀ env, RuntimeError.SameBut (a.eval.outcome env).1 (b.eval.outcome env).1
  environment : ∀ env, (a.eval.outcome env).2 = (b.eval.outcome env).2

theorem interchangeable_of_bare_eq {a b : Expr} (h : a.bare = b.bare) : a.Interchangeable b where
  text := eq_of_bare_eq toText toText_relabel h
  roots := eq_of_bare_eq Expr.roots roots_bare h
  path := eq_of_bare_eq path? path?_moved h
  levels limit := eq_of_bare_eq (deeperThan limit) (deeperThan_bare limit) h
  result env := RuntimeError.sameBut_iff.mpr <|
    eq_of_bare_eq (fun tree => (tree.eval.outcome env).1.mapError (RuntimeError.moved fun _ => 0))
      (mapError_eval_bare env) h
  environment env := eq_of_bare_eq (fun tree => (tree.eval.outcome env).2)
    (fun tree => by rw [outcome_eval_bare]) h

/-- A value does not show which positions the tree had. -/
theorem outcome_eval_of_bare_eq {a b : Expr} (h : a.bare = b.bare) {env : Environment}
    {value : Value} (hvalue : (b.eval.outcome env).1 = .ok value) :
    (a.eval.outcome env).1 = .ok value := by
  have hsame := (interchangeable_of_bare_eq h).result env
  rw [hvalue] at hsame
  cases ha : (a.eval.outcome env).1 with
  | error error =>
      rw [ha] at hsame
      contradiction
  | ok other =>
      rw [ha] at hsame
      exact congrArg Except.ok hsame

/-- **Having the same structure is being the same up to positions**, numbers compared bit for bit.
So it is an equivalence, of which a NaN is no exception, and trees with the same structure have the
same text, the same roots, the same path and the same levels, and evaluate alike. -/
theorem sameStructure_respected :
    (∀ a b : Expr, a.sameStructure b = true ↔ a.bare = b.bare) ∧
    (∀ a : Expr, a.sameStructure a = true) ∧
    (∀ a b : Expr, a.sameStructure b = true → b.sameStructure a = true) ∧
    (∀ a b c : Expr, a.sameStructure b = true → b.sameStructure c = true →
      a.sameStructure c = true) ∧
    (∀ a b : Expr, a.sameStructure b = true → a.Interchangeable b) := by
  refine ⟨sameStructure_iff, ?_, ?_, ?_, ?_⟩
  · exact fun a => (sameStructure_iff a a).mpr rfl
  · intro a b h
    rw [sameStructure_iff] at h ⊢
    exact h.symm
  · intro a b c hab hbc
    rw [sameStructure_iff] at hab hbc ⊢
    exact hab.trans hbc
  · exact fun a b h => interchangeable_of_bare_eq ((sameStructure_iff a b).mp h)

/-- An array of an assignment of a NaN and of a division by a text, which fails after the
assignment.  The positions are those of `[x=…,1/'a']` from the given offset on. -/
def halfTree (offset : Nat) : Expr :=
  .array [.assign (.name "x" (offset + 1)) (.number (.nan false) (offset + 3)) (offset + 2),
    .binary .divide (.number .one (offset + 5)) (.text "a" (offset + 7)) (offset + 6)] offset

theorem sameStructure_respected_half :
    (halfTree 0).sameStructure (halfTree 4) = true ∧
    (halfTree 4).sameStructure (halfTree 0) = true ∧
    (halfTree 0).sameStructure (halfTree 9) = true ∧
    (halfTree 0).Interchangeable (halfTree 4) ∧
    (halfTree 0).eval.outcome .empty =
      (.error (.kindMismatch (.arithmetic .divide .number .text) 6),
        ⟨[("x", .number (.nan false))]⟩) ∧
    (halfTree 4).eval.outcome .empty =
      (.error (.kindMismatch (.arithmetic .divide .number .text) 10),
        ⟨[("x", .number (.nan false))]⟩) := by
  obtain ⟨-, -, hsymm, htrans, hrespected⟩ := sameStructure_respected
  have hnear : (halfTree 0).sameStructure (halfTree 4) = true := by decide
  have hfar : (halfTree 4).sameStructure (halfTree 9) = true := by decide
  exact ⟨hnear, hsymm _ _ hnear, htrans _ _ _ hnear hfar, hrespected _ _ hnear, rfl, rfl⟩

end Expr

end SurveyLogic

import SurveyLogic.Evaluation.Eval
import SurveyLogic.Reading

/-!
# What raises an error

An error of an evaluation comes from one node of the tree, and the node tells what kinds of errors
that can be (`Expr.Raises`): a name that is undefined, a division by zero, an arithmetic operator or
an ordering whose operands are of the wrong kind.  The error carries the position of the node.  Two
kinds of errors stand for trees that no source has.  One is never raised, since every operator is
applied by the rule of its own family; the other one only by an assignment whose target is no member
chain.

An evaluation step *fails only* with some errors (`Evaluation.FailsOnly`) if these are all it has in
any environment.  `Expr.failsOnly_eval` proves by closure that a tree fails only with errors that a
node in it raises.
-/

namespace SurveyLogic

/-! ## Families of operators -/

namespace BinaryOperator

/-- The operators that take numbers only. -/
def arithmetic : List BinaryOperator := [add, subtract, multiply, divide, power]

/-- The operators that compare by order. -/
def orderings : List BinaryOperator := [less, lessEqual, greater, greaterEqual]

end BinaryOperator

namespace Expr

/-! ## Nodes of a tree -/

/-- The trees directly below the root. -/
def parts : Expr → List Expr
  | number _ _ | text _ _ | truth _ _ | name _ _ => []
  | member object _ _ => [object]
  | array elements _ => elements
  | unary _ operand _ => [operand]
  | binary _ left right _ | logical _ left right _ | assign left right _ => [left, right]
  | group inner _ => [inner]
  | between subject lower upper _ => [subject, lower, upper]

/-- The node is the tree itself or anywhere below it. -/
inductive PartOf (node : Expr) : Expr → Prop
  | self : PartOf node node
  | inside {part tree : Expr} : part ∈ tree.parts → PartOf node part → PartOf node tree

/-! ## What a node raises -/

/-- The node by itself can be the origin of the error. -/
inductive Raises : Expr → RuntimeError → Prop
  | undefined (word : String) (position : Nat) :
    Raises (.name word position) (.undefinedVariable word position)
  | division (left right : Expr) (position : Nat) :
    Raises (.binary .divide left right position) (.divisionByZero position)
  | negation (operand : Expr) (position : Nat) (found : Value.Kind) :
    Raises (.unary .negate operand position) (.kindMismatch (.notANumber found) position)
  | arithmetic {operator : BinaryOperator} (left right : Expr) (position : Nat)
    (first second : Value.Kind) : operator ∈ BinaryOperator.arithmetic →
    Raises (.binary operator left right position)
      (.kindMismatch (.arithmetic operator first second) position)
  | ordering {operator : BinaryOperator} (left right : Expr) (position : Nat)
    (first second : Value.Kind) : operator ∈ BinaryOperator.orderings →
    Raises (.binary operator left right position) (.kindMismatch (.ordering first second) position)
  | range (subject lower upper : Expr) (position : Nat) (first second : Value.Kind) :
    Raises (.between subject lower upper position)
      (.kindMismatch (.ordering first second) position)
  | target {target : Expr} (value : Expr) (position : Nat) : target.path? = none →
    Raises (.assign target value position) (.unsupportedTarget target.position)

/-- Some node of the tree is the origin of the error. -/
def RaisesWithin (tree : Expr) (error : RuntimeError) : Prop :=
  ∃ node, PartOf node tree ∧ Raises node error

theorem Raises.within {tree : Expr} {error : RuntimeError} (h : tree.Raises error) :
    tree.RaisesWithin error := ⟨tree, .self, h⟩

theorem RaisesWithin.below {part tree : Expr} {error : RuntimeError}
    (h : part.RaisesWithin error) (hpart : part ∈ tree.parts) : tree.RaisesWithin error := by
  obtain ⟨node, hnode, hraises⟩ := h
  exact ⟨node, .inside hpart hnode, hraises⟩

end Expr

/-! ## Operators applied to values -/

section Apply

variable {error : RuntimeError} {position : Nat}

theorem Value.order_eq_error {left right : Value} (h : left.order right position = .error error) :
    ∃ first second, error = .kindMismatch (.ordering first second) position := by
  unfold order at h
  split at h
  -- between a number and a text it depends on whether the text is a number
  any_goals split at h
  all_goals cases h
  all_goals exact ⟨_, _, rfl⟩

/-- An ordering is only asked for with an operator that has one. -/
theorem BinaryOperator.applyOrdering_eq_error {operator : BinaryOperator} {left right : Value}
    (hordering : operator ∈ orderings)
    (h : operator.applyOrdering left right position = .error error) :
    ∃ first second, error = .kindMismatch (.ordering first second) position := by
  rcases error_of_bind_eq_error h with horder | ⟨order, -, hmore⟩
  · exact Value.order_eq_error horder
  · cases order with
    | none => contradiction
    | some ordering =>
        have hadmits : ∀ operator ∈ orderings, operator.admits?.isSome = true := by decide
        obtain ⟨admits, hsome⟩ := Option.isSome_iff_exists.mp (hadmits operator hordering)
        dsimp only at hmore
        rw [hsome] at hmore
        contradiction

theorem BinaryOperator.applyArithmetic_eq_error {operator : BinaryOperator} {left right : Value}
    (harithmetic : operator ∈ arithmetic)
    (h : operator.applyArithmetic left right position = .error error) :
    operator = .divide ∧ error = .divisionByZero position ∨
    ∃ first second, error = .kindMismatch (.arithmetic operator first second) position := by
  unfold applyArithmetic at h
  split at h
  · cases operator with
    | add | subtract | multiply | power => cases h
    | divide =>
        dsimp only at h
        split at h
        · exact Or.inl ⟨rfl, (Except.error.inj h).symm⟩
        · contradiction
    | _ => simp [arithmetic] at harithmetic
  · exact Or.inr ⟨_, _, (Except.error.inj h).symm⟩

/-- Every operator goes to the rule of its family, so that none is unsupported. -/
theorem BinaryOperator.raises_apply {operator : BinaryOperator} {a b : Value} (left right : Expr)
    (h : operator.apply a b position = .error error) :
    (Expr.binary operator left right position).Raises error := by
  have harithmetic : operator ∈ arithmetic → operator.applyArithmetic a b position = .error error →
      (Expr.binary operator left right position).Raises error := by
    intro hmem herror
    rcases applyArithmetic_eq_error hmem herror with ⟨rfl, rfl⟩ | ⟨first, second, rfl⟩
    · exact .division left right position
    · exact .arithmetic left right position first second hmem
  have hordering : operator ∈ orderings → operator.applyOrdering a b position = .error error →
      (Expr.binary operator left right position).Raises error := by
    intro hmem herror
    obtain ⟨first, second, rfl⟩ := applyOrdering_eq_error hmem herror
    exact .ordering left right position first second hmem
  cases operator with
  | add | subtract | multiply | divide | power => exact harithmetic (by decide) h
  | less | lessEqual | greater | greaterEqual => exact hordering (by decide) h
  | equal | notEqual | contains | within => contradiction

theorem UnaryOperator.raises_apply {operator : UnaryOperator} {value : Value} (operand : Expr)
    (h : operator.apply value position = .error error) :
    (Expr.unary operator operand position).Raises error := by
  cases operator with
  | not => contradiction
  | negate =>
      cases value with
      | number n => contradiction
      | _ =>
          obtain rfl := Except.error.inj h
          exact .negation operand position _

theorem Value.raises_isBetween {a b c : Value} (subject lower upper : Expr)
    (h : a.isBetween b c position = .error error) :
    (Expr.between subject lower upper position).Raises error := by
  have hordering : ∀ left right : Value,
      BinaryOperator.lessEqual.applyOrdering left right position = .error error →
      (Expr.between subject lower upper position).Raises error := by
    intro left right herror
    obtain ⟨first, second, rfl⟩ := BinaryOperator.applyOrdering_eq_error (by decide) herror
    exact .range subject lower upper position first second
  rcases error_of_bind_eq_error h with hlower | ⟨above, -, hmore⟩
  · exact hordering _ _ hlower
  · split at hmore
    · exact hordering _ _ hmore
    · contradiction

theorem Environment.raises_lookup {env : Environment} {word : String}
    (h : env.lookup word position = .error error) : (Expr.name word position).Raises error := by
  unfold lookup at h
  split at h
  · contradiction
  · obtain rfl := Except.error.inj h
    exact .undefined word position

end Apply

/-! ## Steps that fail only with some errors -/

namespace Evaluation

variable {α β : Type} {errors : RuntimeError → Prop}

/-- Whatever the environment, an error of the step is among these. -/
def FailsOnly (errors : RuntimeError → Prop) (step : Evaluation α) : Prop :=
  ∀ env error, (step.outcome env).1 = .error error → errors error

theorem FailsOnly.mono {more : RuntimeError → Prop} {step : Evaluation α}
    (h : FailsOnly errors step) (hmore : ∀ error, errors error → more error) :
    FailsOnly more step :=
  fun env error herror => hmore error (h env error herror)

theorem FailsOnly.pure (value : α) : FailsOnly errors (Pure.pure value : Evaluation α) := by
  intro env error h
  contradiction

theorem FailsOnly.ofResult {result : Except RuntimeError α}
    (h : ∀ error, result = .error error → errors error) : FailsOnly errors (ofResult result) :=
  fun _ => h

theorem FailsOnly.read {result : Environment → Except RuntimeError α}
    (h : ∀ env error, result env = .error error → errors error) : FailsOnly errors (read result) :=
  h

theorem FailsOnly.write (change : Environment → Environment) :
    FailsOnly errors (write change) := by
  intro env error h
  contradiction

theorem FailsOnly.bind {step : Evaluation α} {next : α → Evaluation β}
    (hstep : FailsOnly errors step) (hnext : ∀ value, FailsOnly errors (next value)) :
    FailsOnly errors (step >>= next) := by
  intro env error h
  have hfirst := hstep env
  rw [outcome_bind] at h
  rcases houtcome : step.outcome env with ⟨_ | value, after⟩
  · rw [houtcome] at h hfirst
    exact hfirst error (congrArg Except.error (Except.error.inj h))
  · rw [houtcome] at h
    exact hnext value after error h

end Evaluation

/-! ## Trees -/

namespace Expr

open Evaluation

mutual

/-- **Every error of an evaluation is raised by a node of the tree.** -/
theorem failsOnly_eval : ∀ tree : Expr, FailsOnly tree.RaisesWithin tree.eval
  | number _ _ | text _ _ | truth _ _ => .pure _
  | name _ _ => .read fun _ _ h => (Environment.raises_lookup h).within
  | member object _ _ =>
    ((failsOnly_eval object).mono fun _ h => h.below (by simp [parts])).bind fun _ => .pure _
  | array elements _ =>
    ((failsOnly_evalAll elements).mono fun _ ⟨_, hpart, h⟩ => h.below hpart).bind fun _ => .pure _
  | unary _ operand _ =>
    ((failsOnly_eval operand).mono fun _ h => h.below (by simp [parts])).bind fun _ =>
      .ofResult fun _ h => (UnaryOperator.raises_apply operand h).within
  | binary _ left right _ =>
    ((failsOnly_eval left).mono fun _ h => h.below (by simp [parts])).bind fun _ =>
      ((failsOnly_eval right).mono fun _ h => h.below (by simp [parts])).bind fun _ =>
        .ofResult fun _ h => (BinaryOperator.raises_apply left right h).within
  | logical operator left right position => by
    have hright : FailsOnly (logical operator left right position).RaisesWithin right.eval :=
      (failsOnly_eval right).mono fun _ h => h.below (by simp [parts])
    cases operator <;>
    · refine ((failsOnly_eval left).mono fun _ h => h.below (by simp [parts])).bind fun value => ?_
      split
      all_goals first
        | exact .pure _
        | exact hright.bind fun _ => .pure _
  | group inner _ => (failsOnly_eval inner).mono fun _ h => h.below (by simp [parts])
  | assign target value position => by
    unfold eval
    split
    · -- with a target that is a path only the value can fail
      exact ((failsOnly_eval value).mono fun _ h => h.below (by simp [parts])).bind fun _ =>
        (FailsOnly.write _).bind fun _ => .pure _
    · next hpath =>
      refine .ofResult fun error h => ?_
      obtain rfl := Except.error.inj h
      exact (Raises.target value position hpath).within
  | between subject lower upper _ =>
    ((failsOnly_eval subject).mono fun _ h => h.below (by simp [parts])).bind fun _ =>
      ((failsOnly_eval lower).mono fun _ h => h.below (by simp [parts])).bind fun _ =>
        ((failsOnly_eval upper).mono fun _ h => h.below (by simp [parts])).bind fun _ =>
          .ofResult fun _ h => (Value.raises_isBetween subject lower upper h).within

theorem failsOnly_evalAll : ∀ trees : List Expr,
    FailsOnly (fun error => ∃ tree ∈ trees, tree.RaisesWithin error) (evalAll trees)
  | [] => .pure _
  | tree :: trees =>
    ((failsOnly_eval tree).mono fun _ h => ⟨tree, List.mem_cons_self, h⟩).bind fun _ =>
      ((failsOnly_evalAll trees).mono fun _ ⟨other, hmem, h⟩ =>
        ⟨other, List.mem_cons_of_mem _ hmem, h⟩).bind fun _ => .pure _

end

end Expr

end SurveyLogic

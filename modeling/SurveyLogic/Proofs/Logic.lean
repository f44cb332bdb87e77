import SurveyLogic.Proofs.Silence

/-!
# The algebra of short-circuit logic

`and`, `or` and `not` see of an operand only whether it comes out as true.  They look at their
operands from left to right and stop as soon as one of them decides, or fails.  So a tree in their
place is a test (`Expr.test`), and a logical operator joins two tests: `Expr.eval_logical`.

A Boolean law in which both sides look at the same operands in the same order holds of all tests,
also of those that fail or write.  Where one side looks at an operand a second time, the law asks
that nothing was written in between, so that the operand comes out as it did before.  Each law is
stated of one operator and its dual at once.  `Expr.logic_algebra` says what follows for trees.
-/

namespace SurveyLogic

/-! ## Operators on tests -/

namespace LogicalOperator

/-- The other operator. -/
def dual : LogicalOperator → LogicalOperator
  | .and => .or
  | .or => .and

/-- Whether the left operand settles the whole. -/
def decidedBy : LogicalOperator → Bool → Bool
  | .and, truth => !truth
  | .or, truth => truth

section Tests

variable {m : Type → Type} [Monad m]

/-- Looks at the second test only if the first one does not decide. -/
def join (operator : LogicalOperator) (x y : m Bool) : m Bool := do
  let truth ← x
  if operator.decidedBy truth then return truth else y

variable [LawfulMonad m] (operator : LogicalOperator) (x y z : m Bool)

theorem notM_notM : notM (notM x) = x := by
  simp [notM]

/-- The law of De Morgan. -/
theorem notM_join : notM (operator.join x y) = operator.dual.join (notM x) (notM y) := by
  simp only [notM, join, map_bind, bind_map_left]
  refine bind_congr fun truth => ?_
  cases operator <;> cases truth <;> simp [decidedBy, dual]

theorem join_assoc :
    operator.join (operator.join x y) z = operator.join x (operator.join y z) := by
  simp only [join, bind_assoc]
  refine bind_congr fun truth => ?_
  cases operator <;> cases truth <;> simp [decidedBy]

theorem join_or_false : LogicalOperator.or.join x (pure false) = x := by
  calc LogicalOperator.or.join x (pure false) = x >>= pure := by
        refine bind_congr fun truth => ?_
        cases truth <;> rfl
    _ = x := bind_pure x

end Tests

end LogicalOperator

/-! ## Tests that write nothing -/

namespace Evaluation

variable {α β : Type} {x y : Evaluation Bool}

theorem outcome_map (f : α → β) (step : Evaluation α) (env : Environment) :
    outcome (f <$> step) env = ((outcome step env).1.map f, (outcome step env).2) := by
  rw [map_eq_pure_bind, outcome_bind]
  rcases outcome step env with ⟨_ | value, after⟩ <;> rfl

theorem outcome_join (operator : LogicalOperator) (x y : Evaluation Bool) (env : Environment) :
    outcome (operator.join x y) env =
      match outcome x env with
      | (.ok truth, after) =>
        if operator.decidedBy truth then (.ok truth, after) else outcome y after
      | (.error error, after) => (.error error, after) := by
  rw [LogicalOperator.join, outcome_bind]
  rcases outcome x env with ⟨error | truth, after⟩
  · rfl
  · dsimp only
    split <;> rfl

theorem Silent.map {step : Evaluation α} (h : Silent step) (f : α → β) : Silent (f <$> step) := by
  intro env
  rw [outcome_map]
  exact h env

theorem Silent.exists_outcome {step : Evaluation α} (h : Silent step) (env : Environment) :
    ∃ result, step.outcome env = (result, env) :=
  ⟨(step.outcome env).1, Prod.ext rfl (h env)⟩

theorem join_self (hx : Silent x) (operator : LogicalOperator) : operator.join x x = x := by
  funext env
  show outcome (operator.join x x) env = outcome x env
  obtain ⟨result, hresult⟩ := hx.exists_outcome env
  cases result with
  | error error => simp only [outcome_join, hresult]
  | ok truth => simp only [outcome_join, hresult, ite_self]

/-- If the first operand does not decide and the second one does, the first one is looked at a
second time, and comes out as before. -/
theorem join_distrib (hx : Silent x) (hy : Silent y) (z : Evaluation Bool)
    (operator : LogicalOperator) : operator.join x (operator.dual.join y z) =
      operator.dual.join (operator.join x y) (operator.join x z) := by
  funext env
  show outcome (operator.join x (operator.dual.join y z)) env =
    outcome (operator.dual.join (operator.join x y) (operator.join x z)) env
  obtain ⟨first, hfirst⟩ := hx.exists_outcome env
  obtain ⟨second, hsecond⟩ := hy.exists_outcome env
  cases first with
  | error error => simp only [outcome_join, hfirst]
  | ok truth =>
      by_cases hdecides : operator.decidedBy truth = true
      · -- both parts of the right-hand side are settled by the first operand, with the same result
        simp only [outcome_join, hfirst, if_pos hdecides, ite_self]
      · cases second with
        | error error => simp only [outcome_join, hfirst, hsecond, if_neg hdecides]
        | ok truth' => simp only [outcome_join, hfirst, hsecond, if_neg hdecides]

end Evaluation

/-! ## Trees as tests -/

namespace Expr

open Evaluation

/-- Whether the value of a tree counts as true. -/
def test (tree : Expr) : Evaluation Bool := Value.isTruthy <$> tree.eval

/-- The tree has no other values than truth values. -/
def IsTest (tree : Expr) : Prop := tree.eval = Value.truth <$> tree.test

/-- Wherever they are evaluated, the two trees have the same truth value or fail with the same error
at the same position, and leave the same environment behind. -/
structure Equivalent (a b : Expr) : Prop where
  outcome_eq : ∀ env, a.eval.outcome env = b.eval.outcome env
  truth : ∀ env value, (a.eval.outcome env).1 = .ok value → ∃ truth, value = .truth truth

theorem silent_test {tree : Expr} (h : tree.assignmentFree = true) : Silent tree.test :=
  (silent_eval tree h).map _

theorem test_of_eval {tree : Expr} {x : Evaluation Bool} (h : tree.eval = Value.truth <$> x) :
    tree.test = x := by
  unfold test
  rw [h, Functor.map_map]
  exact id_map x

theorem isTest_of_eval {tree : Expr} {x : Evaluation Bool} (h : tree.eval = Value.truth <$> x) :
    tree.IsTest := by
  unfold IsTest
  rw [test_of_eval h, h]

theorem IsTest.equivalent {a b : Expr} (ha : a.IsTest) (hb : b.IsTest) (h : a.test = b.test) :
    a.Equivalent b where
  outcome_eq env := by rw [ha, hb, h]
  truth env value hvalue := by
    rw [ha, outcome_map] at hvalue
    cases hresult : (a.test.outcome env).1 with
    | error error =>
        rw [hresult] at hvalue
        contradiction
    | ok truth =>
        rw [hresult] at hvalue
        exact ⟨truth, (Except.ok.inj hvalue).symm⟩

section Connectives

variable (operator : LogicalOperator) (a b : Expr) (position : Nat)

theorem eval_logical : (logical operator a b position).eval =
    Value.truth <$> operator.join a.test b.test := by
  cases operator <;>
  · rw [eval]
    simp only [test, LogicalOperator.join, map_bind, bind_map_left]
    refine bind_congr fun value => ?_
    cases value.isTruthy <;> simp [LogicalOperator.decidedBy]

theorem eval_not : (unary .not a position).eval = Value.truth <$> notM a.test := by
  have happly : ∀ value : Value, ofResult (UnaryOperator.not.apply value position) =
      (pure (.truth !value.isTruthy) : Evaluation Value) := fun _ => rfl
  rw [eval]
  simp only [happly, test, notM, map_eq_pure_bind, bind_assoc, pure_bind]

@[simp] theorem test_logical :
    (logical operator a b position).test = operator.join a.test b.test :=
  test_of_eval (eval_logical operator a b position)

@[simp] theorem test_not : (unary .not a position).test = notM a.test :=
  test_of_eval (eval_not a position)

@[simp] theorem test_false : (truth false position).test = pure false := rfl

theorem isTest_logical : (logical operator a b position).IsTest :=
  isTest_of_eval (eval_logical operator a b position)

theorem isTest_not : (unary .not a position).IsTest := isTest_of_eval (eval_not a position)

end Connectives

/-- The left operand has no value that leaves the whole to the right one. -/
def Decisive (a : Expr) (operator : LogicalOperator) (env : Environment) : Prop :=
  ∀ value, (a.eval.outcome env).1 = .ok value → operator.decidedBy value.isTruthy = true

/-- Where the left operand decides, nobody looks at the right one. -/
theorem Decisive.outcome_eq {a : Expr} {operator : LogicalOperator} {env : Environment}
    (h : a.Decisive operator env) (b c : Expr) (position : Nat) :
    (logical operator a b position).eval.outcome env =
      (logical operator a c position).eval.outcome env := by
  have hjoin : ∀ right : Expr, outcome (operator.join a.test right.test) env =
      outcome a.test env := by
    intro right
    rw [outcome_join, test, outcome_map]
    cases hvalue : (outcome a.eval env).1 with
    | error error => rfl
    | ok value => simp only [Except.map, h value hvalue, if_true]
  rw [eval_logical, eval_logical, outcome_map, outcome_map, hjoin, hjoin]

/-- **Short-circuit logic keeps its algebra.**  The laws of De Morgan, associativity and double
negation hold of all trees, whatever their operands write and wherever they fail.  Distributivity
and idempotence hold where the operands that are looked at again, and those in between, have no
assignments.  Where the left operand decides or fails, any other right operand does as well. -/
theorem logic_algebra (a b c : Expr) (p q r s t : Nat) :
    Equivalent (unary .not (logical .and a b p) q)
      (logical .or (unary .not a r) (unary .not b s) t) ∧
    Equivalent (unary .not (logical .or a b p) q)
      (logical .and (unary .not a r) (unary .not b s) t) ∧
    (∀ operator, Equivalent (logical operator (logical operator a b p) c q)
      (logical operator a (logical operator b c r) s)) ∧
    Equivalent (unary .not (unary .not a p) q) (logical .or a (truth false r) s) ∧
    (a.assignmentFree = true →
      ∀ operator, Equivalent (logical operator a a p) (unary .not (unary .not a q) r)) ∧
    (a.assignmentFree = true → b.assignmentFree = true →
      Equivalent (logical .and a (logical .or b c p) q)
        (logical .or (logical .and a b r) (logical .and a c s) t) ∧
      Equivalent (logical .or a (logical .and b c p) q)
        (logical .and (logical .or a b r) (logical .or a c s) t)) ∧
    (∀ operator env, a.Decisive operator env →
      (logical operator a b p).eval.outcome env = (logical operator a c p).eval.outcome env) := by
  have hdeMorgan : ∀ operator : LogicalOperator, Equivalent (unary .not (logical operator a b p) q)
      (logical operator.dual (unary .not a r) (unary .not b s) t) := fun operator => by
    refine (isTest_not _ _).equivalent (isTest_logical _ _ _ _) ?_
    simp only [test_not, test_logical, LogicalOperator.notM_join]
  have hdistrib : a.assignmentFree = true → b.assignmentFree = true →
      ∀ operator : LogicalOperator,
        Equivalent (logical operator a (logical operator.dual b c p) q)
          (logical operator.dual (logical operator a b r) (logical operator a c s) t) := by
    intro ha hb operator
    refine (isTest_logical _ _ _ _).equivalent (isTest_logical _ _ _ _) ?_
    simp only [test_logical, join_distrib (silent_test ha) (silent_test hb)]
  refine ⟨hdeMorgan .and, hdeMorgan .or, fun operator => ?_, ?_, fun ha operator => ?_,
    fun ha hb => ⟨hdistrib ha hb .and, hdistrib ha hb .or⟩,
    fun operator env h => h.outcome_eq b c p⟩
  · refine (isTest_logical _ _ _ _).equivalent (isTest_logical _ _ _ _) ?_
    simp only [test_logical, LogicalOperator.join_assoc]
  · refine (isTest_not _ _).equivalent (isTest_logical _ _ _ _) ?_
    simp only [test_not, test_logical, test_false, LogicalOperator.notM_notM,
      LogicalOperator.join_or_false]
  · refine (isTest_logical _ _ _ _).equivalent (isTest_not _ _) ?_
    simp only [test_not, test_logical, LogicalOperator.notM_notM, join_self (silent_test ha)]

/-- The assignment `seen = true`. -/
def noteSeen : Expr := assign (name "seen" 0) (truth true 7) 5

/-- An operand that writes in front of one that fails, and an unbound name beside a truth value. -/
theorem logic_algebra_seen :
    Equivalent (unary .not (logical .and noteSeen (name "age" 12) 8) 0)
      (logical .or (unary .not noteSeen 0) (unary .not (name "age" 12) 8) 4) ∧
    (truth true 0).assignmentFree = true ∧ (name "age" 5).assignmentFree = true ∧
    Equivalent (logical .and (truth true 0) (logical .or (name "age" 5) noteSeen 8) 2)
      (logical .or (logical .and (truth true 0) (name "age" 5) 3)
        (logical .and (truth true 0) noteSeen 6) 4) ∧
    (truth false 0).Decisive .and .empty ∧
    (logical .and (truth false 0) (name "age" 5) 3).eval.outcome .empty =
      (logical .and (truth false 0) noteSeen 3).eval.outcome .empty := by
  have hdecisive : (truth false 0).Decisive .and .empty := by
    rintro value ⟨rfl⟩
    rfl
  refine ⟨(logic_algebra noteSeen (name "age" 12) (truth true 0) 8 0 0 8 4).1, rfl, rfl, ?_,
    hdecisive, ?_⟩
  · exact ((logic_algebra (truth true 0) (name "age" 5) noteSeen 8 2 3 6 4).2.2.2.2.2.1 rfl rfl).1
  · exact (logic_algebra (truth false 0) (name "age" 5) noteSeen 3 0 0 0 0).2.2.2.2.2.2 .and .empty
      hdecisive

end Expr

end SurveyLogic

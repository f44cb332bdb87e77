import SurveyLogic.Proofs.Errors.Raised
import SurveyLogic.Proofs.Value.Parts

/-!
# Order and equality agree

Order and loose equality convert values by rules of their own, and draw the same line where there is
an order: of two values exactly one is less than the other, or they are equal
(`looselyEquals_of_order?`).  Seen from the other side the order is turned round (`order?_swap`), so
that an ordering operator and its converse agree.

The order of two values does not depend on the place where it is asked for, and neither does
whether they have one: `Value.order?` is the order without its position.  The range test is two
tests of which the second one is only made if the first one holds, in the order in which they stand
in `lower <= subject and subject <= upper`.
-/

namespace SurveyLogic

/-- A number that a text stands for is finite. -/
theorem Number.isNaN_of_ofAnswer? {text : String} {n : Number} (h : ofAnswer? text = some n) :
    n.isNaN = false := by
  unfold ofAnswer? at h
  dsimp only at h
  split at h
  · obtain rfl := Option.some.inj h
    decide
  · have hfinite := (Option.filter_eq_some_iff.mp h).2
    simp only [isFinite, decide_eq_true_eq] at hfinite
    simp only [isNaN, decide_eq_false_iff_not]
    omega

namespace Value

variable {a b : Value}

/-! ## The order without its position -/

/-- The order of two values, `none` inside where they have none; `none` if it cannot be asked
for. -/
def order? (a b : Value) : Option (Option Ordering) := (a.order b 0).toOption

theorem order_eq (a b : Value) (position : Nat) :
    a.order b position =
      match a.order? b with
      | some order => .ok order
      | none => .error (.kindMismatch (.ordering a.kind b.kind) position) := by
  unfold order?
  cases a with
  | number n =>
      cases b with
      | text s =>
          simp only [order]
          cases Number.ofAnswer? s <;> rfl
      | _ => rfl
  | text s =>
      cases b with
      | number n =>
          simp only [order]
          cases Number.ofAnswer? s <;> rfl
      | _ => rfl
  | _ => cases b <;> rfl

theorem order?_of_order {position : Nat} {order : Option Ordering}
    (h : a.order b position = .ok order) : a.order? b = some order := by
  rw [order_eq] at h
  cases horder : a.order? b with
  | none =>
      rw [horder] at h
      contradiction
  | some other =>
      rw [horder] at h
      rw [Except.ok.inj h]

/-- Seen from the other side the order is turned round. -/
theorem order?_swap (a b : Value) :
    b.order? a = (a.order? b).map (Option.map Ordering.swap) := by
  unfold order?
  cases a with
  | number n =>
      cases b with
      | number m => exact congrArg some (Number.compare?_swap n m)
      | text s =>
          simp only [order]
          cases Number.ofAnswer? s with
          | none => rfl
          | some m => exact congrArg some (Number.compare?_swap n m)
      | _ => rfl
  | text s =>
      cases b with
      | number n =>
          simp only [order]
          cases Number.ofAnswer? s with
          | none => rfl
          | some m => exact congrArg some (Number.compare?_swap m n)
      | text t => exact congrArg (fun order => some (some order)) Std.OrientedCmp.eq_swap
      | _ => rfl
  | _ => cases b <;> rfl

/-! ## What is compared -/

/-- The value is a number or a text that reads as one. -/
def StandsFor (value : Value) (n : Number) : Prop :=
  value = number n ∨ ∃ s, value = text s ∧ Number.ofAnswer? s = some n

/-- A text never stands for a NaN. -/
theorem StandsFor.isNaN_eq {value : Value} {n : Number} (h : value.StandsFor n) :
    value.isNaN = n.isNaN := by
  rcases h with rfl | ⟨s, rfl, hread⟩
  · rfl
  · exact (Number.isNaN_of_ofAnswer? hread).symm

/-- How the order of two values comes about: there is none beside a missing value, numbers and texts
that read as numbers are compared as numbers, in step with loose equality, and texts as texts. -/
inductive Compared (a b : Value) : Option (Option Ordering) → Prop
  | missing : a = .missing ∨ b = .missing → Compared a b (some none)
  | numbers {n m : Number} : a.StandsFor n → b.StandsFor m → a.looselyEquals b = n.equals m →
    Compared a b (some (n.compare? m))
  | texts {s t : String} : a = .text s → b = .text t → Compared a b (some (some (compare s t)))
  | apart : Compared a b none

theorem compared (a b : Value) : Compared a b (a.order? b) := by
  unfold order?
  cases a with
  | missing => exact .missing (Or.inl rfl)
  | number n =>
      cases b with
      | missing => exact .missing (Or.inr rfl)
      | number m => exact .numbers (Or.inl rfl) (Or.inl rfl) rfl
      | text s =>
          simp only [order]
          -- a number and a text have an order when the text reads as a number
          cases hread : Number.ofAnswer? s with
          | none => exact .apart
          | some m =>
              refine .numbers (Or.inl rfl) (Or.inr ⟨s, rfl, hread⟩) ?_
              simp only [looselyEquals, scalar?, Scalar.equals, Number.matchesText, hread]
              exact Number.equals_comm m n
      | _ => exact .apart
  | text s =>
      cases b with
      | missing => exact .missing (Or.inr rfl)
      | number m =>
          simp only [order]
          cases hread : Number.ofAnswer? s with
          | none => exact .apart
          | some n =>
              refine .numbers (Or.inr ⟨s, rfl, hread⟩) (Or.inl rfl) ?_
              simp only [looselyEquals, scalar?, Scalar.equals, Number.matchesText, hread]
      -- two texts are compared as they stand, also where both read as numbers
      | text t => exact .texts rfl rfl
      | _ => exact .apart
  | _ =>
      cases b with
      | missing => exact .missing (Or.inr rfl)
      | _ => exact .apart

/-- Where values have an order, they are loosely equal when neither comes first. -/
theorem looselyEquals_of_order? {ordering : Ordering} (h : a.order? b = some (some ordering)) :
    a.looselyEquals b = (ordering == .eq) := by
  have hcompared := compared a b
  generalize a.order? b = order at h hcompared
  cases hcompared with
  | missing _ => cases Option.some.inj h
  | apart => contradiction
  | @numbers n m _ _ hequal =>
      have hcompare : n.compare? m = some ordering := Option.some.inj h
      rw [hequal, Number.equals, hcompare]
      rfl
  | @texts s t hs ht =>
      obtain rfl : compare s t = ordering := Option.some.inj (Option.some.inj h)
      rw [hs, ht]
      simp only [looselyEquals, scalar?, Scalar.equals]
      rw [Bool.eq_iff_iff, beq_iff_eq, beq_iff_eq, Std.compare_eq_iff_eq]

/-- Values have no order beside a missing value and beside a NaN. -/
theorem missing_or_isNaN_of_order? (h : a.order? b = some none) :
    (a = missing ∨ b = missing) ∨ a.isNaN = true ∨ b.isNaN = true := by
  have hcompared := compared a b
  generalize a.order? b = order at h hcompared
  cases hcompared with
  | missing hmissing => exact Or.inl hmissing
  | @numbers n m hn hm _ =>
      have hcompare : n.compare? m = none := Option.some.inj h
      rw [hn.isNaN_eq, hm.isNaN_eq]
      unfold Number.compare? at hcompare
      split at hcompare
      · next hnan => exact Or.inr (by simpa using hnan)
      · contradiction
  | texts _ _ => cases Option.some.inj h
  | apart => contradiction

end Value

/-! ## Operators -/

namespace BinaryOperator

variable {a b : Value} {position : Nat}

/-- The operator that holds when the operands are exchanged. -/
def converse : BinaryOperator → BinaryOperator
  | less => greater
  | lessEqual => greaterEqual
  | greater => less
  | greaterEqual => lessEqual
  | other => other

/-- An ordering operator holds of values whose order it admits, and of no others. -/
theorem apply_eq_of_admits {operator : BinaryOperator} {admits : Ordering → Bool}
    (h : operator.admits? = some admits) (a b : Value) (position : Nat) :
    operator.apply a b position =
      match a.order? b with
      | some order => .ok (.truth (order.any admits))
      | none => .error (.kindMismatch (.ordering a.kind b.kind) position) := by
  have happly : operator.apply a b position = operator.applyOrdering a b position := by
    cases operator <;> first
      | rfl
      | contradiction
  rw [happly, applyOrdering, Value.order_eq]
  cases a.order? b with
  | none => rfl
  | some order =>
      cases order with
      | none => rfl
      | some ordering =>
          rw [ok_bind]
          simp only [h, Option.any_some]

theorem exists_admits {operator : BinaryOperator} (h : operator ∈ orderings) :
    ∃ admits, operator.admits? = some admits ∧
      operator.converse.admits? = some fun ordering => admits ordering.swap := by
  have hcases : operator = less ∨ operator = lessEqual ∨ operator = greater ∨
      operator = greaterEqual := by
    simpa [orderings] using h
  rcases hcases with rfl | rfl | rfl | rfl
  all_goals
    refine ⟨_, rfl, congrArg some (funext fun ordering => ?_)⟩
    cases ordering <;> rfl

/-- An ordering operator says of two values what its converse says of them from the other side, or
neither can be asked. -/
theorem apply_converse {operator : BinaryOperator} (h : operator ∈ orderings) (a b : Value)
    (position : Nat) :
    (∃ holds, operator.apply a b position = .ok (.truth holds) ∧
      operator.converse.apply b a position = .ok (.truth holds)) ∨
    operator.apply a b position = .error (.kindMismatch (.ordering a.kind b.kind) position) ∧
      operator.converse.apply b a position =
        .error (.kindMismatch (.ordering b.kind a.kind) position) := by
  obtain ⟨admits, hadmits, hconverse⟩ := exists_admits h
  rw [apply_eq_of_admits hadmits, apply_eq_of_admits hconverse, Value.order?_swap a b]
  cases a.order? b with
  | none => exact Or.inr ⟨rfl, rfl⟩
  | some order =>
      refine Or.inl ⟨_, rfl, ?_⟩
      cases order with
      | none => rfl
      | some ordering => simp

/-- **One of three.**  Of two values that have an order, one is less, or they are equal, or the
other one is less. -/
theorem exists_apply_of_order {ordering : Ordering} (h : a.order b position = .ok (some ordering)) :
    ∃ isLess isGreater : Bool,
      less.apply a b position = .ok (.truth isLess) ∧
      greater.apply a b position = .ok (.truth isGreater) ∧
      [isLess, a.looselyEquals b, isGreater].count true = 1 ∧
      lessEqual.apply a b position = .ok (.truth (isLess || a.looselyEquals b)) ∧
      greaterEqual.apply a b position = .ok (.truth (isGreater || a.looselyEquals b)) := by
  have horder := Value.order?_of_order h
  have hequal := Value.looselyEquals_of_order? horder
  refine ⟨ordering.isLT, ordering.isGT, ?_, ?_, ?_, ?_, ?_⟩
  · rw [apply_eq_of_admits rfl, horder]
    rfl
  · rw [apply_eq_of_admits rfl, horder]
    rfl
  · rw [hequal]
    cases ordering <;> rfl
  · rw [apply_eq_of_admits rfl, horder, hequal]
    cases ordering <;> rfl
  · rw [apply_eq_of_admits rfl, horder, hequal]
    cases ordering <;> rfl

/-- Values without an order are in none of the four relations. -/
theorem apply_of_order_none {operator : BinaryOperator} (hoperator : operator ∈ orderings)
    (h : a.order b position = .ok none) : operator.apply a b position = .ok (.truth false) := by
  obtain ⟨admits, hadmits, -⟩ := exists_admits hoperator
  rw [apply_eq_of_admits hadmits, Value.order?_of_order h]
  rfl

end BinaryOperator

/-! ## The range test -/

namespace Value

/-- Two tests of which the second one is only made if the first one holds. -/
def bothHold (first second : Except RuntimeError Value) : Except RuntimeError Value := do
  if (← first).isTruthy then return .truth (← second).isTruthy else return .truth false

/-- The range test is the test of the lower bound and then that of the upper one. -/
theorem isBetween_eq (subject lower upper : Value) (position : Nat) :
    subject.isBetween lower upper position =
      bothHold (BinaryOperator.lessEqual.apply lower subject position)
        (BinaryOperator.lessEqual.apply subject upper position) := by
  unfold isBetween bothHold
  change (BinaryOperator.lessEqual.apply lower subject position >>= _) = _
  rw [BinaryOperator.apply_eq_of_admits rfl lower subject]
  cases lower.order? subject with
  | none => rfl
  | some order =>
      simp only [ok_bind, isTruthy]
      cases order.any Ordering.isLE with
      | false => rfl
      | true =>
          change BinaryOperator.lessEqual.apply subject upper position = _
          rw [BinaryOperator.apply_eq_of_admits rfl subject upper]
          cases subject.order? upper <;> rfl

/-- The same truth value, or an error for the same kinds of values, wherever it is. -/
inductive SameTest : Except RuntimeError Value → Except RuntimeError Value → Prop
  | truth (holds : Bool) : SameTest (.ok (.truth holds)) (.ok (.truth holds))
  | mismatch (mismatch : KindMismatch) (position other : Nat) :
    SameTest (.error (.kindMismatch mismatch position)) (.error (.kindMismatch mismatch other))

theorem sameTest_lessEqual (a b : Value) (position other : Nat) :
    SameTest (BinaryOperator.lessEqual.apply a b position)
      (BinaryOperator.lessEqual.apply a b other) := by
  rw [BinaryOperator.apply_eq_of_admits rfl, BinaryOperator.apply_eq_of_admits rfl]
  cases a.order? b with
  | none => exact .mismatch _ _ _
  | some order => exact .truth _

theorem SameTest.bothHold {first second first' second' : Except RuntimeError Value}
    (h : SameTest first first') (h' : SameTest second second') :
    SameTest (bothHold first second) (bothHold first' second') := by
  cases h with
  | mismatch mismatch position other => exact .mismatch mismatch position other
  | truth holds =>
      cases holds with
      | false => exact .truth false
      | true =>
          cases h' with
          | mismatch mismatch position other => exact .mismatch mismatch position other
          | truth holds => exact .truth holds

end Value

namespace Expr

open Evaluation

variable {subject lower upper : Expr} {env : Environment} {s low high : Value}

theorem outcome_between (hsubject : subject.eval.outcome env = (.ok s, env))
    (hlower : lower.eval.outcome env = (.ok low, env))
    (hupper : upper.eval.outcome env = (.ok high, env)) (position : Nat) :
    (between subject lower upper position).eval.outcome env =
      (s.isBetween low high position, env) := by
  simp only [eval, outcome_bind, hsubject, hlower, hupper, outcome_ofResult]

theorem outcome_binary {operator : BinaryOperator} {left right : Expr} {a b : Value}
    (hleft : left.eval.outcome env = (.ok a, env))
    (hright : right.eval.outcome env = (.ok b, env)) (position : Nat) :
    (binary operator left right position).eval.outcome env =
      (operator.apply a b position, env) := by
  simp only [eval, outcome_bind, hleft, hright, outcome_ofResult]

theorem outcome_and {left right : Expr} {first second : Except RuntimeError Value}
    (hleft : left.eval.outcome env = (first, env))
    (hright : right.eval.outcome env = (second, env)) (position : Nat) :
    (logical .and left right position).eval.outcome env = (Value.bothHold first second, env) := by
  simp only [eval, outcome_bind, hleft]
  cases first with
  | error error => rfl
  | ok a =>
      simp only [Value.bothHold, ok_bind]
      split
      · rw [outcome_bind, hright]
        cases second <;> rfl
      · rfl

/-- A range test does what the two comparisons do that it stands for, as long as its parts have
values and write nothing. -/
theorem between_as_and (hsubject : subject.eval.outcome env = (.ok s, env))
    (hlower : lower.eval.outcome env = (.ok low, env))
    (hupper : upper.eval.outcome env = (.ok high, env))
    (position first second both : Nat) :
    ∃ test other,
      (between subject lower upper position).eval.outcome env = (test, env) ∧
      (logical .and (binary .lessEqual lower subject first)
        (binary .lessEqual subject upper second) both).eval.outcome env = (other, env) ∧
      Value.SameTest test other := by
  refine ⟨_, _, outcome_between hsubject hlower hupper position,
    outcome_and (outcome_binary hlower hsubject first) (outcome_binary hsubject hupper second) both,
    ?_⟩
  rw [Value.isBetween_eq]
  exact (Value.sameTest_lessEqual low s position first).bothHold
    (Value.sameTest_lessEqual s high position second)

end Expr

/-! ## All together -/

/-- **Order, loose equality and the range test agree.**  An ordering operator says the same as its
converse from the other side, or both fail because of the kinds of the values.  Of two values that
have an order exactly one is less or they are equal, and the operators that admit equality hold in
the two cases that they name.  Values that have none, because one is missing or a NaN, are in none
of the four relations.  The range test is two tests, of which the second one is made if the first
one holds, and a range in a tree does what the two comparisons do. -/
theorem ordering_coherent :
    (∀ operator ∈ BinaryOperator.orderings, ∀ (a b : Value) (position : Nat),
      (∃ holds, operator.apply a b position = .ok (.truth holds) ∧
        operator.converse.apply b a position = .ok (.truth holds)) ∨
      operator.apply a b position = .error (.kindMismatch (.ordering a.kind b.kind) position) ∧
        operator.converse.apply b a position =
          .error (.kindMismatch (.ordering b.kind a.kind) position)) ∧
    (∀ (a b : Value) (position : Nat) (ordering : Ordering),
      a.order b position = .ok (some ordering) → ∃ isLess isGreater : Bool,
        BinaryOperator.less.apply a b position = .ok (.truth isLess) ∧
        BinaryOperator.greater.apply a b position = .ok (.truth isGreater) ∧
        [isLess, a.looselyEquals b, isGreater].count true = 1 ∧
        BinaryOperator.lessEqual.apply a b position =
          .ok (.truth (isLess || a.looselyEquals b)) ∧
        BinaryOperator.greaterEqual.apply a b position =
          .ok (.truth (isGreater || a.looselyEquals b))) ∧
    (∀ (a b : Value) (position : Nat), a.order b position = .ok none →
      ((a = .missing ∨ b = .missing) ∨ a.isNaN = true ∨ b.isNaN = true) ∧
      ∀ operator ∈ BinaryOperator.orderings, operator.apply a b position = .ok (.truth false)) ∧
    (∀ (subject lower upper : Value) (position : Nat), subject.isBetween lower upper position =
      Value.bothHold (BinaryOperator.lessEqual.apply lower subject position)
        (BinaryOperator.lessEqual.apply subject upper position)) ∧
    (∀ (subject lower upper : Expr) (env : Environment) (s low high : Value),
      subject.eval.outcome env = (.ok s, env) → lower.eval.outcome env = (.ok low, env) →
      upper.eval.outcome env = (.ok high, env) → ∀ position first second both : Nat,
      ∃ test other,
        (Expr.between subject lower upper position).eval.outcome env = (test, env) ∧
        (Expr.logical .and (.binary .lessEqual lower subject first)
          (.binary .lessEqual subject upper second) both).eval.outcome env = (other, env) ∧
        Value.SameTest test other) := by
  refine ⟨fun operator hoperator a b position =>
      BinaryOperator.apply_converse hoperator a b position,
    fun a b position ordering h => BinaryOperator.exists_apply_of_order h,
    fun a b position h => ⟨Value.missing_or_isNaN_of_order? (Value.order?_of_order h),
      fun operator hoperator => BinaryOperator.apply_of_order_none hoperator h⟩,
    Value.isBetween_eq, ?_⟩
  intro subject lower upper env s low high hsubject hlower hupper position first second both
  exact Expr.between_as_and hsubject hlower hupper position first second both

/-- A number and a text that is equal to it, a NaN, and a range around a text that is no number. -/
theorem ordering_coherent_age :
    BinaryOperator.lessEqual ∈ BinaryOperator.orderings ∧
    BinaryOperator.lessEqual.converse.apply (.text "1.0") (.number .one) 3 = .ok (.truth true) ∧
    (Value.number .one).order (.text "1.0") 3 = .ok (some .eq) ∧
    (∃ isLess isGreater : Bool,
      BinaryOperator.less.apply (.number .one) (.text "1.0") 3 = .ok (.truth isLess) ∧
      BinaryOperator.greater.apply (.number .one) (.text "1.0") 3 = .ok (.truth isGreater) ∧
      [isLess, (Value.number .one).looselyEquals (.text "1.0"), isGreater].count true = 1) ∧
    (Value.number (.nan false)).order (.number .one) 0 = .ok none ∧
    BinaryOperator.lessEqual.apply (.number (.nan false)) (.number .one) 0 = .ok (.truth false) ∧
    ∃ test other,
      (Expr.between (.name "age" 0) (.number .zero 15) (.number .one 21) 4).eval.outcome
        ⟨[("age", .text "old")]⟩ = (test, ⟨[("age", .text "old")]⟩) ∧
      (Expr.logical .and (.binary .lessEqual (.number .zero 0) (.name "age" 5) 2)
        (.binary .lessEqual (.name "age" 13) (.number .one 20) 17) 9).eval.outcome
        ⟨[("age", .text "old")]⟩ = (other, ⟨[("age", .text "old")]⟩) ∧
      Value.SameTest test other := by
  obtain ⟨hconverse, hthree, hnone, -, hrange⟩ := ordering_coherent
  have hmem : BinaryOperator.lessEqual ∈ BinaryOperator.orderings := by decide
  have hread : Number.ofAnswer? "1.0" = some .one := by decide +kernel
  have horder : (Value.number .one).order (.text "1.0") 3 = .ok (some .eq) := by
    simp only [Value.order, hread]
    exact congrArg Except.ok (by decide +kernel)
  have hnan : (Value.number (.nan false)).order (.number .one) 0 = .ok none := by rfl
  obtain ⟨isLess, isGreater, hless, hgreater, hcount, hle, -⟩ := hthree _ _ _ _ horder
  have hequal : (Value.number .one).looselyEquals (.text "1.0") = true := by decide +kernel
  refine ⟨hmem, ?_, horder, ⟨isLess, isGreater, hless, hgreater, hcount⟩, hnan,
    (hnone _ _ _ hnan).2 _ hmem, ?_⟩
  · rcases hconverse _ hmem (.number .one) (.text "1.0") 3 with ⟨holds, h, h'⟩ | ⟨h, -⟩
    · rw [hle, hequal, Bool.or_true] at h
      rw [h', ← Except.ok.inj h]
    · rw [hle] at h
      cases h
  · exact hrange (.name "age" 0) (.number .zero 15) (.number .one 21) _ _ _ _ rfl rfl rfl 4 2 17 9

end SurveyLogic

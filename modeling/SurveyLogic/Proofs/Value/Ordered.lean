import SurveyLogic.Proofs.Value.Parts
import SurveyLogic.Proofs.Writes
import SurveyLogic.Reading

/-!
# Values stay ordered

Every value that the program makes is ordered.  A record made from fields is
(`Value.ordered_ofFields`), a property of an ordered value is, and so is what a write along a path
makes of one; an environment keeps its bindings the way a record does.  So evaluation gives ordered
values in ordered environments, and leaves ordered environments behind: `Expr.ordered_eval`.
-/

namespace SurveyLogic

namespace Value

/-! ## Records -/

/-- A field is the value of some entry, or missing. -/
theorem ordered_property {value : Value} (h : value.Ordered) (name : String) :
    (value.property name).Ordered := by
  cases value with
  | record entries =>
      have hfields := (ordered_record.mp h).2
      simp only [property, fields]
      cases hget : Keyed.get? name entries with
      | none => exact ordered_missing
      | some found => exact hfields (name, found) (Keyed.mem_of_get? hget)
  | _ => exact ordered_missing

theorem ordered_record_insert {entries : List (String × Value)} (h : (record entries).Ordered)
    (name : String) {value : Value} (hvalue : value.Ordered) :
    (record (Keyed.insert name value entries)).Ordered := by
  obtain ⟨hentries, hfields⟩ := ordered_record.mp h
  refine ordered_record.mpr ⟨Keyed.ordered_insert hentries name value, fun entry hmem => ?_⟩
  rcases Keyed.mem_insert hmem with rfl | hold
  · exact hvalue
  · exact hfields entry hold

/-- A record that is made from fields is ordered, in whatever order they are given. -/
theorem ordered_ofFields {entries : List (String × Value)}
    (h : ∀ entry ∈ entries, entry.2.Ordered) : (ofFields entries).Ordered :=
  ordered_record.mpr
    ⟨Keyed.ordered_ofList entries, fun entry hmem => h entry (Keyed.mem_ofList hmem)⟩

theorem ordered_record_fields {value : Value} (h : value.Ordered) :
    (record value.fields).Ordered := by
  cases value with
  | record entries => exact h
  | _ => exact ordered_record.mpr ⟨List.Pairwise.nil, nofun⟩

/-- A write along a path keeps the order in the records on its way. -/
theorem ordered_assign (path : List String) {value old : Value} (hvalue : value.Ordered)
    (hold : old.Ordered) : (assign path value old).Ordered := by
  induction path generalizing old with
  | nil => exact hvalue
  | cons name path ih =>
      exact ordered_record_insert (ordered_record_fields hold) name
        (ih (ordered_property hold name))

end Value

/-! ## Environments -/

namespace Environment

/-- Every value that is bound is ordered, and so are the bindings. -/
def Ordered (env : Environment) : Prop := (Value.record env.bindings).Ordered

theorem ordered_empty : empty.Ordered := Value.ordered_record.mpr ⟨List.Pairwise.nil, nofun⟩

theorem Ordered.get? {env : Environment} (h : env.Ordered) {name : String} {value : Value}
    (hvalue : env.get? name = some value) : value.Ordered :=
  (Value.ordered_record.mp h).2 (name, value) (Keyed.mem_of_get? hvalue)

theorem Ordered.set {env : Environment} (h : env.Ordered) (path : String) {value : Value}
    (hvalue : value.Ordered) : (env.set path value).Ordered := by
  unfold Ordered
  rw [record_set]
  exact Value.ordered_assign _ hvalue h

end Environment

/-! ## Steps of evaluation -/

namespace Evaluation

variable {α β : Type} {good : α → Prop}

/-- In an ordered environment the step leaves an ordered one, and what it gives is good. -/
def Yields (good : α → Prop) (step : Evaluation α) : Prop :=
  ∀ env, env.Ordered → (step.outcome env).2.Ordered ∧
    ∀ value, (step.outcome env).1 = .ok value → good value

theorem Yields.pure {value : α} (h : good value) : Yields good (Pure.pure value) := by
  rintro env henv
  exact ⟨henv, fun _ hvalue => Except.ok.inj hvalue ▸ h⟩

theorem Yields.ofResult {result : Except RuntimeError α}
    (h : ∀ value, result = .ok value → good value) : Yields good (ofResult result) :=
  fun _ henv => ⟨henv, h⟩

theorem Yields.bind {step : Evaluation α} {next : α → Evaluation β} {fine : β → Prop}
    (hstep : Yields good step) (hnext : ∀ value, good value → Yields fine (next value)) :
    Yields fine (step >>= next) := by
  intro env henv
  obtain ⟨hafter, hvalue⟩ := hstep env henv
  rw [outcome_bind]
  rcases houtcome : step.outcome env with ⟨error | value, after⟩
  · rw [houtcome] at hafter
    exact ⟨hafter, nofun⟩
  · rw [houtcome] at hafter hvalue
    exact hnext value (hvalue value rfl) after hafter

theorem Yields.write {change : Environment → Environment}
    (h : ∀ env, env.Ordered → (change env).Ordered) : Yields (fun _ => True) (write change) :=
  fun env henv => ⟨h env henv, fun _ _ => trivial⟩

end Evaluation

/-! ## Operators -/

section Apply

variable {a b c value : Value} {position : Nat}

theorem BinaryOperator.exists_truth_of_applyOrdering {operator : BinaryOperator}
    (h : operator.applyOrdering a b position = .ok value) : ∃ holds, value = .truth holds := by
  obtain ⟨order, -, h⟩ := exists_of_bind_eq_ok h
  split at h
  · exact ⟨_, (Except.ok.inj h).symm⟩
  · split at h
    · exact ⟨_, (Except.ok.inj h).symm⟩
    · contradiction

theorem BinaryOperator.exists_number_of_applyArithmetic {operator : BinaryOperator}
    (h : operator.applyArithmetic a b position = .ok value) : ∃ n, value = .number n := by
  unfold applyArithmetic at h
  split at h
  · split at h
    case h_4 =>
      split at h
      · contradiction
      · exact ⟨_, (Except.ok.inj h).symm⟩
    all_goals first
      | contradiction
      | exact ⟨_, (Except.ok.inj h).symm⟩
  · contradiction

theorem Value.exists_truth_of_isBetween (h : a.isBetween b c position = .ok value) :
    ∃ holds, value = .truth holds := by
  obtain ⟨above, -, h⟩ := exists_of_bind_eq_ok h
  split at h
  · exact BinaryOperator.exists_truth_of_applyOrdering h
  · exact ⟨_, (Except.ok.inj h).symm⟩

/-- Binary operators give numbers and truth values. -/
theorem BinaryOperator.ordered_of_apply {operator : BinaryOperator}
    (h : operator.apply a b position = .ok value) : value.Ordered := by
  have harithmetic : operator.applyArithmetic a b position = .ok value → value.Ordered := by
    intro h
    obtain ⟨n, rfl⟩ := exists_number_of_applyArithmetic h
    exact Value.ordered_number
  have hordering : operator.applyOrdering a b position = .ok value → value.Ordered := by
    intro h
    obtain ⟨holds, rfl⟩ := exists_truth_of_applyOrdering h
    exact Value.ordered_truth
  cases operator with
  | add | subtract | multiply | divide | power => exact harithmetic h
  | less | lessEqual | greater | greaterEqual => exact hordering h
  | equal | notEqual =>
      obtain rfl := Except.ok.inj h
      exact Value.ordered_truth
  | contains | within =>
      obtain rfl := Except.ok.inj h
      unfold applyMembership
      dsimp only
      split <;> exact Value.ordered_truth

theorem UnaryOperator.ordered_of_apply {operator : UnaryOperator}
    (h : operator.apply a position = .ok value) : value.Ordered := by
  cases operator with
  | not =>
      obtain rfl := Except.ok.inj h
      exact Value.ordered_truth
  | negate =>
      obtain ⟨n, -, h⟩ := exists_of_bind_eq_ok h
      obtain rfl := Except.ok.inj h
      exact Value.ordered_number

end Apply

/-! ## Trees -/

namespace Expr

open Evaluation

mutual

/-- **Evaluation gives ordered values.**  In an environment with ordered values a tree has an
ordered one, and leaves such an environment behind. -/
theorem ordered_eval : ∀ tree : Expr, Yields Value.Ordered tree.eval
  | number _ _ => .pure Value.ordered_number
  | text _ _ => .pure Value.ordered_text
  | truth _ _ => .pure Value.ordered_truth
  | name word position => by
    intro env henv
    refine ⟨henv, fun value hvalue => ?_⟩
    -- a name has the value of its binding, and the environment is ordered
    simp only [eval, outcome_read, Environment.lookup] at hvalue
    split at hvalue
    · next found hfound => exact Except.ok.inj hvalue ▸ henv.get? hfound
    · contradiction
  | member object property _ =>
    (ordered_eval object).bind fun _ hobject => .pure (Value.ordered_property hobject property)
  | array elements _ =>
    (ordered_evalAll elements).bind fun _ hitems => .pure (Value.ordered_array.mpr hitems)
  | unary _ operand _ =>
    (ordered_eval operand).bind fun _ _ => .ofResult fun _ h => UnaryOperator.ordered_of_apply h
  | binary _ left right _ =>
    (ordered_eval left).bind fun _ _ => (ordered_eval right).bind fun _ _ =>
      .ofResult fun _ h => BinaryOperator.ordered_of_apply h
  | logical operator left right _ => by
    cases operator <;>
    · refine (ordered_eval left).bind fun value _ => ?_
      split
      all_goals first
        | exact .pure Value.ordered_truth
        | exact (ordered_eval right).bind fun _ _ => .pure Value.ordered_truth
  | group inner _ => ordered_eval inner
  | assign target value _ => by
    unfold eval
    split
    · refine (ordered_eval value).bind fun result hresult => ?_
      -- what is written is the value itself, so the environment stays ordered
      refine (Yields.write fun env henv => henv.set _ hresult).bind fun _ _ => ?_
      exact .pure hresult
    · exact .ofResult nofun
  | between subject lower upper _ =>
    (ordered_eval subject).bind fun _ _ => (ordered_eval lower).bind fun _ _ =>
      (ordered_eval upper).bind fun _ _ => .ofResult fun _ h => by
        obtain ⟨holds, rfl⟩ := Value.exists_truth_of_isBetween h
        exact Value.ordered_truth

theorem ordered_evalAll : ∀ trees : List Expr,
    Yields (fun values : List Value => ∀ value ∈ values, value.Ordered) (evalAll trees)
  | [] => .pure nofun
  | tree :: trees =>
    (ordered_eval tree).bind fun _ hfirst => (ordered_evalAll trees).bind fun _ hrest =>
      .pure (List.forall_mem_cons.mpr ⟨hfirst, hrest⟩)

end

end Expr

end SurveyLogic

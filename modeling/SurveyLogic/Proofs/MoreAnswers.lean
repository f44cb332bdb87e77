import SurveyLogic.Proofs.Confinement
import SurveyLogic.Proofs.Errors.Raised
import SurveyLogic.Proofs.Silence

/-!
# More answers

An environment is extended by another one that has all its bindings.  A value that a tree without
assignments has in the smaller environment is its value in the larger one, and an error is its
error, with one exception: a name that is unbound in the one may be bound in the other.  As long as
it is not, the error is the same.

A step is *settled* by a set of names when this holds of it and the unbound name is one of them.
`Expr.settles_eval` proves it of a tree and its names by closure.  Behind a step that writes nothing
the next one is run in the same two environments, and is reached in both or in neither.
-/

namespace SurveyLogic

namespace Environment

/-- The second environment has every binding of the first one, with the same value. -/
def ExtendedTo (env more : Environment) : Prop :=
  ∀ name value, env.get? name = some value → more.get? name = some value

theorem extendedTo_of_empty (env : Environment) : empty.ExtendedTo env := by
  intro name value hvalue
  contradiction

/-- A name that has no value yet is given one. -/
theorem extendedTo_define {name : String} {env : Environment} (hname : env.get? name = none)
    (value : Value) : env.ExtendedTo (env.define name value) := by
  intro other old hother
  have hne : other ≠ name := by
    rintro rfl
    rw [hname] at hother
    contradiction
  rw [get?_define_of_ne hne, hother]

end Environment

/-! ## Settled steps -/

namespace Evaluation

variable {α β : Type} {names : List String} {env more : Environment}

/-- What an outcome in one environment says about the outcome in an environment with more
bindings. -/
structure Settled (names : List String) (env more : Environment)
    (outcome later : Except RuntimeError α) : Prop where
  value : ∀ value, outcome = .ok value → later = .ok value
  failure : ∀ error, outcome = .error error →
    (∀ name position, error ≠ .undefinedVariable name position) → later = .error error
  /-- The name was unbound, and the error stays until it is bound. -/
  unbound : ∀ name position, outcome = .error (.undefinedVariable name position) →
    env.get? name = none ∧ name ∈ names ∧
    (more.get? name = none → later = .error (.undefinedVariable name position))

/-- The step is settled wherever it is run. -/
def Settles (names : List String) (step : Evaluation α) : Prop :=
  ∀ env more, env.ExtendedTo more →
    Settled names env more (step.outcome env).1 (step.outcome more).1

theorem Settles.pure (value : α) : Settles names (Pure.pure value : Evaluation α) := by
  intro env more _
  exact ⟨fun _ h => h, fun _ h _ => h, nofun⟩

/-- A result that reads no names. -/
theorem Settles.ofResult {result : Except RuntimeError α}
    (h : ∀ name position, result ≠ .error (.undefinedVariable name position)) :
    Settles names (ofResult result) := by
  intro env more _
  exact ⟨fun _ hresult => hresult, fun _ hresult _ => hresult,
    fun name position hresult => absurd hresult (h name position)⟩

theorem Settles.lookup {name : String} (hname : name ∈ names) (position : Nat) :
    Settles names (read (·.lookup name position)) := by
  intro env more hmore
  simp only [outcome_read, Environment.lookup]
  cases hvalue : env.get? name with
  | some value =>
      rw [hmore name value hvalue]
      refine ⟨fun _ h => h, fun _ h _ => h, ?_⟩
      intro other place hother
      contradiction
  | none =>
      refine ⟨?_, ?_, ?_⟩
      · intro value hother
        contradiction
      · rintro error ⟨rfl⟩ hother
        exact absurd rfl (hother name position)
      · rintro name position ⟨rfl, rfl⟩
        exact ⟨hvalue, hname, fun hunbound => by rw [hunbound]⟩

/-- What follows a step that fails is not run. -/
theorem outcome_bind_of_error {step : Evaluation α} {error : RuntimeError}
    (h : (step.outcome env).1 = .error error) (next : α → Evaluation β) :
    ((step >>= next).outcome env).1 = .error error := by
  rw [outcome_bind]
  rcases houtcome : step.outcome env with ⟨result, after⟩
  rw [houtcome] at h
  obtain rfl : result = .error error := h
  rfl

/-- What follows a silent step is run in the same environment. -/
theorem outcome_bind_of_ok {step : Evaluation α} (hsilent : Silent step) {value : α}
    (h : (step.outcome env).1 = .ok value) (next : α → Evaluation β) :
    (step >>= next).outcome env = (next value).outcome env := by
  have hafter := hsilent env
  rw [outcome_bind]
  rcases houtcome : step.outcome env with ⟨result, after⟩
  rw [houtcome] at h hafter
  obtain rfl : result = .ok value := h
  obtain rfl : after = env := hafter
  rfl

theorem Settles.bind {step : Evaluation α} {next : α → Evaluation β} (hsilent : Silent step)
    (hstep : Settles names step) (hnext : ∀ value, Settles names (next value)) :
    Settles names (step >>= next) := by
  intro env more hmore
  obtain ⟨hvalue, hfailure, hunbound⟩ := hstep env more hmore
  cases hfirst : (step.outcome env).1 with
  | ok value =>
      rw [outcome_bind_of_ok hsilent hfirst, outcome_bind_of_ok hsilent (hvalue value hfirst)]
      exact hnext value env more hmore
  | error error =>
      rw [outcome_bind_of_error hfirst]
      refine ⟨nofun, ?_, ?_⟩
      · rintro _ ⟨rfl⟩ hother
        exact outcome_bind_of_error (hfailure _ hfirst hother) next
      · rintro name position ⟨rfl⟩
        obtain ⟨hnone, hmem, hsame⟩ := hunbound name position hfirst
        exact ⟨hnone, hmem, fun hstill => outcome_bind_of_error (hsame hstill) next⟩

end Evaluation

/-! ## Trees -/

namespace Expr

open Evaluation

/-- The only node that can miss a name is a name. -/
theorem Raises.ne_undefinedVariable {tree : Expr} {error : RuntimeError} (h : tree.Raises error)
    (hname : ∀ word position, tree ≠ .name word position) (name : String) (position : Nat) :
    error ≠ .undefinedVariable name position := by
  rintro rfl
  cases h
  exact hname name position rfl

mutual

/-- A tree is settled by the names that it reads. -/
theorem settles_eval {names : List String} : ∀ tree : Expr, tree.assignmentFree = true →
    tree.namesRead ⊆ names → Settles names tree.eval
  | number _ _, _, _ | text _ _, _, _ | truth _ _, _, _ => .pure _
  | name word position, _, hsub => .lookup (hsub (List.mem_singleton_self word)) position
  | member object _ _, h, hsub => .bind (silent_eval object h) (settles_eval object h hsub)
      fun _ => .pure _
  | array elements _, h, hsub => .bind (silent_evalAll elements h) (settles_evalAll elements h hsub)
      fun _ => .pure _
  | unary operator operand position, h, hsub => by
    refine .bind (silent_eval operand h) (settles_eval operand h hsub) fun value => .ofResult ?_
    intro name place hresult
    exact (UnaryOperator.raises_apply operand hresult).ne_undefinedVariable nofun name place rfl
  | binary operator left right position, h, hsub => by
    obtain ⟨hleft, hright⟩ := Bool.and_eq_true_iff.mp h
    obtain ⟨hfirst, hsecond⟩ := List.append_subset.mp hsub
    refine .bind (silent_eval left hleft) (settles_eval left hleft hfirst) fun a => ?_
    refine .bind (silent_eval right hright) (settles_eval right hright hsecond) fun b => ?_
    refine .ofResult fun name place hresult => ?_
    exact (BinaryOperator.raises_apply left right hresult).ne_undefinedVariable nofun name place rfl
  | logical operator left right _, h, hsub => by
    obtain ⟨hleft, hright⟩ := Bool.and_eq_true_iff.mp h
    obtain ⟨hfirst, hsecond⟩ := List.append_subset.mp hsub
    -- the left side has the same value in both environments, so both look at the right or neither
    cases operator <;>
    · refine .bind (silent_eval left hleft) (settles_eval left hleft hfirst) fun value => ?_
      split
      all_goals first
        | exact .pure _
        | exact .bind (silent_eval right hright) (settles_eval right hright hsecond)
            fun _ => .pure _
  | group inner _, h, hsub => settles_eval inner h hsub
  | between subject lower upper _, h, hsub => by
    obtain ⟨hboth, hupper⟩ := Bool.and_eq_true_iff.mp h
    obtain ⟨hsubject, hlower⟩ := Bool.and_eq_true_iff.mp hboth
    obtain ⟨hfirst, hbounds⟩ := List.append_subset.mp hsub
    obtain ⟨hsecond, hthird⟩ := List.append_subset.mp hbounds
    refine .bind (silent_eval subject hsubject) (settles_eval subject hsubject hfirst) fun a => ?_
    refine .bind (silent_eval lower hlower) (settles_eval lower hlower hsecond) fun b => ?_
    refine .bind (silent_eval upper hupper) (settles_eval upper hupper hthird) fun c => ?_
    refine .ofResult fun name place hresult => ?_
    exact (Value.raises_isBetween subject lower upper hresult).ne_undefinedVariable nofun name
      place rfl

theorem settles_evalAll {names : List String} : ∀ trees : List Expr,
    allAssignmentFree trees = true → namesReadByAll trees ⊆ names → Settles names (evalAll trees)
  | [], _, _ => .pure _
  | tree :: trees, h, hsub => by
    obtain ⟨hfirst, hrest⟩ := Bool.and_eq_true_iff.mp h
    obtain ⟨hnames, hothers⟩ := List.append_subset.mp hsub
    refine .bind (silent_eval tree hfirst) (settles_eval tree hfirst hnames) fun _ => ?_
    exact .bind (silent_evalAll trees hrest) (settles_evalAll trees hrest hothers) fun _ => .pure _

end

/-- What has a value without any answer has it in every environment, and writes nothing. -/
theorem outcome_of_empty {tree : Expr} (htree : tree.assignmentFree = true) {value : Value}
    (h : (tree.eval.outcome .empty).1 = .ok value) (env : Environment) :
    tree.eval.outcome env = (.ok value, env) := by
  have hsettled := settles_eval tree htree (List.Subset.refl _) _ _ env.extendedTo_of_empty
  exact Prod.ext (hsettled.value value h) (silent_eval tree htree env)

/-- **More answers never change a settled outcome.**  In an environment with more bindings a tree
without assignments keeps its value, and keeps its error unless a name was unbound.  That name is
one of the roots of the tree, was not bound before, and the error stays until it is. -/
theorem settled_outcome {tree : Expr} (htree : tree.assignmentFree = true) {env more : Environment}
    (hmore : env.ExtendedTo more) :
    Settled tree.roots env more (tree.eval.outcome env).1 (tree.eval.outcome more).1 :=
  settles_eval tree htree (fun _ hname => Names.mem_ofList.mpr hname) env more hmore

/-- The tree of `age or color`. -/
def eitherTree : Expr := .logical .or (.name "age" 0) (.name "color" 7) 4

/-- The tree of `age and color`. -/
def bothTree : Expr := .logical .and (.name "age" 0) (.name "color" 8) 4

/-- The tree of `age / false or color`. -/
def failingTree : Expr :=
  .logical .or (.binary .divide (.name "age" 0) (.truth false 6) 4) (.name "color" 15) 12

def ageAnswer : Environment := ⟨[("age", .number .one)]⟩

/-- The name `color` is given a value and is looked at by none of these outcomes; then another name
is given one, and `color` is still unbound. -/
theorem settled_outcome_age :
    eitherTree.assignmentFree = true ∧
    ageAnswer.ExtendedTo (ageAnswer.define "color" (.text "red")) ∧
    (eitherTree.eval.outcome (ageAnswer.define "color" (.text "red"))).1 = .ok (.truth true) ∧
    (failingTree.eval.outcome (ageAnswer.define "color" (.text "red"))).1 =
      .error (.kindMismatch (.arithmetic .divide .number .truth) 4) ∧
    ageAnswer.get? "color" = none ∧ "color" ∈ bothTree.roots ∧
    (bothTree.eval.outcome (ageAnswer.define "size" .missing)).1 =
      .error (.undefinedVariable "color" 8) := by
  have hcolor : ageAnswer.ExtendedTo (ageAnswer.define "color" (.text "red")) :=
    Environment.extendedTo_define rfl (.text "red")
  have hsize : ageAnswer.ExtendedTo (ageAnswer.define "size" .missing) :=
    Environment.extendedTo_define rfl .missing
  have hsettled := @settled_outcome eitherTree rfl _ _ hcolor
  have hfailing := @settled_outcome failingTree rfl _ _ hcolor
  obtain ⟨hunbound, hroot, hstays⟩ :=
    (@settled_outcome bothTree rfl _ _ hsize).unbound "color" 8 rfl
  exact ⟨rfl, hcolor, hsettled.value _ rfl, hfailing.failure _ rfl nofun, hunbound, hroot,
    hstays rfl⟩

end Expr

end SurveyLogic

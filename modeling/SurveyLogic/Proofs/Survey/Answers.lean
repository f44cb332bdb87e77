import Mathlib.Data.List.Induction
import SurveyLogic.Proofs.Atomicity
import SurveyLogic.Proofs.Survey.InTurn
import SurveyLogic.Proofs.Value.Ordered

/-!
# The environment holds the answers

Evaluation is handed the environment and could write to it.  `only_assignments_write` says that it
does not, unless it evaluates an assignment that has a value; so what a survey holds in the end is
what its updates wrote, in their order.  For surveys this is said of the loops that take questions
in turn and hand the environment on from one evaluation to the next.

The answers are ordered when all that was written is (`ordered_answers`), and so conditions are
evaluated in ordered environments in every state of such a run.
-/

namespace SurveyLogic

namespace Model

/-! ## Runs that take questions in turn -/

/-- The model of some questions before any condition has been looked at. -/
def undecided (options : Options) (questions : List Question) : Model where
  questions := questions
  dependents := .ofQuestions questions
  environment := .empty
  options := options
  listeners := []
  nextListener := 0

/-- Loads a survey, and decides the conditions that read no answer in turn. -/
def loadInTurn (definition : Definition) : Except SurveyError Model := do
  let questions ← loadQuestions definition.options 0 [] .empty definition.questions
  return ((constantConditions questions).foldl refreshVisibilityAt
    (undecided definition.options questions, {})).1

/-- The model after an operation that takes the questions in turn. -/
def applyInTurn (model : Model) (operation : Operation) : Model :=
  match operation with
  | .update path value => (model.updateInTurn path value).1
  | .evaluateAll => model.evaluateAllInTurn.1
  | .subscribe => model.subscribe.1
  | .unsubscribe listener => (model.unsubscribe listener).1

/-- The state after a run that takes the questions in turn. -/
def runInTurn (model : Model) (operations : List Operation) : Model :=
  operations.foldl applyInTurn model

theorem pairwise_constantConditions {questions : List Question}
    (hplaced : Question.Placed questions) : (constantConditions questions).Pairwise (· < ·) := by
  have hall : (questions.map (·.index)).Pairwise (· < ·) := by
    rw [hplaced]
    exact List.pairwise_lt_range
  exact hall.sublist (List.filter_sublist.map _)

theorem loadInTurn_eq (definition : Definition) : loadInTurn definition = load definition := by
  unfold loadInTurn load
  cases hquestions :
      loadQuestions definition.options 0 [] .empty definition.questions with
  | error error => rfl
  | ok questions =>
      obtain ⟨hdefines, -, hindices⟩ := loadQuestions_spec hquestions
      have hplaced : Question.Placed questions := by
        rw [Question.Placed, List.range_eq_range']
        exact hindices
      -- every condition was accepted, so evaluating it writes nothing
      have hsilent : (undecided definition.options questions).Silent := by
        intro question hquestion env
        obtain ⟨entry, -, hentry⟩ := exists_of_forall₂_right hdefines hquestion
        refine Question.environmentAfter_eq (fun condition hcondition => ?_) env
        obtain ⟨source, -, haccepted⟩ := accepted_of_defines hentry hcondition
        exact ⟨source, haccepted⟩
      have hkeeps : ∀ question : Question,
          (question.refreshVisibility .empty).1.index = question.index := by
        intro question
        rw [Question.refreshVisibility_fst_eq]
      -- so the loop over places does what one walk over the questions does
      have hloop := Question.foldl_refreshAt hkeeps hplaced
        (pairwise_constantConditions hplaced) {}
      simp only [ok_bind]
      rw [foldl_refreshVisibilityAt (constantConditions questions) hsilent]
      dsimp only [undecided]
      rw [hloop]

theorem Reachable.applyInTurn_eq {model : Model} (h : model.Reachable) (operation : Operation) :
    model.applyInTurn operation = operation.apply model := by
  cases operation with
  | update path value => exact congrArg Prod.fst (h.update_eq_inTurn path value).symm
  | evaluateAll => exact congrArg Prod.fst h.evaluateAll_eq_inTurn.symm
  | subscribe => rfl
  | unsubscribe listener => rfl

theorem Reachable.runInTurn_eq {model : Model} (h : model.Reachable)
    (operations : List Operation) : model.runInTurn operations = model.run operations := by
  induction operations generalizing model with
  | nil => rfl
  | cons operation operations ih =>
      rw [run_cons, ← ih (h.apply operation), ← h.applyInTurn_eq operation]
      rfl

end Model

/-! ## Ordered answers -/

/-- What the operation writes is ordered. -/
def Operation.WritesOrdered : Operation → Prop
  | .update _ value => value.Ordered
  | .evaluateAll | .subscribe | .unsubscribe _ => True

theorem Operation.ordered_write {env : Environment} (henv : env.Ordered) {operation : Operation}
    (hwrites : operation.WritesOrdered) : (operation.write env).Ordered := by
  cases operation with
  | update path value => exact henv.set path hwrites
  | evaluateAll | subscribe | unsubscribe => exact henv

/-- Operations that write ordered values leave an ordered environment. -/
theorem ordered_answers {operations : List Operation}
    (h : ∀ operation ∈ operations, operation.WritesOrdered) : (answers operations).Ordered := by
  induction operations using List.reverseRecOn with
  | nil => exact Environment.ordered_empty
  | append_singleton operations operation ih =>
      obtain ⟨hfront, hlast⟩ := List.forall_mem_append.mp h
      rw [answers_append_singleton]
      exact Operation.ordered_write (ih hfront) (List.forall_mem_singleton.mp hlast)

/-! ## What is written -/

/-- **Conditions never write, and bindings write all or nothing.**  Evaluating a condition leaves
every environment as it is.  Evaluating a binding does so when it fails and when it is no
assignment, and else writes the value at the path of the target; a source that is compiled and
evaluated at once does the same, or leaves the environment as it is if it is malformed.  So the
environment of a survey, handed from one evaluation to the next, holds after any run what the
updates of the run wrote, in their order. -/
theorem only_assignments_write :
    (∀ source compiled, Compiled.condition source = .ok compiled →
      ∀ env, (compiled.evaluate env).2 = env) ∧
    (∀ source compiled, Compiled.binding source = .ok compiled →
      ∀ env, compiled.tree.Atomic env (compiled.evaluate env).1 (compiled.evaluate env).2) ∧
    (∀ source env, (∃ error, evaluateSource source env = (.error error, env)) ∨
      ∃ compiled value, Compiled.binding source = .ok compiled ∧
        (compiled.evaluate env).1 = .ok value ∧
        evaluateSource source env = (.ok value, (compiled.evaluate env).2)) ∧
    (∀ definition, Model.loadInTurn definition = Model.load definition) ∧
    (∀ definition model, Model.load definition = .ok model → ∀ operations : List Operation,
      model.runInTurn operations = model.run operations ∧
      (model.runInTurn operations).environment = answers operations) := by
  refine ⟨fun _ _ h => Compiled.evaluate_snd_of_condition h,
    fun _ _ h => Compiled.atomic_of_binding h, evaluateSource_atomic, Model.loadInTurn_eq, ?_⟩
  intro definition model hload operations
  have hrun := (Model.Reachable.load hload).runInTurn_eq operations
  refine ⟨hrun, ?_⟩
  obtain ⟨-, -, -, -, hempty, -⟩ := Model.questions_of_load hload
  rw [hrun, Model.run_environment_from, hempty]
  rfl

/-- The target of an assignment. -/
def Compiled.target? (compiled : Compiled) : Option (List String) :=
  match compiled.tree with
  | .assign target _ _ => target.path?
  | _ => none

theorem Compiled.exists_of_target? {compiled : Compiled} {path : List String}
    (h : compiled.target? = some path) : ∃ target value position,
      compiled.tree = .assign target value position ∧ target.path? = some path := by
  unfold target? at h
  split at h
  · rename_i target value position htree
    exact ⟨target, value, position, htree, h⟩
  · contradiction

/-- A condition and an assignment that fail, an assignment that writes, and a run. -/
theorem only_assignments_write_trip :
    (∃ condition error, Compiled.condition "1 / 0" = .ok condition ∧
      condition.evaluate .empty = (.error error, .empty)) ∧
    (∃ binding error, Compiled.binding "x = 1 / 0" = .ok binding ∧
      binding.evaluate .empty = (.error error, .empty)) ∧
    (∃ binding value, Compiled.binding "trip.place = 'sea'" = .ok binding ∧
      binding.evaluate .empty = (.ok value, Environment.empty.set "trip.place" value)) ∧
    ∃ model, Model.load Model.colorSurvey = .ok model ∧
      (model.runInTurn [.update "liked.answer" (.text "yes"), .evaluateAll,
        .update "color" (.text "red")]).environment =
      (Environment.empty.set "liked.answer" (.text "yes")).set "color" (.text "red") := by
  have hfails : ∀ {result : Except RuntimeError Value}, result.toOption.isSome = false →
      ∃ error, result = .error error := by
    rintro (error | value) hnone
    · exact ⟨error, rfl⟩
    · simp [Except.toOption] at hnone
  have hcondition : (Compiled.condition "1 / 0").toOption.map
      (fun compiled => (compiled.evaluate .empty).1.toOption.isSome) = some false := by
    decide +kernel
  have hfailing : (Compiled.binding "x = 1 / 0").toOption.map
      (fun compiled => (compiled.evaluate .empty).1.toOption.isSome) = some false := by
    decide +kernel
  have hwriting : (Compiled.binding "trip.place = 'sea'").toOption.map
      (fun compiled => (compiled.target?, (compiled.evaluate .empty).1.toOption.isSome)) =
        some (some ["trip", "place"], true) := by
    decide +kernel
  have hloaded : (Model.loadInTurn Model.colorSurvey).toOption.map (fun _ => ()) = some () := by
    decide +kernel
  obtain ⟨hsilent, hatomic, -, hload, hrun⟩ := only_assignments_write
  refine ⟨?_, ?_, ?_, ?_⟩
  · obtain ⟨condition, haccepted, hseen⟩ := exists_of_toOption_map hcondition
    obtain ⟨error, herror⟩ := hfails hseen
    exact ⟨condition, error, haccepted, Prod.ext herror (hsilent _ _ haccepted .empty)⟩
  · obtain ⟨binding, haccepted, hseen⟩ := exists_of_toOption_map hfailing
    obtain ⟨error, herror⟩ := hfails hseen
    exact ⟨binding, error, haccepted,
      Prod.ext herror ((hatomic _ _ haccepted .empty).failed error herror)⟩
  · obtain ⟨binding, haccepted, hseen⟩ := exists_of_toOption_map hwriting
    obtain ⟨htarget, hsome⟩ := Prod.mk.inj hseen
    obtain ⟨target, value, position, htree, hpath⟩ := Compiled.exists_of_target? htarget
    cases hvalue : (binding.evaluate .empty).1 with
    | error error => simp [hvalue, Except.toOption] at hsome
    | ok value =>
        obtain ⟨path, hpath', hwritten⟩ :=
          (hatomic _ _ haccepted .empty).assigned _ _ _ htree value hvalue
        obtain rfl := Option.some.inj (hpath.symm.trans hpath')
        exact ⟨binding, value, haccepted, Prod.ext hvalue hwritten⟩
  · obtain ⟨model, haccepted, -⟩ := exists_of_toOption_map hloaded
    rw [hload] at haccepted
    exact ⟨model, haccepted, (hrun _ _ haccepted _).2⟩

end SurveyLogic

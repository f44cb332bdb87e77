import SurveyLogic.Proofs.Survey.Reachable
import SurveyLogic.Proofs.Writes

/-!
# Independent answers can arrive in any order

Answers to paths that diverge can be given in any order: `Model.Reachable.updateAll_perm`.  On the
way the orders differ in everything, environments, reports and failures.  In the end the answers are
the same, since the writes can be exchanged, and so the titles are the same, since they are up to
date with the answers.

Visibility is more delicate, because a condition that fails leaves it as it was, and the order
decides which evaluation is the last one to have a value.  Two things make up for it.  If the
condition has a value with the final answers, then the visibility is up to date with this value in
either order.  If it reads none of the updated roots, then it has not been looked at.  A question of
which neither is true may end differently, as the example at the end shows.
-/

namespace SurveyLogic

/-! ## One question in two states -/

namespace Question

/-- The order of some updates does not matter to a question: its condition reads none of their
roots, or it has a value with the answers that they end with. -/
def Settled (updates : List (String × Value)) (env : Environment) (question : Question) : Prop :=
  (∀ update ∈ updates, Text.root update.1 ∉ Dependents.conditionRoots question) ∨
    ∃ condition value, question.condition = some condition ∧ (condition.evaluate env).1 = .ok value

/-- The same question with the same title, and with the same visibility if it is settled. -/
structure SameIfSettled (settled : Question → Prop) (a b : Question) : Prop where
  name : a.name = b.name
  title : a.title = b.title
  condition : a.condition = b.condition
  rendered : a.rendered = b.rendered
  visible : settled a → a.visible = b.visible

variable {a b : Question} {env : Environment} {fallback : Fallback} {past past' : List Operation}

/-- Where the condition has a value, the visibility depends only on whether it was reached. -/
theorem Fresh.visible_eq (ha : a.Fresh env fallback past) (hb : b.Fresh env fallback past')
    (hsame : a.condition = b.condition)
    (hreached : ∀ condition, Reached condition past ↔ Reached condition past')
    {condition : Compiled} (hcondition : a.condition = some condition) {value : Value}
    (hvalue : (condition.evaluate env).1 = .ok value) : a.visible = b.visible := by
  have hcondition' : b.condition = some condition := hsame ▸ hcondition
  by_cases hlooked : Reached condition past
  · have hlooked' : Reached condition past' := (hreached condition).mp hlooked
    rw [ha.decided condition hcondition hlooked value hvalue,
      hb.decided condition hcondition' hlooked' value hvalue]
  · have hlooked' : ¬ Reached condition past' := mt (hreached condition).mpr hlooked
    rw [ha.unreached condition hcondition hlooked, hb.unreached condition hcondition' hlooked']

end Question

/-- Whether a condition has been reached does not depend on the order of the operations. -/
theorem reached_perm {past past' : List Operation} (hperm : past.Perm past')
    (condition : Compiled) : Reached condition past ↔ Reached condition past' := by
  unfold Reached
  simp only [hperm.mem_iff]

namespace Model

variable {model : Model}

/-! ## Updates in a row -/

/-- The state after some updates, one after the other. -/
def updateAll (model : Model) (updates : List (String × Value)) : Model :=
  updates.foldl (fun model update => (model.update update.1 update.2).1) model

/-- The updates as operations. -/
def updatesOf (updates : List (String × Value)) : List Operation :=
  updates.map fun update => .update update.1 update.2

theorem updateAll_eq_run (model : Model) (updates : List (String × Value)) :
    model.updateAll updates = model.run (updatesOf updates) := by
  unfold updateAll run updatesOf
  rw [List.foldl_map]
  rfl

theorem updateAll_environment (model : Model) (updates : List (String × Value)) :
    (model.updateAll updates).environment =
      updates.foldl (fun env update => env.set update.1 update.2) model.environment := by
  rw [updateAll_eq_run, run_environment_from, updatesOf, List.foldl_map]
  rfl

/-- A run changes the visibility of a question only if something in it makes the condition be looked
at, and never what the question is. -/
theorem Consistent.run_questions (h : model.Consistent) (operations : List Operation) :
    ∃ change, Question.Keeps change ∧
      (model.run operations).questions = model.questions.map change ∧
      ∀ question ∈ model.questions,
        (∀ operation ∈ operations, ¬ operation.Touches (Dependents.conditionRoots question)) →
        (change question).visible = question.visible := by
  induction operations generalizing model with
  | nil =>
      exact ⟨id, ⟨fun _ => rfl, fun _ => rfl, fun _ => rfl⟩, (List.map_id _).symm, fun _ _ _ => rfl⟩
  | cons operation operations ih =>
      obtain ⟨change, hkeeps, hquestions, hvisible⟩ := ih (h.apply operation)
      refine ⟨change ∘ operation.after model, ?_, ?_, ?_⟩
      · exact ⟨fun _ => hkeeps.name _, fun _ => hkeeps.title _, fun _ => hkeeps.condition _⟩
      · rw [run_cons, hquestions, operation.apply_questions_eq, List.map_map]
      · intro question hquestion huntouched
        have hidle : question.index ∉ operation.conditionsDue model := by
          rw [h.index_mem_conditionsDue hquestion]
          exact huntouched operation List.mem_cons_self
        have hafter : operation.after model question ∈ (operation.apply model).questions := by
          rw [operation.apply_questions_eq]
          exact List.mem_map_of_mem hquestion
        calc (change (operation.after model question)).visible
            = (operation.after model question).visible :=
              hvisible _ hafter fun other hother =>
                huntouched other (List.mem_cons_of_mem _ hother)
          _ = question.visible := if_neg hidle

/-- What some updates make of the questions of a model that other operations led to. -/
structure Outcome (model : Model) (past : List Operation) (updates : List (String × Value))
    (change : Question → Question) : Prop where
  questions : (model.updateAll updates).questions = model.questions.map change
  keeps : Question.Keeps change
  fresh : ∀ question ∈ model.questions,
    (change question).Fresh (model.updateAll updates).environment
      model.options.placeholderFallback (past ++ updatesOf updates)
  unread : ∀ question ∈ model.questions,
    (∀ update ∈ updates, Text.root update.1 ∉ Dependents.conditionRoots question) →
    (change question).visible = question.visible

theorem Consistent.exists_outcome (h : model.Consistent) {past : List Operation}
    (hfresh : model.Fresh past) (updates : List (String × Value)) :
    ∃ change, model.Outcome past updates change := by
  obtain ⟨change, hkeeps, hquestions, huntouched⟩ := h.run_questions (updatesOf updates)
  refine ⟨change, (updateAll_eq_run model updates).symm ▸ hquestions, hkeeps, ?_, ?_⟩
  · intro question hquestion
    have hmem : change question ∈ (model.run (updatesOf updates)).questions :=
      hquestions ▸ List.mem_map_of_mem hquestion
    have hlast := hfresh.run h (updatesOf updates) (change question) hmem
    rwa [run_options, ← updateAll_eq_run] at hlast
  · intro question hquestion hunread
    refine huntouched question hquestion fun operation hoperation => ?_
    obtain ⟨update, hupdate, rfl⟩ := List.mem_map.mp hoperation
    exact hunread update hupdate

/-! ## Another order -/

section Perm

variable {updates others : List (String × Value)}

/-- One question after two orders that end with the same answers. -/
theorem Outcome.sameIfSettled {past : List Operation} {change change' : Question → Question}
    (h : model.Outcome past updates change) (h' : model.Outcome past others change')
    (hperm : updates.Perm others)
    (henvironment : (model.updateAll updates).environment = (model.updateAll others).environment)
    {question : Question} (hquestion : question ∈ model.questions) :
    Question.SameIfSettled (Question.Settled updates (model.updateAll updates).environment)
      (change question) (change' question) := by
  have hfresh := h.fresh question hquestion
  have hfresh' := h'.fresh question hquestion
  rw [← henvironment] at hfresh'
  have htitle : (change question).title = (change' question).title :=
    (h.keeps.title question).trans (h'.keeps.title question).symm
  have hcondition : (change question).condition = (change' question).condition :=
    (h.keeps.condition question).trans (h'.keeps.condition question).symm
  refine ⟨?_, htitle, hcondition, ?_, ?_⟩
  · rw [h.keeps.name, h'.keeps.name]
  · rw [hfresh.title, hfresh'.title, htitle]
  · rintro (hunread | ⟨condition, value, hsome, hvalue⟩)
    · -- neither order looks at the condition
      rw [Dependents.conditionRoots_congr (h.keeps.condition question)] at hunread
      have hunread' : ∀ update ∈ others,
          Text.root update.1 ∉ Dependents.conditionRoots question :=
        fun update hupdate => hunread update (hperm.mem_iff.mpr hupdate)
      rw [h.unread question hquestion hunread, h'.unread question hquestion hunread']
    · -- both orders reach the condition or none does
      have hreached : ∀ condition, Reached condition (past ++ updatesOf updates) ↔
          Reached condition (past ++ updatesOf others) :=
        reached_perm ((hperm.map _).append_left past)
      exact hfresh.visible_eq hfresh' hcondition hreached hsome hvalue

/-- **Independent answers can arrive in any order.**  When the paths of some updates diverge from
each other, making the updates in another order ends with the same answers, the same titles, and the
same visibility of every question that is settled. -/
theorem Reachable.updateAll_perm (h : model.Reachable) (hperm : updates.Perm others)
    (hdiverging : updates.Pairwise Environment.Diverging) :
    (model.updateAll updates).environment = (model.updateAll others).environment ∧
    List.Forall₂
      (Question.SameIfSettled (Question.Settled updates (model.updateAll updates).environment))
      (model.updateAll updates).questions (model.updateAll others).questions := by
  have henvironment : (model.updateAll updates).environment =
      (model.updateAll others).environment := by
    rw [updateAll_environment, updateAll_environment]
    exact Environment.foldl_set_perm hperm hdiverging model.environment
  obtain ⟨past, hpast⟩ := h.exists_fresh
  obtain ⟨change, houtcome⟩ := h.consistent.exists_outcome hpast updates
  obtain ⟨change', houtcome'⟩ := h.consistent.exists_outcome hpast others
  refine ⟨henvironment, ?_⟩
  rw [houtcome.questions, houtcome'.questions, List.forall₂_map_left_iff,
    List.forall₂_map_right_iff, List.forall₂_same]
  intro question hquestion
  exact houtcome.sameIfSettled houtcome' hperm henvironment hquestion

end Perm

/-- Two questions, the second with a title and a condition that read parts of one answer. -/
def tripSurvey : Definition where
  questions := [
    { name := "trip", title := "Where to, and for how long?" },
    { name := "pack", title := "What to pack for the {{trip.place}}?",
      visibleWhen := some "trip.stay = 'long'" }]

/-- The two parts of the answer, which end up in one record. -/
def tripParts : List (String × Value) := [("trip.place", .text "sea"), ("trip.stay", .text "long")]

theorem updateAll_perm_trip : tripParts.reverse.Pairwise Environment.Diverging ∧
    ∃ model, load tripSurvey = .ok model ∧
    (model.updateAll tripParts.reverse).questions.map (fun question =>
        (question.rendered, question.visible)) =
      [("Where to, and for how long?", true), ("What to pack for the sea?", true)] ∧
    (model.updateAll tripParts.reverse).environment = (model.updateAll tripParts).environment ∧
    List.Forall₂ (Question.SameIfSettled
        (Question.Settled tripParts.reverse (model.updateAll tripParts.reverse).environment))
      (model.updateAll tripParts.reverse).questions (model.updateAll tripParts).questions := by
  have hseen : (load tripSurvey).toOption.map (fun model =>
        (model.updateAll tripParts.reverse).questions.map fun question =>
          (question.rendered, question.visible)) =
      some [("Where to, and for how long?", true), ("What to pack for the sea?", true)] := by
    decide +kernel
  have hdiverging : tripParts.reverse.Pairwise Environment.Diverging := by decide +kernel
  obtain ⟨model, hload, hseen⟩ := exists_of_toOption_map hseen
  obtain ⟨henvironment, hquestions⟩ :=
    Reachable.updateAll_perm (.load hload) (List.reverse_perm tripParts) hdiverging
  exact ⟨hdiverging, model, hload, hseen, henvironment, hquestions⟩

/-- A question with a condition that fails unless the second answer is a text. -/
def roomSurvey : Definition where
  questions := [
    { name := "view", title := "Which view?", visibleWhen := some "room and bed < 'm'" }]

-- Both orders end with the same answers, with which the condition fails.  The question stays as
-- its last value left it, which was true in the one order and false in the other.
example : (load roomSurvey).toOption.map (fun model =>
      let start := model.updateAll [("bed", .text "big"), ("room", .truth false)]
      [start.updateAll [("room", .truth true), ("bed", .truth true)],
        start.updateAll [("bed", .truth true), ("room", .truth true)]].map fun last =>
          last.questions.map (·.visible)) = some [[true], [false]] := by
  decide +kernel

end Model

end SurveyLogic

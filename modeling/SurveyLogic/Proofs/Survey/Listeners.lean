import Mathlib.Data.List.Induction
import SurveyLogic.Proofs.Survey.Calls

/-!
# Listeners see every change once

Who is subscribed can be told from the operations of a run alone: a listener is if the number that
it was given has not been unsubscribed since (`Model.Subscribed`).  Numbers are not given twice.
Each change is made together with the calls that tell of it (`Progress.make`), so a listener who
revises a copy of the survey with each call has the survey as it is, in the middle of an operation
as well as after it (`Progress.Followed`).  `Model.changes_told` says all of this of all runs.
-/

namespace SurveyLogic

namespace Operation

/-- The number that an operation gives to a new listener. -/
def given? (operation : Operation) (model : Model) : Option Nat :=
  match operation with
  | subscribe => some model.subscribe.2
  | update _ _ | evaluateAll | unsubscribe _ => none

def isSubscribe : Operation → Bool
  | subscribe => true
  | update _ _ | evaluateAll | unsubscribe _ => false

theorem apply_listeners (operation : Operation) (model : Model) :
    (operation.apply model).listeners =
      match operation with
      | update _ _ | evaluateAll => model.listeners
      | subscribe => model.listeners ++ [model.nextListener]
      | unsubscribe listener => model.listeners.filter (· ≠ listener) := by
  cases operation <;> rfl

theorem apply_nextListener (operation : Operation) (model : Model) :
    (operation.apply model).nextListener =
      model.nextListener + if operation.isSubscribe then 1 else 0 := by
  cases operation <;> rfl

end Operation

/-! ## Subscriptions -/

namespace Model

/-- The numbers that a run gives to listeners, in order. -/
def handedOut (model : Model) : List Operation → List Nat
  | [] => []
  | operation :: operations =>
    (operation.given? model).toList ++ (operation.apply model).handedOut operations

/-- The listener got its number in the run, and has not been unsubscribed since. -/
def Subscribed (model : Model) (operations : List Operation) (listener : Nat) : Prop :=
  ∃ before after, operations = before ++ .subscribe :: after ∧
    (model.run before).subscribe.2 = listener ∧ .unsubscribe listener ∉ after

theorem subscribed_append_singleton {model : Model} {operations : List Operation}
    {operation : Operation} {listener : Nat} :
    model.Subscribed (operations ++ [operation]) listener ↔
      (operation = .subscribe ∧ (model.run operations).nextListener = listener) ∨
      (model.Subscribed operations listener ∧ operation ≠ .unsubscribe listener) := by
  constructor
  · rintro ⟨before, after, heq, hgiven, hnever⟩
    rcases List.eq_nil_or_concat after with rfl | ⟨between, last, rfl⟩
    · obtain ⟨rfl, hlast⟩ := List.append_inj' heq rfl
      exact Or.inl ⟨List.singleton_inj.mp hlast, hgiven⟩
    · rw [List.concat_eq_append, ← List.cons_append, ← List.append_assoc] at heq
      rw [List.concat_eq_append] at hnever
      obtain ⟨rfl, hlast⟩ := List.append_inj' heq rfl
      obtain rfl := List.singleton_inj.mp hlast
      simp only [List.mem_append, List.mem_singleton, not_or] at hnever
      exact Or.inr ⟨⟨before, between, rfl, hgiven, hnever.1⟩, Ne.symm hnever.2⟩
  · rintro (⟨rfl, hgiven⟩ | ⟨⟨before, after, rfl, hgiven, hnever⟩, hne⟩)
    · exact ⟨operations, [], rfl, hgiven, List.not_mem_nil⟩
    · refine ⟨before, after ++ [operation], by simp, hgiven, ?_⟩
      simp only [List.mem_append, List.mem_singleton, not_or]
      exact ⟨hnever, Ne.symm hne⟩

/-- From a start without listeners, those of a state are the ones subscribed. -/
theorem mem_listeners_run {model : Model} (hnone : model.listeners = [])
    (operations : List Operation) (listener : Nat) :
    listener ∈ (model.run operations).listeners ↔ model.Subscribed operations listener := by
  induction operations using List.reverseRecOn with
  | nil => simp [hnone, Subscribed]
  | append_singleton operations operation ih =>
      rw [run_append_singleton, Operation.apply_listeners, subscribed_append_singleton]
      cases operation with
      | update path value => simpa using ih
      | evaluateAll => simpa using ih
      | subscribe =>
          rw [List.mem_append, List.mem_singleton, ih, or_comm, eq_comm (a := listener)]
          simp
      | unsubscribe other =>
          rw [List.mem_filter, ih, decide_eq_true_iff, ne_comm (a := listener)]
          simp

theorem run_nextListener (model : Model) (operations : List Operation) :
    (model.run operations).nextListener =
      model.nextListener + operations.countP (·.isSubscribe) := by
  induction operations generalizing model with
  | nil => rfl
  | cons operation operations ih =>
      rw [run_cons, ih, Operation.apply_nextListener, List.countP_cons]
      omega

/-- Numbers are given in ascending order, without leaving one out. -/
theorem handedOut_eq (model : Model) (operations : List Operation) :
    model.handedOut operations =
      List.range' model.nextListener (operations.countP (·.isSubscribe)) := by
  induction operations generalizing model with
  | nil => rfl
  | cons operation operations ih =>
      rw [handedOut, ih, Operation.apply_nextListener, List.countP_cons]
      cases operation with
      | subscribe => simp [Operation.given?, Operation.isSubscribe, subscribe, List.range'_succ]
      | _ => simp [Operation.given?, Operation.isSubscribe]

theorem handedOut_append_singleton (model : Model) (operations : List Operation)
    (operation : Operation) : model.handedOut (operations ++ [operation]) =
      model.handedOut operations ++ (operation.given? (model.run operations)).toList := by
  induction operations generalizing model with
  | nil => simp [handedOut]
  | cons first operations ih => simp [handedOut, ih]

/-- Listeners stand in the order in which they were given their numbers. -/
theorem listeners_sublist {model : Model} (hnone : model.listeners = [])
    (operations : List Operation) :
    (model.run operations).listeners.Sublist (model.handedOut operations) := by
  induction operations using List.reverseRecOn with
  | nil => simp [hnone, handedOut]
  | append_singleton operations operation ih =>
      rw [run_append_singleton, Operation.apply_listeners, handedOut_append_singleton]
      cases operation with
      | update path value => simpa [Operation.given?] using ih
      | evaluateAll => simpa [Operation.given?] using ih
      | subscribe => exact ih.append (List.Sublist.refl _)
      | unsubscribe other => simpa [Operation.given?] using List.filter_sublist.trans ih

/-- In all states numbers ascend, and the next one is not yet given. -/
theorem Reachable.listeners_lt {model : Model} (h : model.Reachable) :
    model.listeners.Nodup ∧ ∀ listener ∈ model.listeners, listener < model.nextListener := by
  induction h with
  | load hload =>
      obtain ⟨questions, -, rfl⟩ := load_spec hload
      simp
  | @apply model operation _ ih =>
      obtain ⟨hnodup, hlt⟩ := ih
      rw [operation.apply_listeners, operation.apply_nextListener]
      cases operation with
      | update path value => exact ⟨hnodup, hlt⟩
      | evaluateAll => exact ⟨hnodup, hlt⟩
      | subscribe =>
          refine ⟨List.nodup_append.mpr ⟨hnodup, by simp, ?_⟩, ?_⟩
          · intro a ha b hb
            rw [List.mem_singleton.mp hb]
            exact Nat.ne_of_lt (hlt a ha)
          · intro listener hmem
            simp only [List.mem_append, List.mem_singleton] at hmem
            simp only [Operation.isSubscribe, if_true]
            rcases hmem with hmem | rfl
            · exact Nat.lt_succ_of_lt (hlt listener hmem)
            · exact Nat.lt_succ_self _
      | unsubscribe other =>
          exact ⟨hnodup.filter _, fun listener hmem => hlt listener (List.mem_filter.mp hmem).1⟩

end Model

/-! ## Copies of a survey -/

/-- What a listener knows of a question. -/
structure Shown where
  name : String
  title : String
  visible : Bool
deriving DecidableEq

def Question.shown (question : Question) : Shown :=
  ⟨question.name, question.rendered, question.visible⟩

def Model.shown (model : Model) : List Shown := model.questions.map Question.shown

/-- What a listener knows of a question after a call. -/
def Event.revise (event : Event) (shown : Shown) : Shown :=
  if shown.name = event.question then
    match event with
    | titleChanged _ title => { shown with title := title }
    | visibilityChanged _ visible => { shown with visible := visible }
  else shown

/-- A copy of a survey after some calls. -/
def follow (copy : List Shown) (events : List Event) : List Shown :=
  events.foldl (fun copy event => copy.map event.revise) copy

/-- What a listener is told by some calls. -/
def received (listener : Nat) (calls : List (Nat × Event)) : List Event :=
  (calls.filter (·.1 = listener)).map (·.2)

theorem follow_append (copy : List Shown) (events more : List Event) :
    follow copy (events ++ more) = follow (follow copy events) more :=
  List.foldl_append

theorem received_append (listener : Nat) (calls more : List (Nat × Event)) :
    received listener (calls ++ more) = received listener calls ++ received listener more := by
  simp [received]

/-- Of the calls with one event, each listener receives one. -/
theorem received_event {listeners : List Nat} {listener : Nat} (hnodup : listeners.Nodup)
    (hmem : listener ∈ listeners) (event : Event) :
    received listener (listeners.map fun listener => (listener, event)) = [event] := by
  have honce : listeners.filter (· = listener) = [listener] := by
    rw [List.filter_eq, List.count_eq_one_of_mem hnodup hmem]
    rfl
  rw [received, List.filter_map, List.map_map]
  exact congrArg (List.map fun _ => event) honce

/-! ## A copy that is kept up to date -/

theorem Event.shown_applyTo {event : Event} {question : Question}
    (h : question.name = event.question) :
    (event.applyTo question).shown = event.revise question.shown := by
  have hname : question.shown.name = event.question := h
  unfold revise
  rw [if_pos hname]
  cases event <;> rfl

theorem Event.name_applyTo (event : Event) (question : Question) :
    (event.applyTo question).name = question.name := by
  cases event <;> rfl

/-- Where names are unique, a call tells of one question only. -/
theorem Event.map_shown_set {event : Event} {questions : List Question}
    (hnames : (questions.map (·.name)).Nodup) {place : Nat} {question : Question}
    (hquestion : questions[place]? = some question) (hname : question.name = event.question) :
    (questions.set place (event.applyTo question)).map Question.shown =
      (questions.map Question.shown).map event.revise := by
  obtain ⟨hplace, rfl⟩ := List.getElem?_eq_some_iff.mp hquestion
  obtain ⟨before, behind, hsplit, -, hset⟩ :=
    @List.exists_of_set _ _ (event.applyTo questions[place]) _ hplace
  rw [hset]
  generalize questions[place] = question at *
  subst hsplit
  rw [List.map_append, List.map_cons, List.nodup_middle, List.nodup_cons] at hnames
  -- the questions before and behind have other names, so the call revises none of them
  have hothers : ∀ others ⊆ before ++ behind,
      (others.map Question.shown).map event.revise = others.map Question.shown := by
    intro others hsub
    rw [List.map_map]
    refine List.map_congr_left fun other hother => if_neg fun heq => hnames.1 ?_
    rw [← List.map_append, hname, ← heq]
    exact List.mem_map_of_mem (hsub hother)
  simp only [List.map_append, List.map_cons, shown_applyTo hname,
    hothers before (List.subset_append_left _ _), hothers behind (List.subset_append_right _ _)]

namespace Progress

/-- The copy of a listener who is called with each change is the survey as it is. -/
structure Followed (listener : Nat) (copy : List Shown) (progress : Progress) : Prop where
  names_nodup : (progress.model.questions.map (·.name)).Nodup
  listeners_nodup : progress.model.listeners.Nodup
  subscribed : listener ∈ progress.model.listeners
  current : follow copy (received listener progress.calls) = progress.model.shown

variable {listener : Nat} {copy : List Shown} {progress : Progress}

theorem Followed.make (h : progress.Followed listener copy) {place : Nat} {question : Question}
    (hquestion : progress.model.questions[place]? = some question) {event : Event}
    (hname : question.name = event.question) :
    (progress.make place question event).Followed listener copy where
  names_nodup := by
    have hsame : (progress.model.questions.set place (event.applyTo question)).map (·.name) =
        progress.model.questions.map (·.name) := by
      rw [List.map_set, Event.name_applyTo, ← List.map_set, set_of_getElem? hquestion]
    exact hsame ▸ h.names_nodup
  listeners_nodup := h.listeners_nodup
  subscribed := h.subscribed
  current := by
    have hreceived : received listener (progress.make place question event).calls =
        received listener progress.calls ++ [event] := by
      rw [Progress.make, received_append, received_event h.listeners_nodup h.subscribed]
    rw [hreceived, follow_append, h.current]
    exact (Event.map_shown_set h.names_nodup hquestion hname).symm

theorem Followed.evaluated (h : progress.Followed listener copy) (env : Environment)
    (failures : List Failure) : (progress.evaluated env failures).Followed listener copy :=
  ⟨h.names_nodup, h.listeners_nodup, h.subscribed, h.current⟩

theorem Followed.titleAt (h : progress.Followed listener copy) (place : Nat) :
    (progress.titleAt place).Followed listener copy := by
  rcases progress.titleAt_cases place with heq | ⟨question, title, hquestion, heq⟩
  · rwa [heq]
  · rw [heq]
    exact h.make hquestion rfl

theorem Followed.visibilityAt (h : progress.Followed listener copy) (place : Nat) :
    (progress.visibilityAt place).Followed listener copy := by
  obtain ⟨env, failures, heq | ⟨question, visible, hquestion, heq⟩⟩ :=
    progress.visibilityAt_cases place
  · rw [heq]
    exact h.evaluated env failures
  · rw [heq]
    exact (h.evaluated env failures).make hquestion rfl

theorem followed_refresh {model : Model} (hstart : Followed listener copy { model := model })
    (titles visibility : List Nat) :
    (refresh model titles visibility).Followed listener copy := by
  have htitles := List.foldlRecOn titles titleAt
    (motive := Followed listener copy) hstart fun _ h place _ => h.titleAt place
  exact List.foldlRecOn visibility visibilityAt htitles fun _ h place _ => h.visibilityAt place

end Progress

namespace Model

/-- The calls made in a run. -/
def calls (model : Model) : List Operation → List (Nat × Event)
  | [] => []
  | operation :: operations =>
    (operation.perform model).calls ++ (operation.perform model).model.calls operations

variable {model : Model} {listener : Nat}

/-- An operation keeps the copy of a listener up to date, unless it unsubscribes that listener. -/
theorem Reachable.followed_perform (h : model.Reachable) (hmem : listener ∈ model.listeners)
    {operation : Operation} (hne : operation ≠ .unsubscribe listener) :
    (operation.perform model).Followed listener model.shown := by
  obtain ⟨hnodup, hlt⟩ := h.listeners_lt
  cases operation with
  | update path value =>
      have hstart : Progress.Followed listener model.shown
          { model := { model with environment := model.environment.set path value } } :=
        ⟨h.names_nodup, hnodup, hmem, rfl⟩
      exact Progress.followed_refresh hstart _ _
  | evaluateAll => exact Progress.followed_refresh ⟨h.names_nodup, hnodup, hmem, rfl⟩ _ _
  | subscribe =>
      -- the new number is none of those that are there
      have hafter := (h.apply .subscribe).listeners_lt.1
      exact ⟨h.names_nodup, hafter, List.mem_append_left _ hmem, rfl⟩
  | unsubscribe other =>
      have hstays : listener ≠ other := fun heq => hne (heq ▸ rfl)
      exact ⟨h.names_nodup, hnodup.filter _,
        List.mem_filter.mpr ⟨hmem, decide_eq_true hstays⟩, rfl⟩

theorem Reachable.follow_calls (h : model.Reachable) (hmem : listener ∈ model.listeners)
    {operations : List Operation} (hnever : .unsubscribe listener ∉ operations) :
    follow model.shown (received listener (model.calls operations)) =
      (model.run operations).shown := by
  induction operations generalizing model with
  | nil => rfl
  | cons operation operations ih =>
      rw [List.mem_cons, not_or] at hnever
      -- up to date after one operation, the copy is where the rest of the run starts
      have hstep := h.followed_perform hmem (Ne.symm hnever.1)
      have hafter : (operation.perform model).model = operation.apply model := by
        rw [h.perform_eq]
      rw [calls, received_append, follow_append, hstep.current, hafter, run_cons]
      exact ih (h.apply operation) (hafter ▸ hstep.subscribed) hnever.2

/-! ## All runs -/

theorem Reachable.unsubscribe_fst (h : model.Reachable) (listener : Nat) :
    (model.unsubscribe listener).1 =
      { model with listeners := model.listeners.erase listener } := by
  have herase : model.listeners.erase listener = model.listeners.filter (· ≠ listener) := by
    rw [h.listeners_lt.1.erase_eq_filter]
    refine List.filter_congr fun other _ => ?_
    rw [decide_not, bne, beq_eq_decide]
  rw [herase]
  rfl

theorem mem_iff_length_erase {listeners : List Nat} :
    listener ∈ listeners ↔ (listeners.erase listener).length ≠ listeners.length := by
  by_cases hmem : listener ∈ listeners
  · have hpos := List.length_pos_of_mem hmem
    rw [List.length_erase_of_mem hmem]
    exact iff_of_true hmem (by omega)
  · rw [List.erase_of_not_mem hmem]
    exact iff_of_false hmem (absurd rfl)

/-- **Listeners are told of every change once.**  In a run, listeners are given numbers in ascending
order, none of them twice; as long as there are fewer than `2 ^ 64` of them, the next number fits
into 64 bits.  The listeners of a state are those that are subscribed, in this order, and an
unsubscription removes one of them, if it is there, and tells whether it was.  An operation calls
them with each change that it reports, first the titles and then the visibilities.  So a listener
who has a copy of the survey when it subscribes and revises it with each call has the survey as it
is after every operation, until it is unsubscribed. -/
theorem changes_told {definition : Definition} (hload : load definition = .ok model)
    (operations : List Operation) :
    let now := model.run operations
    (model.handedOut operations = List.range (operations.countP (·.isSubscribe)) ∧
      now.nextListener = operations.countP (·.isSubscribe)) ∧
    (now.listeners.Sublist (model.handedOut operations) ∧
      ∀ listener, listener ∈ now.listeners ↔ model.Subscribed operations listener) ∧
    (∀ listener, ((now.unsubscribe listener).2 = true ↔ model.Subscribed operations listener) ∧
      (now.unsubscribe listener).1 = { now with listeners := now.listeners.erase listener } ∧
      ((now.unsubscribe listener).2 = true ↔
        (now.unsubscribe listener).1.listeners.length ≠ now.listeners.length)) ∧
    (∀ operation : Operation, operation.perform now = ⟨operation.apply now, operation.report now,
      now.notifications (operation.report now)⟩) ∧
    ∀ later, .unsubscribe now.subscribe.2 ∉ later →
      follow now.shown (received now.subscribe.2 (now.subscribe.1.calls later)) =
        (now.subscribe.1.run later).shown := by
  intro now
  have hreachable : now.Reachable := (Reachable.load hload).run operations
  have hstart : model.listeners = [] ∧ model.nextListener = 0 := by
    obtain ⟨questions, -, rfl⟩ := load_spec hload
    exact ⟨rfl, rfl⟩
  obtain ⟨hnone, hfirst⟩ := hstart
  have hmem := mem_listeners_run hnone operations
  refine ⟨⟨?_, ?_⟩, ⟨listeners_sublist hnone operations, hmem⟩, fun listener => ?_,
    hreachable.perform_eq, fun later hnever => ?_⟩
  · rw [handedOut_eq, hfirst, List.range_eq_range']
  · rw [run_nextListener, hfirst, Nat.zero_add]
  · have herase := hreachable.unsubscribe_fst listener
    have htold : (now.unsubscribe listener).2 = true ↔ listener ∈ now.listeners :=
      decide_eq_true_iff
    refine ⟨htold.trans (hmem listener), herase, htold.trans ?_⟩
    rw [herase]
    exact mem_iff_length_erase
  · have hsubscribed : now.subscribe.2 ∈ now.subscribe.1.listeners :=
      List.mem_append_right _ (List.mem_singleton_self _)
    exact (hreachable.apply .subscribe).follow_calls hsubscribed hnever

/-- A listener that came and went, one that stayed, and one that comes later. -/
def comingRun : List Operation := [.subscribe, .evaluateAll, .subscribe, .unsubscribe 0]

/-- Two answers, of which the first shows a question and the second changes its title. -/
def answeringRun : List Operation :=
  [.update "liked.answer" (.text "yes"), .unsubscribe 1, .update "color" (.text "red")]

theorem changes_told_colorSurvey : ∃ model, load colorSurvey = .ok model ∧
    model.handedOut comingRun = [0, 1] ∧
    ((model.run comingRun).unsubscribe 0).2 = false ∧
    ((model.run comingRun).unsubscribe 1).2 = true ∧
    follow (model.run comingRun).shown
      [.visibilityChanged "why" true, .titleChanged "why" "Why red?"] =
        ((model.run comingRun).subscribe.1.run answeringRun).shown := by
  have hcalls : (load colorSurvey).toOption.map (fun model =>
      received 2 ((model.run comingRun).subscribe.1.calls answeringRun)) =
        some [.visibilityChanged "why" true, .titleChanged "why" "Why red?"] := by
    decide +kernel
  obtain ⟨model, hload, hcalls⟩ := exists_of_toOption_map hcalls
  obtain ⟨⟨hgiven, hnext⟩, -, hunsubscribe, -, hcopy⟩ := changes_told hload comingRun
  have hnumber : (model.run comingRun).subscribe.2 = 2 := hnext
  have hgone : ¬model.Subscribed comingRun 0 := by
    have hlast : comingRun = [.subscribe, .evaluateAll, .subscribe] ++ [.unsubscribe 0] := rfl
    rw [hlast, subscribed_append_singleton]
    simp
  have hstays : model.Subscribed comingRun 1 :=
    ⟨[.subscribe, .evaluateAll], [.unsubscribe 0], rfl, (changes_told hload _).1.2, by simp⟩
  have hanswered := hcopy answeringRun (by simp [hnumber, answeringRun])
  rw [hnumber, hcalls] at hanswered
  exact ⟨model, hload, hgiven, by simpa [hgone] using (hunsubscribe 0).1,
    (hunsubscribe 1).1.mpr hstays, hanswered⟩

end Model

end SurveyLogic

import SurveyLogic.Proofs.Survey.InTurn
import SurveyLogic.Proofs.Survey.Independence

/-!
# Loading

A survey is loaded exactly if its names are distinct and its conditions compile.  Otherwise loading
blames the first question that has a fault (`QuestionDefinition.Fault`): its name was given before,
or else its condition is malformed.  What was read before that question has no part in the error.
-/

namespace SurveyLogic

/-! ## Faults -/

/-- No name is given twice, and every condition that is asked for compiles. -/
structure QuestionDefinition.Valid (entries : List QuestionDefinition) : Prop where
  names : (entries.map (·.name)).Nodup
  conditions : ∀ entry ∈ entries, ∀ source, entry.Asks source →
    ∃ compiled, Compiled.condition source = .ok compiled

/-- What is wrong with a question behind others with the given names.  Nobody looks at the condition
of a question whose name is among these. -/
inductive QuestionDefinition.Fault (names : List String) (entry : QuestionDefinition) :
    SurveyError → Prop
  | repeated : entry.name ∈ names → Fault names entry (.duplicateQuestion entry.name)
  | malformed {source : String} {error : SyntaxError} : entry.name ∉ names →
    entry.Asks source → Compiled.condition source = .error error →
    Fault names entry (.invalidCondition entry.name error)

/-- What is wrong with the question at a place, given those before it. -/
def QuestionDefinition.FaultAt (entries : List QuestionDefinition) (place : Nat)
    (error : SurveyError) : Prop :=
  ∃ entry, entries[place]? = some entry ∧ entry.Fault ((entries.take place).map (·.name)) error

namespace QuestionDefinition

theorem Fault.unique {names : List String} {entry : QuestionDefinition} {error other : SurveyError}
    (h : entry.Fault names error) (h' : entry.Fault names other) : error = other := by
  cases h with
  | repeated hname =>
      cases h' with
      | repeated => rfl
      | malformed hnew => exact absurd hname hnew
  | malformed hnew hasks herror =>
      cases h' with
      | repeated hname => exact absurd hname hnew
      | malformed _ hasks' herror' =>
          obtain rfl := hasks.unique hasks'
          rw [Except.error.inj (herror.symm.trans herror')]

theorem Fault.congr {names others : List String} {entry : QuestionDefinition} {error : SurveyError}
    (hsame : entry.name ∈ names ↔ entry.name ∈ others) (h : entry.Fault names error) :
    entry.Fault others error := by
  cases h with
  | repeated hname => exact .repeated (hsame.mp hname)
  | malformed hnew hasks herror => exact .malformed (mt hsame.mpr hnew) hasks herror

/-- A fault among the first questions is one of these alone. -/
theorem FaultAt.of_append {before behind : List QuestionDefinition} {place : Nat}
    {error : SurveyError} (h : FaultAt (before ++ behind) place error)
    (hplace : place < before.length) : FaultAt before place error := by
  obtain ⟨entry, hentry, hfault⟩ := h
  rw [List.getElem?_append_left hplace] at hentry
  rw [List.take_append_of_le_length (Nat.le_of_lt hplace)] at hfault
  exact ⟨entry, hentry, hfault⟩

/-- A valid survey has no faults. -/
theorem Valid.not_faultAt {entries : List QuestionDefinition} (h : Valid entries) (place : Nat)
    (error : SurveyError) : ¬ FaultAt entries place error := by
  rintro ⟨entry, hentry, hfault⟩
  cases hfault with
  | repeated hname =>
      obtain ⟨hplace, rfl⟩ := List.getElem?_eq_some_iff.mp hentry
      have hnames := h.names
      rw [← List.take_append_drop place entries, List.map_append, List.nodup_append] at hnames
      refine hnames.2.2 _ hname _ ?_ rfl
      rw [List.drop_eq_getElem_cons hplace]
      exact List.mem_cons_self
  | malformed _ hasks herror =>
      obtain ⟨compiled, hcompiled⟩ := h.conditions entry (List.mem_of_getElem? hentry) _ hasks
      rw [hcompiled] at herror
      contradiction

theorem Valid.cons {entries : List QuestionDefinition} {entry : QuestionDefinition}
    (h : Valid entries) (hnew : entry.name ∉ entries.map (·.name))
    (hcondition : ∀ source, entry.Asks source →
      ∃ compiled, Compiled.condition source = .ok compiled) : Valid (entry :: entries) where
  names := List.nodup_cons.mpr ⟨hnew, h.names⟩
  conditions := List.forall_mem_cons.mpr ⟨hcondition, h.conditions⟩

/-- The fault that no other comes before. -/
def FirstFault (entries : List QuestionDefinition) (error : SurveyError) : Prop :=
  ∃ place, FaultAt entries place error ∧
    ∀ before < place, ∀ other, ¬ FaultAt entries before other

theorem FirstFault.unique {entries : List QuestionDefinition} {error other : SurveyError}
    (h : FirstFault entries error) (h' : FirstFault entries other) : error = other := by
  obtain ⟨place, hfault, hfirst⟩ := h
  obtain ⟨place', hfault', hfirst'⟩ := h'
  -- a fault at an earlier place would contradict that the other comes first
  obtain rfl : place = place' := by
    rcases Nat.lt_trichotomy place place' with hlt | heq | hgt
    · exact absurd hfault (hfirst' place hlt error)
    · exact heq
    · exact absurd hfault' (hfirst place' hgt other)
  obtain ⟨entry, hentry, hfault⟩ := hfault
  obtain ⟨entry', hentry', hfault'⟩ := hfault'
  obtain rfl := Option.some.inj (hentry.symm.trans hentry')
  exact hfault.unique hfault'

/-- A fault behind a valid list of questions is the first one. -/
theorem firstFault_append {before behind : List QuestionDefinition} {entry : QuestionDefinition}
    {error : SurveyError} (hbefore : Valid before)
    (hfault : entry.Fault (before.map (·.name)) error) :
    FirstFault (before ++ entry :: behind) error := by
  refine ⟨before.length, ⟨entry, by simp, by simpa using hfault⟩, ?_⟩
  intro place hplace other hearlier
  exact hbefore.not_faultAt place other (hearlier.of_append hplace)

end QuestionDefinition

/-! ## The walk over the definitions -/

namespace Model

open QuestionDefinition

variable {definition : Definition} {model : Model} {entry : QuestionDefinition}
  {error : SurveyError}

/-- A condition that is refused does not compile, whatever was compiled before. -/
theorem compileCondition_error {cache : Cache}
    (h : compileCondition cache entry = .error error) :
    ∃ source reason, entry.Asks source ∧ Compiled.condition source = .error reason ∧
      error = .invalidCondition entry.name reason := by
  unfold compileCondition at h
  cases hsource : entry.condition? with
  | none => simp [hsource] at h
  | some source =>
      have hcompile := cache.compile_fst source
      rcases hcached : cache.compile source with ⟨reason | compiled, after⟩
      · rw [hcached] at hcompile
        obtain rfl : SurveyError.invalidCondition entry.name reason = error := by
          simpa [hsource, hcached] using h
        exact ⟨source, reason, condition?_eq_some_iff.mp hsource, hcompile.symm, rfl⟩
      · simp [hsource, hcached] at h

/-- The walk ends at a question with a fault, and what it has passed is valid. -/
theorem exists_fault_of_loadQuestions {options : Options} {entries : List QuestionDefinition}
    {index : Nat} {seen : List String} {cache : Cache}
    (h : loadQuestions options index seen cache entries = .error error) :
    ∃ before entry behind, entries = before ++ entry :: behind ∧ Valid before ∧
      (∀ other ∈ before, other.name ∉ seen) ∧
      entry.Fault (before.map (·.name) ++ seen) error := by
  induction entries generalizing index seen cache with
  | nil => simp [loadQuestions] at h
  | cons entry entries ih =>
      have hnone : Valid [] := ⟨List.nodup_nil, by simp⟩
      unfold loadQuestions at h
      split at h
      · -- the name was given before
        next hseen =>
        obtain rfl := Except.error.inj h
        exact ⟨[], entry, entries, rfl, hnone, by simp, .repeated hseen⟩
      · next hnew =>
        rcases error_of_bind_eq_error h with hcondition | ⟨⟨condition, after⟩, hcondition, hmore⟩
        · -- the condition is refused
          obtain ⟨source, reason, hasks, hreason, rfl⟩ := compileCondition_error hcondition
          exact ⟨[], entry, entries, rfl, hnone, by simp, .malformed hnew hasks hreason⟩
        · rcases error_of_bind_eq_error hmore with hrest | ⟨_, _, hok⟩
          · -- the fault is behind this question, which has none
            obtain ⟨before, first, behind, rfl, hvalid, hunseen, hfault⟩ := ih hrest
            refine ⟨entry :: before, first, behind, rfl, hvalid.cons ?_ ?_, ?_, ?_⟩
            · intro hmem
              obtain ⟨other, hother, hname⟩ := List.mem_map.mp hmem
              exact hunseen other hother (hname ▸ List.mem_cons_self)
            · exact fun source hasks => (compileCondition_spec hcondition).compiles hasks
            · refine List.forall_mem_cons.mpr ⟨hnew, fun other hother hseen => ?_⟩
              exact hunseen other hother (List.mem_cons_of_mem _ hseen)
            · refine hfault.congr ?_
              simp only [List.map_cons, List.mem_append, List.mem_cons]
              tauto
          · contradiction

theorem firstFault_of_load (h : load definition = .error error) :
    FirstFault definition.questions error := by
  rcases error_of_bind_eq_error h with hquestions | ⟨_, _, hok⟩
  · obtain ⟨before, entry, behind, hsplit, hvalid, -, hfault⟩ :=
      exists_fault_of_loadQuestions hquestions
    rw [hsplit]
    exact firstFault_append hvalid (by simpa using hfault)
  · contradiction

theorem valid_of_load (h : load definition = .ok model) : Valid definition.questions := by
  have hdefines := defines_of_load h
  constructor
  · have hnames : definition.questions.map (·.name) = model.questions.map (·.name) := by
      rw [← List.forall₂_eq_eq_eq, List.forall₂_map_left_iff, List.forall₂_map_right_iff]
      exact hdefines.imp fun _ _ h => h.name.symm
    rw [hnames]
    exact names_nodup_of_load h
  · intro entry hentry
    obtain ⟨question, -, hquestion⟩ := exists_of_forall₂_left hdefines hentry
    exact fun source hasks => hquestion.condition.compiles hasks

/-! ## What loading makes of a valid survey -/

/-- The place of each question under its name, noted one after the other. -/
def placesByName (questions : List Question) : List (String × Nat) :=
  questions.foldl (fun places question => Keyed.insert question.name question.index places) []

/-- What a survey looks like when it has just been loaded: its questions are those of the definition
in their order, found by their names, rendered without answers, and visible if they have no
condition or one that reads no answers and holds. -/
structure LoadedFrom (definition : Definition) (model : Model) : Prop where
  questions : List.Forall₂ Question.Defines definition.questions model.questions
  indices : model.questions.map (·.index) = List.range definition.questions.length
  found : ∀ name question, model.question? name = some question ↔
    question ∈ model.questions ∧ question.name = name
  located : ∀ name, model.question? name =
    (Keyed.get? name (placesByName model.questions)).bind (model.questions[·]?)
  rendered : ∀ question ∈ model.questions,
    question.rendered = question.title.render .empty definition.options.placeholderFallback
  visible : ∀ question ∈ model.questions, question.visible = true ↔
    question.condition = none ∨ ∃ condition value, question.condition = some condition ∧
      condition.roots = [] ∧ (condition.evaluate .empty).1 = .ok value ∧ value.isTruthy = true
  environment : model.environment = .empty
  options : model.options = definition.options

theorem holdsAtLoad_iff {condition : Compiled} : holdsAtLoad condition = true ↔
    condition.roots = [] ∧ ∃ value, (condition.evaluate .empty).1 = .ok value ∧
      value.isTruthy = true := by
  unfold holdsAtLoad
  rw [Bool.and_eq_true, List.isEmpty_iff]
  cases (condition.evaluate .empty).1 <;> simp

theorem Reachable.question?_eq_some_iff (h : model.Reachable) {name : String}
    {question : Question} : model.question? name = some question ↔
      question ∈ model.questions ∧ question.name = name := by
  constructor
  · intro hfound
    exact ⟨List.mem_of_find?_eq_some hfound, by simpa using List.find?_some hfound⟩
  · rintro ⟨hquestion, rfl⟩
    exact h.question?_eq hquestion

theorem get?_foldl_places {questions : List Question} (hnames : (questions.map (·.name)).Nodup)
    (places : List (String × Nat)) (name : String) :
    Keyed.get? name (questions.foldl
        (fun places question => Keyed.insert question.name question.index places) places) =
      ((questions.find? (·.name = name)).map (·.index)).or (Keyed.get? name places) := by
  induction questions generalizing places with
  | nil => rfl
  | cons question questions ih =>
      obtain ⟨hnew, hrest⟩ := List.nodup_cons.mp hnames
      rw [List.foldl_cons, ih hrest]
      by_cases hname : question.name = name
      · -- no later question replaces the entry
        have hlater : questions.find? (·.name = name) = none := by
          rw [List.find?_eq_none]
          intro other hother heq
          have hsame : other.name = question.name := (of_decide_eq_true heq).trans hname.symm
          exact hnew (List.mem_map.mpr ⟨other, hother, hsame⟩)
        simp [hlater, hname]
      · simp [hname, Keyed.get?_insert_of_ne (Ne.symm hname)]

/-- To look a name up in the places is to search the questions. -/
theorem Reachable.question?_eq_located (h : model.Reachable) (name : String) :
    model.question? name =
      (Keyed.get? name (placesByName model.questions)).bind (model.questions[·]?) := by
  have hplaced : Question.Placed model.questions := h.indices
  unfold question? placesByName
  rw [get?_foldl_places h.names_nodup]
  cases hfound : model.questions.find? (·.name = name) with
  | none => rfl
  | some question =>
      have hquestion := List.mem_of_find?_eq_some hfound
      exact (hplaced.getElem?_eq_some_iff.mpr ⟨hquestion, rfl⟩).symm

theorem loadedFrom_of_load (h : load definition = .ok model) : LoadedFrom definition model where
  questions := defines_of_load h
  indices := by
    rw [indices_of_load h, (defines_of_load h).length_eq]
  found name question := (Reachable.load h).question?_eq_some_iff
  located := (Reachable.load h).question?_eq_located
  rendered question hquestion := (initial_of_load h hquestion).1
  visible question hquestion := by
    rw [(initial_of_load h hquestion).2]
    cases question.condition with
    | none => simp
    | some condition => simp [holdsAtLoad_iff]
  environment := by
    obtain ⟨-, -, -, -, henvironment, -⟩ := questions_of_load h
    exact henvironment
  options := by
    obtain ⟨-, -, -, -, -, hoptions⟩ := questions_of_load h
    exact hoptions

/-- **Loading accepts the valid surveys and blames the first fault of any other.**  The error is
that of the first question that repeats a name or has a condition that does not compile.  A survey
that is loaded has the questions of its definition, each in its place and as it is without
answers. -/
theorem load_exact (definition : Definition) :
    ((∃ model, load definition = .ok model) ↔ Valid definition.questions) ∧
    (∀ error, load definition = .error error ↔ FirstFault definition.questions error) ∧
    (∀ model, load definition = .ok model → LoadedFrom definition model) := by
  refine ⟨⟨fun ⟨_, hload⟩ => valid_of_load hload, fun hvalid => ?_⟩,
    fun error => ⟨firstFault_of_load, fun hfault => ?_⟩, fun model => loadedFrom_of_load⟩
  · cases hload : load definition with
    | ok model => exact ⟨model, rfl⟩
    | error error =>
        obtain ⟨place, hfault, -⟩ := firstFault_of_load hload
        exact absurd hfault (hvalid.not_faultAt place error)
  · cases hload : load definition with
    | ok model =>
        obtain ⟨place, hat, -⟩ := hfault
        exact absurd hat ((valid_of_load hload).not_faultAt place error)
    | error other => rw [(firstFault_of_load hload).unique hfault]

/-- The first three questions are a survey of their own.  The fourth repeats a name and has a
malformed condition, and so has the last. -/
def faultySurvey : Definition where
  questions := [
    { name := "open", title := "Open?", visibleWhen := some " " },
    { name := "size", title := "How big?", visibleWhen := some " 1 < 2 " },
    { name := "why", title := "Why?", visibleWhen := some " open = 'yes'" },
    { name := "open", title := "Why?", visibleWhen := some "1 +" },
    { name := "cost", title := "How much?", visibleWhen := some " ) " }]

theorem load_exact_faulty :
    FirstFault faultySurvey.questions (.duplicateQuestion "open") ∧
    ¬ Valid faultySurvey.questions ∧
    FirstFault (faultySurvey.questions.eraseIdx 3) (.invalidCondition "cost"
      (.unexpectedToken (.symbol .closeParen) .expression 0)) ∧
    ∃ model, load { faultySurvey with questions := faultySurvey.questions.take 3 } = .ok model ∧
      LoadedFrom { faultySurvey with questions := faultySurvey.questions.take 3 } model ∧
      model.visibleQuestions.map (·.name) = ["open", "size"] ∧
      model.questions.map (·.condition.map (·.roots)) = [none, some [], some ["open"]] := by
  have herror : load faultySurvey = .error (.duplicateQuestion "open") :=
    eq_error_of_seen (by decide +kernel)
  have hmalformed : load { faultySurvey with questions := faultySurvey.questions.eraseIdx 3 } =
      .error (.invalidCondition "cost" (.unexpectedToken (.symbol .closeParen) .expression 0)) :=
    eq_error_of_seen (by decide +kernel)
  have hseen : (load { faultySurvey with
      questions := faultySurvey.questions.take 3 }).toOption.map
        (fun model => (model.visibleQuestions.map (·.name),
          model.questions.map (·.condition.map (·.roots)))) =
      some (["open", "size"], [none, some [], some ["open"]]) := by
    decide +kernel
  obtain ⟨hvalid, hfault, -⟩ := load_exact faultySurvey
  obtain ⟨model, hload, hseen⟩ := exists_of_toOption_map hseen
  obtain ⟨hvisible, hroots⟩ := Prod.mk.inj hseen
  have hloaded := (load_exact _).2.2 model hload
  refine ⟨(hfault _).mp herror, fun h => ?_, ((load_exact _).2.1 _).mp hmalformed, model, hload,
    hloaded, hvisible, hroots⟩
  obtain ⟨model, hload⟩ := hvalid.mpr h
  rw [herror] at hload
  contradiction

end Model

end SurveyLogic

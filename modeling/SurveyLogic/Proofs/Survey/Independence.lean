import SurveyLogic.Proofs.Survey.Reachable

/-!
# Questions are independent

What becomes of a question, and what is reported of it, depends on nothing but the question and the
answers that it reads.  `Model.question_independent` says so of two changes: the other questions of
the survey may be left out, and so may updates that the question does not read.

Two states are `Alike` about a question when it is the same in both, up to its place, and the
answers that it reads are the same.  An operation on both keeps this and reports the same of the
question (`Model.Alike.apply`); an update that the question does not read keeps it on one side alone
and reports nothing (`Model.Alike.skip`).  Visibility may have been left behind by a condition that
failed, so it is part of what is alike and not something to be computed from the answers.
-/

namespace SurveyLogic

open Environment

/-! ## One question in two states -/

namespace Question

/-- The same question, perhaps at different places. -/
structure Twin (a b : Question) : Prop where
  name : a.name = b.name
  title : a.title = b.title
  condition : a.condition = b.condition
  rendered : a.rendered = b.rendered
  visible : a.visible = b.visible

theorem Twin.refl (question : Question) : Twin question question := ⟨rfl, rfl, rfl, rfl, rfl⟩

/-- The names that a question reads stand for the same answers. -/
def ReadsAlike (question : Question) (env after : Environment) : Prop :=
  AgreeOn question.title.roots env after ∧
    AgreeOn (Dependents.conditionRoots question) env after

variable {a b : Question} {env env' : Environment}

/-- The outcome of the condition, which reads the same on both sides. -/
theorem evaluate_congr {condition : Compiled} (hcondition : a.condition = some condition)
    (hreads : a.ReadsAlike env env') :
    (condition.evaluate env).1 = (condition.evaluate env').1 := by
  have hroots : AgreeOn condition.roots env env' := conditionRoots_eq hcondition ▸ hreads.2
  exact Expr.outcome_eval_congr hroots

theorem Twin.visibleAfter_eq (h : Twin a b) (hreads : a.ReadsAlike env env') :
    a.visibleAfter env = b.visibleAfter env' := by
  unfold visibleAfter
  rw [← h.condition, ← h.visible]
  cases hcondition : a.condition with
  | none => rfl
  | some condition => simp only [evaluate_congr hcondition hreads]

theorem Twin.failure?_eq (h : Twin a b) (hreads : a.ReadsAlike env env') :
    a.failure? env = b.failure? env' := by
  unfold failure?
  rw [← h.condition, ← h.name]
  cases hcondition : a.condition with
  | none => rfl
  | some condition => simp only [Option.bind_some, evaluate_congr hcondition hreads]

theorem Twin.refreshed (h : Twin a b) (hreads : a.ReadsAlike env env') {fallback : Fallback}
    {titles visibility titles' visibility' : List Nat}
    (htitles : a.index ∈ titles ↔ b.index ∈ titles')
    (hvisibility : a.index ∈ visibility ↔ b.index ∈ visibility') :
    Twin (a.refreshed env fallback titles visibility)
      (b.refreshed env' fallback titles' visibility') where
  name := h.name
  title := h.title
  condition := h.condition
  rendered := by
    have hrender : a.title.render env fallback = b.title.render env' fallback := by
      rw [Title.render_congr hreads.1, h.title]
    simp only [Question.refreshed, htitles, hrender, h.rendered]
  visible := by
    simp only [Question.refreshed, hvisibility, h.visibleAfter_eq hreads, h.visible]

end Question

/-! ## What is reported of one question -/

/-- The entries of a report about the question with a name. -/
def Report.about (name : String) (report : Report) : Report where
  titles := report.titles.filter (·.1 = name)
  visibility := report.visibility.filter (·.1 = name)
  failures := report.failures.filter (·.question = name)

/-- Where names are unique, the entries under a name are those about its question. -/
theorem filter_key_filterMap {α : Type} {key : α → String} {about? : Question → Option α}
    {questions : List Question} (hkey : ∀ question entry, about? question = some entry →
      key entry = question.name) (hnames : (questions.map (·.name)).Nodup) {question : Question}
    (hquestion : question ∈ questions) :
    (questions.filterMap about?).filter (fun entry => key entry = question.name) =
      (about? question).toList := by
  induction questions with
  | nil => simp at hquestion
  | cons first questions ih =>
      obtain ⟨hfirst, hnames⟩ := List.nodup_cons.mp hnames
      rcases List.mem_cons.mp hquestion with rfl | hquestion
      · -- every other entry is of a question with another name
        have hothers : (questions.filterMap about?).filter (fun entry => key entry = question.name)
            = [] := by
          refine List.filter_eq_nil_iff.mpr fun entry hentry => ?_
          obtain ⟨other, hother, habout⟩ := List.mem_filterMap.mp hentry
          rw [hkey other entry habout, decide_eq_true_iff]
          exact fun hname => hfirst (List.mem_map.mpr ⟨other, hother, hname⟩)
        cases habout : about? question with
        | none => simpa [habout] using hothers
        | some entry => simpa [habout, hkey question entry habout] using hothers
      · -- the first question has another name, and so has its entry
        have hne : first.name ≠ question.name := fun hname =>
          hfirst (List.mem_map.mpr ⟨question, hquestion, hname.symm⟩)
        rw [← ih hnames hquestion]
        cases habout : about? first with
        | none => simp [habout]
        | some entry => simp [habout, hkey first entry habout, hne]

namespace Operation

open Question

/-- What an operation reports of one question of a model. -/
def reportOn (operation : Operation) (model : Model) (question : Question) : Report where
  titles := (titleChange? question (operation.after model question)).toList
  visibility := (visibilityChange? question (operation.after model question)).toList
  failures :=
    (if question.index ∈ operation.conditionsDue model then
      question.failure? (operation.write model.environment) else none).toList

theorem about_report {model : Model} (h : model.Reachable) {question : Question}
    (hquestion : question ∈ model.questions) (operation : Operation) :
    (operation.report model).about question.name = operation.reportOn model question := by
  have htitle : ∀ other entry, titleChange? other (operation.after model other) = some entry →
      entry.1 = other.name := fun _ _ => key_of_titleChange?
  have hvisibility : ∀ other entry,
      visibilityChange? other (operation.after model other) = some entry → entry.1 = other.name :=
    fun _ _ => key_of_visibilityChange?
  have hfailure : ∀ (other : Question) failure,
      (if other.index ∈ operation.conditionsDue model then
        other.failure? (operation.write model.environment) else none) = some failure →
      failure.question = other.name := fun _ _ => key_of_failure?_if_due
  unfold Report.about reportOn
  rw [report_titles, report_visibility, report_failures,
    filter_key_filterMap htitle h.names_nodup hquestion,
    filter_key_filterMap hvisibility h.names_nodup hquestion,
    filter_key_filterMap hfailure h.names_nodup hquestion]

end Operation

/-! ## Two states -/

theorem agreeOn_write {names : List String} {a b : Environment} (h : AgreeOn names a b)
    (operation : Operation) : AgreeOn names (operation.write a) (operation.write b) := by
  cases operation with
  | update path value => exact h.set path value
  | _ => exact h

/-- Whether a question reads a name, in a placeholder of its title or in its condition. -/
def QuestionDefinition.Reads (entry : QuestionDefinition) (name : String) : Prop :=
  name ∈ (Title.parse entry.title).roots ∨
    ∃ source condition, entry.Asks source ∧
      Compiled.condition source = .ok condition ∧ name ∈ condition.roots

namespace Model

open Question

/-- The question of a definition is the same in both states, and so are the answers it reads. -/
structure Alike (entry : QuestionDefinition) (a b : Model) : Prop where
  fallback : a.options.placeholderFallback = b.options.placeholderFallback
  questions : ∃ p ∈ a.questions, ∃ q ∈ b.questions, Defines entry p ∧ Twin p q ∧
    p.ReadsAlike a.environment b.environment

theorem reads_of_mem_roots {entry : QuestionDefinition} {question : Question}
    (h : Defines entry question) {name : String}
    (hname : name ∈ question.title.roots ∨ name ∈ Dependents.conditionRoots question) :
    entry.Reads name := by
  refine hname.imp (fun htitle => h.title ▸ htitle) fun hcondition => ?_
  -- a condition that the question has was accepted for the text its definition asks for
  unfold Dependents.conditionRoots at hcondition
  split at hcondition
  · next condition hsome =>
      obtain ⟨source, hsource, haccepted⟩ := accepted_of_defines h hsome
      exact ⟨source, condition, hsource, haccepted, hcondition⟩
  · simp at hcondition

variable {entry : QuestionDefinition} {a b : Model}

/-- An operation on both states keeps them alike, and reports the same of the question. -/
theorem Alike.apply (h : Alike entry a b) (ha : a.Reachable) (hb : b.Reachable)
    (operation : Operation) : Alike entry (operation.apply a) (operation.apply b) ∧
      (operation.report a).about entry.name = (operation.report b).about entry.name := by
  obtain ⟨p, hp, q, hq, hdefines, htwin, hreads⟩ := h.questions
  have hwritten : p.ReadsAlike (operation.write a.environment) (operation.write b.environment) :=
    ⟨agreeOn_write hreads.1 operation, agreeOn_write hreads.2 operation⟩
  have htitles : p.index ∈ operation.titlesDue a ↔ q.index ∈ operation.titlesDue b := by
    rw [ha.consistent.index_mem_titlesDue hp, hb.consistent.index_mem_titlesDue hq, htwin.title]
  have hconditions : p.index ∈ operation.conditionsDue a ↔ q.index ∈ operation.conditionsDue b := by
    rw [ha.consistent.index_mem_conditionsDue hp, hb.consistent.index_mem_conditionsDue hq,
      Dependents.conditionRoots_congr htwin.condition]
  -- due in both or in neither, with the same answers to read, the question comes out the same
  have hafter : Twin (operation.after a p) (operation.after b q) := by
    unfold Operation.after
    rw [← h.fallback]
    exact htwin.refreshed hwritten htitles hconditions
  constructor
  · refine ⟨?_, operation.after a p, ?_, operation.after b q, ?_, ?_, hafter, ?_⟩
    · rw [apply_options, apply_options]
      exact h.fallback
    · rw [operation.apply_questions_eq]
      exact List.mem_map_of_mem hp
    · rw [operation.apply_questions_eq]
      exact List.mem_map_of_mem hq
    · exact ⟨hdefines.name, hdefines.title, hdefines.condition⟩
    · rw [apply_environment, apply_environment]
      exact hwritten
  · rw [← hdefines.name, Operation.about_report ha hp, htwin.name, Operation.about_report hb hq]
    unfold Operation.reportOn titleChange? visibilityChange?
    simp only [htwin.rendered, htwin.visible, hafter.rendered, hafter.visible, hafter.name,
      hconditions, htwin.failure?_eq hwritten]

/-- An update that the question does not read keeps the states alike when it is made on one side
only, and reports nothing of the question. -/
theorem Alike.skip (h : Alike entry a b) (ha : a.Reachable) {path : String}
    (hunread : ¬ entry.Reads (Text.root path)) (value : Value) :
    Alike entry ((Operation.update path value).apply a) b ∧
      ((Operation.update path value).report a).about entry.name = {} := by
  obtain ⟨p, hp, q, hq, hdefines, htwin, hreads⟩ := h.questions
  obtain ⟨htitle, hcondition⟩ := not_or.mp fun hname => hunread (reads_of_mem_roots hdefines hname)
  have hidle : p.index ∉ (Operation.update path value).titlesDue a := by
    rwa [ha.consistent.index_mem_titlesDue hp]
  have hidle' : p.index ∉ (Operation.update path value).conditionsDue a := by
    rwa [ha.consistent.index_mem_conditionsDue hp]
  -- nothing of the question is due, so the update passes it by
  have hsame : (Operation.update path value).after a p = p := by
    simp only [Operation.after, refreshed, if_neg hidle, if_neg hidle']
  constructor
  · refine ⟨h.fallback, p, ?_, q, hq, hdefines, htwin, ?_⟩
    · rw [Operation.apply_questions_eq, ← hsame]
      exact List.mem_map_of_mem hp
    · exact ⟨(agreeOn_set htitle value _).trans hreads.1,
        (agreeOn_set hcondition value _).trans hreads.2⟩
  · rw [← hdefines.name, Operation.about_report ha hp]
    simp [Operation.reportOn, titleChange?, visibilityChange?, hsame, hidle']

/-! ## Runs -/

/-- The reports of a run, one for each operation. -/
def reports (model : Model) : List Operation → List Report
  | [] => []
  | operation :: operations => operation.report model :: (operation.apply model).reports operations

/-- Whole runs on both sides. -/
theorem Alike.run (h : Alike entry a b) (ha : a.Reachable) (hb : b.Reachable)
    (operations : List Operation) : Alike entry (a.run operations) (b.run operations) ∧
      (a.reports operations).map (Report.about entry.name) =
        (b.reports operations).map (Report.about entry.name) := by
  induction operations generalizing a b with
  | nil => exact ⟨h, rfl⟩
  | cons operation operations ih =>
      obtain ⟨hnext, hreport⟩ := h.apply ha hb operation
      obtain ⟨hlast, hreports⟩ := ih hnext (ha.apply operation) (hb.apply operation)
      exact ⟨hlast, congrArg₂ List.cons hreport hreports⟩

end Model

/-- The items whose mark is not `false`; where the marks end, all the rest. -/
def kept {α : Type} : List Bool → List α → List α
  | [], items => items
  | _ :: _, [] => []
  | true :: marks, item :: items => item :: kept marks items
  | false :: marks, _ :: items => kept marks items

namespace Model

variable {entry : QuestionDefinition} {a b : Model}

/-- A whole run on one side, and on the other the same run without some updates that the question
does not read. -/
theorem Alike.run_kept (h : Alike entry a b) (ha : a.Reachable) (hb : b.Reachable)
    {marks : List Bool} {operations : List Operation}
    (hremoved : ∀ marked ∈ marks.zip operations, marked.1 = false →
      ∃ path value, marked.2 = .update path value ∧ ¬ entry.Reads (Text.root path)) :
    Alike entry (a.run operations) (b.run (kept marks operations)) ∧
      (kept marks (a.reports operations)).map (Report.about entry.name) =
        (b.reports (kept marks operations)).map (Report.about entry.name) ∧
      ∀ marked ∈ marks.zip (a.reports operations), marked.1 = false →
        marked.2.about entry.name = {} := by
  induction operations generalizing a b marks with
  | nil => cases marks <;> exact ⟨h, rfl, by simp [reports]⟩
  | cons operation operations ih =>
      cases marks with
      -- the marks have ended: both runs go on with all that is left
      | nil =>
          obtain ⟨hlast, hreports⟩ := h.run ha hb (operation :: operations)
          exact ⟨hlast, hreports, by simp⟩
      | cons mark marks =>
          have hrest : ∀ marked ∈ marks.zip operations, marked.1 = false →
              ∃ path value, marked.2 = .update path value ∧ ¬ entry.Reads (Text.root path) :=
            fun marked hmarked => hremoved marked (List.mem_cons_of_mem _ hmarked)
          cases mark with
          -- kept: an operation on both sides
          | true =>
              obtain ⟨hnext, hreport⟩ := h.apply ha hb operation
              obtain ⟨hlast, hreports, hsilent⟩ :=
                ih hnext (ha.apply operation) (hb.apply operation) hrest
              refine ⟨hlast, congrArg₂ List.cons hreport hreports, ?_⟩
              exact List.forall_mem_cons.mpr ⟨nofun, hsilent⟩
          -- removed: an update on one side alone
          | false =>
              obtain ⟨path, value, rfl, hunread⟩ := hremoved _ List.mem_cons_self rfl
              obtain ⟨hnext, hreport⟩ := h.skip ha hunread value
              obtain ⟨hlast, hreports, hsilent⟩ := ih hnext (ha.apply _) hb hrest
              exact ⟨hlast, hreports, List.forall_mem_cons.mpr ⟨fun _ => hreport, hsilent⟩⟩

/-! ## A survey of one question -/

/-- A condition that can be compiled is compiled, whatever the cache holds. -/
theorem exists_compileCondition {condition : Option Compiled} (h : entry.Gives condition)
    (cache : Cache) : ∃ after, compileCondition cache entry = .ok (condition, after) := by
  unfold compileCondition
  cases h with
  | nothing hnone => exact ⟨cache, by simp [QuestionDefinition.condition?_eq_none_iff.mpr hnone]⟩
  | @compiled source compiled hasks hcompiled =>
      have hcached := cache.compile_fst source
      rcases hcompile : cache.compile source with ⟨result, after⟩
      obtain rfl : result = .ok compiled := by rw [← hcompiled, ← hcached, hcompile]
      refine ⟨after, ?_⟩
      simp [QuestionDefinition.condition?_eq_some_iff.mpr hasks, hcompile]

/-- A question of a survey makes a survey by itself. -/
theorem exists_load_alone {definition : Definition} {model : Model}
    (hload : load definition = .ok model) (hentry : entry ∈ definition.questions) :
    ∃ alone, load { definition with questions := [entry] } = .ok alone := by
  obtain ⟨question, -, hdefines⟩ := exists_of_forall₂_left (defines_of_load hload) hentry
  -- no cache decides whether a condition compiles, so the empty one will do
  obtain ⟨after, hcondition⟩ := exists_compileCondition hdefines.condition .empty
  unfold load
  simp only [loadQuestions, List.not_mem_nil, if_false, hcondition, ok_bind]
  exact ⟨_, rfl⟩

/-- Right after loading, a question of a survey is what it is in a survey of its own. -/
theorem alike_alone {definition : Definition} {model alone : Model}
    (hload : load definition = .ok model) (hentry : entry ∈ definition.questions)
    (halone : load { definition with questions := [entry] } = .ok alone) :
    Alike entry model alone := by
  obtain ⟨p, hp, hdefines⟩ := exists_of_forall₂_left (defines_of_load hload) hentry
  obtain ⟨q, hq, hdefines'⟩ :=
    exists_of_forall₂_left (defines_of_load halone) (List.mem_singleton_self entry)
  obtain ⟨hrendered, hvisible⟩ := initial_of_load hload hp
  obtain ⟨hrendered', hvisible'⟩ := initial_of_load halone hq
  obtain ⟨-, -, -, -, henv, hoptions⟩ := questions_of_load hload
  obtain ⟨-, -, -, -, henv', hoptions'⟩ := questions_of_load halone
  have htitle : p.title = q.title := hdefines.title.trans hdefines'.title.symm
  -- both questions have what the same definition gives, and no answers yet
  have hcondition : p.condition = q.condition :=
    hdefines.condition.unique hdefines'.condition
  refine ⟨by rw [hoptions, hoptions'], p, hp, q, hq, hdefines, ?_, ?_⟩
  · refine ⟨hdefines.name.trans hdefines'.name.symm, htitle, hcondition, ?_, ?_⟩
    · rw [hrendered, hrendered', htitle]
    · rw [hvisible, hvisible', hcondition]
  · rw [henv, henv']
    exact ⟨fun _ _ => rfl, fun _ _ => rfl⟩

/-! ## Other questions and other answers -/

/-- What is seen of the question with a name: its title, and whether it is visible. -/
def seen? (model : Model) (name : String) : Option (String × Bool) :=
  (model.question? name).map fun question => (question.rendered, question.visible)

theorem Reachable.question?_eq {model : Model} (h : model.Reachable) {question : Question}
    (hquestion : question ∈ model.questions) : model.question? question.name = some question := by
  unfold question?
  cases hfound : model.questions.find? (·.name = question.name) with
  | none => simpa using List.find?_eq_none.mp hfound question hquestion
  | some found =>
      have hname : found.name = question.name := by simpa using List.find?_some hfound
      have hmem : found ∈ model.questions := List.mem_of_find?_eq_some hfound
      rw [List.inj_on_of_nodup_map h.names_nodup hmem hquestion hname]

/-- What is seen of the question is the same in states that are alike about it. -/
theorem Alike.seen?_eq (h : Alike entry a b) (ha : a.Reachable) (hb : b.Reachable) :
    ∃ seen, a.seen? entry.name = some seen ∧ b.seen? entry.name = some seen := by
  obtain ⟨p, hp, q, hq, hdefines, htwin, -⟩ := h.questions
  refine ⟨(p.rendered, p.visible), ?_, ?_⟩
  · rw [seen?, ← hdefines.name, ha.question?_eq hp]
    rfl
  · rw [seen?, ← hdefines.name, htwin.name, hb.question?_eq hq, htwin.rendered, htwin.visible]
    rfl

/-- **Questions are independent.**  In every state of every run, what is seen of a question is what
is seen of it in a survey of its own, and so are the entries about it in all reports.  Updates that
it does not read can be removed from a run: the last state shows the same of the question, the
remaining reports have the same entries about it, and the removed ones had none. -/
theorem question_independent {definition : Definition} {model : Model}
    (hload : load definition = .ok model) {entry : QuestionDefinition}
    (hentry : entry ∈ definition.questions) :
    (∃ alone, load { definition with questions := [entry] } = .ok alone ∧
      ∀ operations : List Operation,
        (∃ seen, (model.run operations).seen? entry.name = some seen ∧
          (alone.run operations).seen? entry.name = some seen) ∧
        (model.reports operations).map (Report.about entry.name) =
          (alone.reports operations).map (Report.about entry.name)) ∧
    ∀ (operations : List Operation) (marks : List Bool),
      (∀ marked ∈ marks.zip operations, marked.1 = false →
        ∃ path value, marked.2 = .update path value ∧ ¬ entry.Reads (Text.root path)) →
      (model.run (kept marks operations)).seen? entry.name =
        (model.run operations).seen? entry.name ∧
      (model.reports (kept marks operations)).map (Report.about entry.name) =
        (kept marks (model.reports operations)).map (Report.about entry.name) ∧
      ∀ marked ∈ marks.zip (model.reports operations), marked.1 = false →
        marked.2.about entry.name = {} := by
  have hmodel : model.Reachable := .load hload
  constructor
  · obtain ⟨alone, halone⟩ := exists_load_alone hload hentry
    have hreachable : alone.Reachable := .load halone
    refine ⟨alone, halone, fun operations => ?_⟩
    obtain ⟨halike, hreports⟩ :=
      (alike_alone hload hentry halone).run hmodel hreachable operations
    exact ⟨halike.seen?_eq (hmodel.run operations) (hreachable.run operations), hreports⟩
  · intro operations marks hremoved
    obtain ⟨question, hquestion, hdefines⟩ := exists_of_forall₂_left (defines_of_load hload) hentry
    -- the run is compared with itself, less the updates that are removed
    have hself : Alike entry model model :=
      ⟨rfl, question, hquestion, question, hquestion, hdefines, .refl question,
        fun _ _ => rfl, fun _ _ => rfl⟩
    obtain ⟨halike, hreports, hsilent⟩ := hself.run_kept hmodel hmodel hremoved
    obtain ⟨seen, hseen, hseen'⟩ := halike.seen?_eq (hmodel.run _) (hmodel.run _)
    exact ⟨hseen'.trans hseen.symm, hreports.symm, hsilent⟩

/-- The second question of `colorSurvey`. -/
def whyEntry : QuestionDefinition where
  name := "why"
  title := "Why {{color}}?"
  visibleWhen := some "liked.answer = 'yes'"

/-- The condition of the second question fails at first, and it does not read the size. -/
def sizeRun : List Operation :=
  [.evaluateAll, .update "size" (.text "small"), .update "liked.answer" (.text "yes"),
    .update "color" (.text "red")]

theorem not_reads_size : ¬ whyEntry.Reads (Text.root "size") := by
  have hsize : Text.root "size" = "size" := by decide +kernel
  have htitle : (Title.parse whyEntry.title).roots = ["color"] := by decide +kernel
  have hcondition : (Compiled.condition (Text.trim "liked.answer = 'yes'")).toOption.map (·.roots) =
      some ["liked"] := by decide +kernel
  rw [hsize]
  rintro (hname | ⟨source, condition, ⟨text, htext, rfl, -⟩, haccepted, hname⟩)
  · rw [htitle] at hname
    simp at hname
  · obtain rfl : "liked.answer = 'yes'" = text := Option.some.inj htext
    have hroots : condition.roots = ["liked"] := by
      simpa [haccepted, Except.toOption] using hcondition
    rw [hroots] at hname
    simp at hname

theorem question_independent_why : ∃ model alone, load colorSurvey = .ok model ∧
    load { colorSurvey with questions := [whyEntry] } = .ok alone ∧
    (model.reports sizeRun).map (Report.about "why") =
      (alone.reports sizeRun).map (Report.about "why") ∧
    (alone.run sizeRun).seen? "why" = some ("Why red?", true) ∧
    (model.run (kept [true, false] sizeRun)).seen? "why" = some ("Why red?", true) := by
  have hseen : (load colorSurvey).toOption.map (fun model => (model.run sizeRun).seen? "why") =
      some (some ("Why red?", true)) := by decide +kernel
  have hentry : whyEntry ∈ colorSurvey.questions := List.mem_cons_of_mem _ List.mem_cons_self
  obtain ⟨model, hload, hseen⟩ := exists_of_toOption_map hseen
  obtain ⟨⟨alone, halone, hsame⟩, hremoved⟩ := question_independent hload hentry
  obtain ⟨⟨seen, hseen', hseenAlone⟩, hreports⟩ := hsame sizeRun
  have hmarks : ∀ marked ∈ [true, false].zip sizeRun, marked.1 = false →
      ∃ path value, marked.2 = .update path value ∧ ¬ whyEntry.Reads (Text.root path) := by
    refine List.forall_mem_cons.mpr ⟨nofun, List.forall_mem_singleton.mpr fun _ => ?_⟩
    exact ⟨"size", .text "small", rfl, not_reads_size⟩
  have hkept := hremoved sizeRun [true, false] hmarks
  refine ⟨model, alone, hload, halone, hreports, ?_, hkept.1.trans hseen⟩
  exact hseenAlone.trans (hseen'.symm.trans hseen)

end Model

end SurveyLogic

import SurveyLogic.Proofs.Silence
import SurveyLogic.Proofs.Survey.Reachable

/-!
# Taking the dependents in turn

An update can be told as two loops over the lists of dependents: each index in turn has its title
rendered, and then each index in turn its condition evaluated, in the environment that the last
evaluation left.  In a reachable state this is the walk over all questions that mends those that are
due: `Model.Reachable.update_eq_inTurn` and `Model.Reachable.evaluateAll_eq_inTurn`.

Three things make the two agree.  The lists are ascending, so that the loops meet the questions in
survey order and each once; the index of a question is its place; and conditions write nothing.
-/

namespace SurveyLogic

/-! ## Reports one after the other -/

attribute [ext] Report

namespace Report

theorem nil_append (report : Report) : ({} : Report) ++ report = report := rfl

theorem append_nil (report : Report) : report ++ ({} : Report) = report :=
  Report.ext (List.append_nil _) (List.append_nil _) (List.append_nil _)

theorem append_assoc (a b c : Report) : a ++ b ++ c = a ++ (b ++ c) :=
  Report.ext (List.append_assoc _ _ _) (List.append_assoc _ _ _) (List.append_assoc _ _ _)

end Report

/-! ## A walk and a loop -/

namespace Question

variable {due : List Nat} {refresh : Question → Question × Report}

theorem refreshDue_append (before behind : List Question) :
    refreshDue due refresh (before ++ behind) =
      ((refreshDue due refresh before).1 ++ (refreshDue due refresh behind).1,
        (refreshDue due refresh before).2 ++ (refreshDue due refresh behind).2) := by
  induction before with
  | nil => rfl
  | cons question before ih =>
      rw [List.cons_append, refreshDue_cons, refreshDue_cons, ih, Report.append_assoc]
      rfl

theorem refreshDue_congr {other : List Nat} {questions : List Question}
    (h : ∀ question ∈ questions, question.index ∈ due ↔ question.index ∈ other) :
    refreshDue due refresh questions = refreshDue other refresh questions := by
  induction questions with
  | nil => rfl
  | cons question questions ih =>
      have hfirst := h question List.mem_cons_self
      have hothers := ih fun other hother => h other (List.mem_cons_of_mem _ hother)
      rw [refreshDue_cons, refreshDue_cons, hothers]
      simp only [refreshIfDue, hfirst]

theorem refreshDue_of_not_due {questions : List Question}
    (h : ∀ question ∈ questions, question.index ∉ due) :
    refreshDue due refresh questions = (questions, {}) := by
  induction questions with
  | nil => rfl
  | cons question questions ih =>
      rw [refreshDue_cons, ih fun other hother => h other (List.mem_cons_of_mem _ hother)]
      simp only [refreshIfDue, if_neg (h question List.mem_cons_self)]
      rfl

/-- Mends the question at a place, if there is one, and adds to the report. -/
def refreshAt (refresh : Question → Question × Report) (state : List Question × Report)
    (place : Nat) : List Question × Report :=
  match state.1[place]? with
  | none => state
  | some question => (state.1.set place (refresh question).1, state.2 ++ (refresh question).2)

/-- The first of the places that are due, apart from the rest. -/
theorem refreshDue_cons_place (hkeeps : ∀ question, (refresh question).1.index = question.index)
    {before behind : List Question} {question : Question}
    (hbefore : ∀ other ∈ before, other.index < question.index)
    (hbehind : ∀ other ∈ behind, question.index < other.index)
    (hdue : ∀ place ∈ due, question.index < place) :
    refreshDue (question.index :: due) refresh (before ++ question :: behind) =
      ((refreshDue due refresh (before ++ (refresh question).1 :: behind)).1,
        (refresh question).2 ++
          (refreshDue due refresh (before ++ (refresh question).1 :: behind)).2) := by
  -- indices ascend, so before this question nothing is due, and behind it the same as without it
  have hskip : ∀ other ∈ before, other.index ∉ due := fun other hother hmem =>
    Nat.lt_asymm (hbefore other hother) (hdue _ hmem)
  have hskip' : ∀ other ∈ before, other.index ∉ question.index :: due := by
    intro other hother hmem
    rcases List.mem_cons.mp hmem with heq | hmem
    · exact Nat.ne_of_lt (hbefore other hother) heq
    · exact hskip other hother hmem
  have hsame : ∀ other ∈ behind, other.index ∈ question.index :: due ↔ other.index ∈ due := by
    intro other hother
    rw [List.mem_cons, or_iff_right (Nat.ne_of_gt (hbehind other hother))]
  have hdone : (refresh question).1.index ∉ due := by
    rw [hkeeps]
    exact fun hmem => Nat.lt_irrefl _ (hdue _ hmem)
  rw [refreshDue_append, refreshDue_append, refreshDue_cons, refreshDue_cons,
    refreshDue_of_not_due hskip, refreshDue_of_not_due hskip', refreshDue_congr hsame]
  simp only [refreshIfDue, List.mem_cons_self, if_true, if_neg hdone, Report.nil_append]

/-- The index of a question is its place. -/
def Placed (questions : List Question) : Prop :=
  questions.map (·.index) = List.range questions.length

theorem Placed.index_getElem {questions : List Question} (h : Placed questions) {place : Nat}
    (hplace : place < questions.length) : questions[place].index = place := by
  have hget : (questions.map (·.index))[place]? = (List.range questions.length)[place]? := by
    rw [h]
  simpa [hplace] using hget

theorem Placed.getElem?_eq_some_iff {questions : List Question} (h : Placed questions)
    {place : Nat} {question : Question} :
    questions[place]? = some question ↔ question ∈ questions ∧ question.index = place := by
  constructor
  · intro hquestion
    obtain ⟨hplace, rfl⟩ := List.getElem?_eq_some_iff.mp hquestion
    exact ⟨List.getElem_mem hplace, h.index_getElem hplace⟩
  · rintro ⟨hquestion, rfl⟩
    obtain ⟨place, hplace, rfl⟩ := List.mem_iff_getElem.mp hquestion
    rw [h.index_getElem hplace]
    exact List.getElem?_eq_getElem hplace

/-- Questions before a place have smaller indices, those behind it larger ones. -/
theorem Placed.split {before behind : List Question} {question : Question}
    (h : Placed (before ++ question :: behind)) :
    (∀ other ∈ before, other.index < question.index) ∧
      ∀ other ∈ behind, question.index < other.index := by
  have hascending : ((before ++ question :: behind).map (·.index)).Pairwise (· < ·) := by
    rw [h]
    exact List.pairwise_lt_range
  rw [List.pairwise_map, List.pairwise_append, List.pairwise_cons] at hascending
  obtain ⟨-, ⟨hbehind, -⟩, hbefore⟩ := hascending
  exact ⟨fun other hother => hbefore other hother question List.mem_cons_self, hbehind⟩

theorem Placed.replace {before behind : List Question} {question other : Question}
    (h : Placed (before ++ question :: behind)) (hindex : other.index = question.index) :
    Placed (before ++ other :: behind) := by
  unfold Placed at h ⊢
  simpa [hindex] using h

theorem Placed.index_lt {questions : List Question} (h : Placed questions) {question : Question}
    (hquestion : question ∈ questions) : question.index < questions.length := by
  have hmem : question.index ∈ questions.map (·.index) := List.mem_map_of_mem hquestion
  rw [h] at hmem
  exact List.mem_range.mp hmem

theorem Placed.refreshDue {questions : List Question} (h : Placed questions)
    (hkeeps : ∀ question, (refresh question).1.index = question.index) (due : List Nat) :
    Placed (Question.refreshDue due refresh questions).1 := by
  have hindex : ∀ question, (refreshIfDue due refresh question).1.index = question.index := by
    intro question
    unfold refreshIfDue
    split
    · exact hkeeps question
    · rfl
  unfold Placed at h ⊢
  rw [refreshDue_fst, List.map_map, List.length_map, ← h]
  exact List.map_congr_left fun question _ => hindex question

/-- A loop over ascending places is a walk over the questions. -/
theorem foldl_refreshAt (hkeeps : ∀ question, (refresh question).1.index = question.index)
    {questions : List Question} (hplaced : Placed questions) (hdue : due.Pairwise (· < ·))
    (report : Report) :
    due.foldl (refreshAt refresh) (questions, report) =
      ((refreshDue due refresh questions).1, report ++ (refreshDue due refresh questions).2) := by
  induction due generalizing questions report with
  | nil =>
      rw [refreshDue_of_not_due fun _ _ => List.not_mem_nil]
      exact congrArg (Prod.mk questions) report.append_nil.symm
  | cons place due ih =>
      obtain ⟨hlater, hrest⟩ := List.pairwise_cons.mp hdue
      rw [List.foldl_cons]
      by_cases hplace : place < questions.length
      · have hindex := hplaced.index_getElem hplace
        have hstep : refreshAt refresh (questions, report) place =
            (questions.set place (refresh questions[place]).1,
              report ++ (refresh questions[place]).2) := by
          simp [refreshAt, hplace]
        obtain ⟨before, behind, hsplit, -, hset⟩ :=
          @List.exists_of_set _ _ (refresh questions[place]).1 _ hplace
        rw [hstep, hset]
        generalize questions[place] = question at *
        subst hsplit hindex
        obtain ⟨hbefore, hbehind⟩ := hplaced.split
        rw [ih (hplaced.replace (hkeeps question)) hrest,
          refreshDue_cons_place hkeeps hbefore hbehind hlater, Report.append_assoc]
      · -- there is no question at this place
        have hstep : refreshAt refresh (questions, report) place = (questions, report) := by
          simp [refreshAt, hplace]
        have hsame : ∀ question ∈ questions,
            question.index ∈ place :: due ↔ question.index ∈ due := by
          intro question hquestion
          have hlt := hplaced.index_lt hquestion
          rw [List.mem_cons, or_iff_right (by omega)]
        rw [hstep, ih hplaced hrest, refreshDue_congr hsame]

/-- The environment that evaluating the condition of a question leaves behind. -/
def environmentAfter (env : Environment) (question : Question) : Environment :=
  match question.condition with
  | none => env
  | some condition => (condition.evaluate env).2

theorem environmentAfter_eq {question : Question}
    (haccepted : ∀ condition, question.condition = some condition →
      ∃ source, Compiled.condition source = .ok condition) (env : Environment) :
    question.environmentAfter env = env := by
  unfold environmentAfter
  cases hcondition : question.condition with
  | none => rfl
  | some condition =>
      obtain ⟨source, hsource⟩ := haccepted condition hcondition
      exact Compiled.evaluate_snd_of_condition hsource env

end Question

/-! ## The loops of a model -/

namespace Model

open Question

/-- Renders the title at a place anew, and adds to the report. -/
def refreshTitleAt (state : Model × Report) (place : Nat) : Model × Report :=
  let (model, report) := state
  let mended := refreshAt (refreshTitle model.environment model.options.placeholderFallback)
    (model.questions, report) place
  ({ model with questions := mended.1 }, mended.2)

/-- Evaluates the condition at a place anew, and adds to the report.  What the evaluation writes
stays. -/
def refreshVisibilityAt (state : Model × Report) (place : Nat) : Model × Report :=
  let (model, report) := state
  let mended := refreshAt (refreshVisibility model.environment) (model.questions, report) place
  ({ model with
      questions := mended.1
      environment := (model.questions[place]?.map (environmentAfter model.environment)).getD
        model.environment }, mended.2)

/-- Refreshes titles and then conditions, each list in turn. -/
def refreshInTurn (model : Model) (titles visibility : List Nat) : Model × Report :=
  visibility.foldl refreshVisibilityAt (titles.foldl refreshTitleAt (model, {}))

/-- Writes an answer and takes the dependents of its path in turn. -/
def updateInTurn (model : Model) (path : String) (value : Value) : Model × Report :=
  refreshInTurn { model with environment := model.environment.set path value }
    (model.dependents.ofTitle path) (model.dependents.ofVisibility path)

/-- Takes all questions in turn. -/
def evaluateAllInTurn (model : Model) : Model × Report :=
  model.refreshInTurn (List.range model.questions.length) (List.range model.questions.length)

theorem foldl_refreshTitleAt (titles : List Nat) (model : Model) (report : Report) :
    titles.foldl refreshTitleAt (model, report) =
      let mended := titles.foldl
        (refreshAt (refreshTitle model.environment model.options.placeholderFallback))
        (model.questions, report)
      ({ model with questions := mended.1 }, mended.2) := by
  induction titles generalizing model report with
  | nil => rfl
  | cons place titles ih => exact ih _ _

/-- Evaluating the conditions of the model writes nothing. -/
def Silent (model : Model) : Prop :=
  ∀ question ∈ model.questions, ∀ env, question.environmentAfter env = env

theorem Silent.refreshVisibilityAt {model : Model} (h : model.Silent) (report : Report)
    (place : Nat) :
    let mended := refreshAt (refreshVisibility model.environment) (model.questions, report) place
    Model.refreshVisibilityAt (model, report) place =
      ({ model with questions := mended.1 }, mended.2) ∧
    Silent { model with questions := mended.1 } := by
  unfold Model.refreshVisibilityAt refreshAt
  cases hplace : model.questions[place]? with
  | none => simpa [hplace] using h
  | some question =>
      have hquestion : question ∈ model.questions := List.mem_of_getElem? hplace
      refine ⟨?_, ?_⟩
      · simp [hplace, h question hquestion]
      · intro other hother env
        rcases List.mem_or_eq_of_mem_set hother with hother | rfl
        · exact h other hother env
        · -- the mended question has the condition that it had
          rw [refreshVisibility_fst_eq]
          exact h question hquestion env

theorem foldl_refreshVisibilityAt (visibility : List Nat) {model : Model} (h : model.Silent)
    (report : Report) :
    visibility.foldl Model.refreshVisibilityAt (model, report) =
      let mended := visibility.foldl (refreshAt (refreshVisibility model.environment))
        (model.questions, report)
      ({ model with questions := mended.1 }, mended.2) := by
  induction visibility generalizing model report with
  | nil => rfl
  | cons place visibility ih =>
      obtain ⟨hstep, hsilent⟩ := h.refreshVisibilityAt report place
      rw [List.foldl_cons, hstep]
      exact ih hsilent _

/-- Rendering titles leaves the conditions alone. -/
theorem Silent.titled {model : Model} (h : model.Silent) (env : Environment) (fallback : Fallback)
    (titles : List Nat) : Silent { model with
      questions := (refreshDue titles (refreshTitle env fallback) model.questions).1 } := by
  intro titled htitled after
  dsimp only at htitled
  rw [refreshDue_fst] at htitled
  obtain ⟨question, hquestion, rfl⟩ := List.mem_map.mp htitled
  rw [refreshIfDue_refreshTitle_fst]
  exact h question hquestion after

/-- Both loops together are the two walks of a refresh. -/
theorem refreshInTurn_eq {model : Model} (hplaced : Placed model.questions)
    (hsilent : model.Silent) {titles visibility : List Nat} (htitles : titles.Pairwise (· < ·))
    (hvisibility : visibility.Pairwise (· < ·)) :
    model.refreshInTurn titles visibility = model.refresh titles visibility := by
  have hkeepsTitle : ∀ question : Question, (question.refreshTitle model.environment
      model.options.placeholderFallback).1.index = question.index := by
    intro question
    rw [refreshTitle_fst_eq]
  have hkeepsVisibility : ∀ question : Question,
      (question.refreshVisibility model.environment).1.index = question.index := by
    intro question
    rw [refreshVisibility_fst_eq]
  have hsilent' := hsilent.titled model.environment model.options.placeholderFallback titles
  unfold refreshInTurn refresh
  rw [foldl_refreshTitleAt]
  dsimp only
  rw [foldl_refreshAt hkeepsTitle hplaced htitles]
  dsimp only
  rw [foldl_refreshVisibilityAt visibility hsilent']
  dsimp only
  rw [foldl_refreshAt hkeepsVisibility (hplaced.refreshDue hkeepsTitle titles) hvisibility,
    Report.nil_append]

namespace Reachable

variable {model : Model}

theorem silent (h : model.Reachable) : model.Silent := by
  intro question hquestion env
  refine Question.environmentAfter_eq (fun condition hcondition => ?_) env
  exact h.accepted (hcondition ▸ List.mem_map_of_mem hquestion)

theorem pairwise_dependents (h : model.Reachable) (path : String) :
    (model.dependents.ofTitle path).Pairwise (· < ·) ∧
      (model.dependents.ofVisibility path).Pairwise (· < ·) := by
  rw [h.consistent.dependents]
  refine Dependents.pairwise_ofQuestions ?_ path
  rw [h.indices]
  exact List.pairwise_lt_range

/-- **An update takes the dependents of its path in turn**, first the titles and then the
conditions. -/
theorem update_eq_inTurn (h : model.Reachable) (path : String) (value : Value) :
    model.update path value = model.updateInTurn path value := by
  obtain ⟨htitles, hvisibility⟩ := h.pairwise_dependents path
  have hwritten := @refreshInTurn_eq
    { model with environment := model.environment.set path value } h.indices h.silent
  exact (hwritten htitles hvisibility).symm

/-- Refreshing everything takes all questions in turn, twice. -/
theorem evaluateAll_eq_inTurn (h : model.Reachable) :
    model.evaluateAll = model.evaluateAllInTurn := by
  have hplaced : Placed model.questions := h.indices
  unfold evaluateAll evaluateAllInTurn
  rw [h.indices]
  exact (refreshInTurn_eq hplaced h.silent List.pairwise_lt_range List.pairwise_lt_range).symm

end Reachable

end Model

end SurveyLogic

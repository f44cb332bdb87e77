import SurveyLogic.Proofs.Survey.Refresh

/-!
# What the dependents of a survey hold

The dependents are built by one walk over the questions that registers each under every root it
reads.  `Dependents.mem_ofTitle` and `Dependents.mem_ofVisibility` say what has come out of the
walk: under a path stand the indices of exactly those questions that read its root.  They stand in
survey order, each once (`Dependents.pairwise_ofQuestions`).

Only what loading fixed of a question enters the walk, so refreshing changes nothing about it:
`Dependents.ofQuestions_map_refreshed`.
-/

namespace SurveyLogic

namespace Dependents

/-- The indices noted under a name. -/
def noted (name : String) (entries : List (String × List Nat)) : List Nat :=
  (Keyed.get? name entries).getD []

/-! ## Registering one question -/

theorem mem_noted_register {index other : Nat} {name root : String}
    {entries : List (String × List Nat)} :
    other ∈ noted name (register index entries root) ↔
      other ∈ noted name entries ∨ (name = root ∧ other = index) := by
  unfold register
  dsimp only
  split
  · next hlast =>
      -- the question was noted last, so it stands there already
      have hnoted : index ∈ noted root entries := List.mem_of_getLast? hlast
      constructor
      · exact Or.inl
      · rintro (hmem | ⟨rfl, rfl⟩)
        · exact hmem
        · exact hnoted
  · by_cases hname : name = root
    · subst hname
      simp [noted]
    · simp [noted, Keyed.get?_insert_of_ne hname, hname]

theorem mem_noted_foldl_register {index other : Nat} {name : String} {roots : List String}
    {entries : List (String × List Nat)} :
    other ∈ noted name (roots.foldl (register index) entries) ↔
      other ∈ noted name entries ∨ (name ∈ roots ∧ other = index) := by
  induction roots generalizing entries with
  | nil => simp
  | cons root roots ih =>
      rw [List.foldl_cons, ih, mem_noted_register, List.mem_cons]
      constructor
      · rintro ((hmem | ⟨hname, hindex⟩) | ⟨hname, hindex⟩)
        · exact Or.inl hmem
        · exact Or.inr ⟨Or.inl hname, hindex⟩
        · exact Or.inr ⟨Or.inr hname, hindex⟩
      · rintro (hmem | ⟨hname | hname, hindex⟩)
        · exact Or.inl (Or.inl hmem)
        · exact Or.inl (Or.inr ⟨hname, hindex⟩)
        · exact Or.inr ⟨hname, hindex⟩

/-! ## The walk over the questions -/

/-- The names that a question's condition reads; none without a condition. -/
def conditionRoots (question : Question) : Names :=
  match question.condition with
  | some condition => condition.roots
  | none => []

theorem conditionRoots_congr {a b : Question} (h : a.condition = b.condition) :
    conditionRoots a = conditionRoots b := by
  unfold conditionRoots
  rw [h]

/-- The dependents after one more question. -/
def add (dependents : Dependents) (question : Question) : Dependents :=
  ⟨question.title.roots.foldl (register question.index) dependents.titles,
    (conditionRoots question).foldl (register question.index) dependents.visibility⟩

theorem ofQuestions_eq_foldl (questions : List Question) :
    ofQuestions questions = questions.foldl add ⟨[], []⟩ := by
  unfold ofQuestions
  congr 1
  funext dependents question
  unfold add conditionRoots
  cases question.condition <;> rfl

theorem mem_noted_foldl_add {name : String} {index : Nat} {questions : List Question}
    {dependents : Dependents} :
    (index ∈ noted name (questions.foldl add dependents).titles ↔
      index ∈ noted name dependents.titles ∨
        ∃ question ∈ questions, question.index = index ∧ name ∈ question.title.roots) ∧
    (index ∈ noted name (questions.foldl add dependents).visibility ↔
      index ∈ noted name dependents.visibility ∨
        ∃ question ∈ questions, question.index = index ∧ name ∈ conditionRoots question) := by
  induction questions generalizing dependents with
  | nil => simp
  | cons question questions ih =>
      obtain ⟨htitles, hvisibility⟩ := @ih (dependents.add question)
      rw [List.foldl_cons, htitles, hvisibility]
      simp only [add, mem_noted_foldl_register, List.mem_cons, exists_eq_or_imp, or_assoc]
      simp only [and_comm, eq_comm, and_self]

variable {questions : List Question} {path : String} {index : Nat}

/-- The questions whose title reads the root of a path. -/
theorem mem_ofTitle : index ∈ (ofQuestions questions).ofTitle path ↔
    ∃ question ∈ questions, question.index = index ∧ Text.root path ∈ question.title.roots := by
  rw [ofQuestions_eq_foldl]
  refine mem_noted_foldl_add.1.trans ?_
  simp [noted, Keyed.get?]

/-- The questions whose condition reads the root of a path. -/
theorem mem_ofVisibility : index ∈ (ofQuestions questions).ofVisibility path ↔
    ∃ question ∈ questions,
      question.index = index ∧ Text.root path ∈ conditionRoots question := by
  rw [ofQuestions_eq_foldl]
  refine mem_noted_foldl_add.2.trans ?_
  simp [noted, Keyed.get?]

/-! ## The walk looks at nothing that refreshing changes -/

theorem ofQuestions_map_refreshed (env : Environment) (fallback : Fallback)
    (titles visibility : List Nat) (questions : List Question) :
    ofQuestions (questions.map (Question.refreshed env fallback titles visibility)) =
      ofQuestions questions := by
  rw [ofQuestions_eq_foldl, ofQuestions_eq_foldl, List.foldl_map]
  rfl

/-! ## The order of the entries -/

/-- Under every name stand ascending indices up to a bound. -/
def Ascending (bound : Nat) (entries : List (String × List Nat)) : Prop :=
  ∀ name, (noted name entries).Pairwise (· < ·) ∧ ∀ index ∈ noted name entries, index ≤ bound

theorem Ascending.mono {bound larger : Nat} {entries : List (String × List Nat)}
    (h : Ascending bound entries) (hle : bound ≤ larger) : Ascending larger entries :=
  fun name => ⟨(h name).1, fun index hindex => Nat.le_trans ((h name).2 index hindex) hle⟩

/-- An index that no other exceeds, and that does not stand last, stands nowhere. -/
theorem pairwise_append_of_last {index : Nat} {indices : List Nat}
    (hascending : indices.Pairwise (· < ·)) (hle : ∀ other ∈ indices, other ≤ index)
    (hlast : indices.getLast? ≠ some index) : (indices ++ [index]).Pairwise (· < ·) := by
  refine List.pairwise_append.mpr ⟨hascending, List.pairwise_singleton _ _, ?_⟩
  intro other hother new hnew
  obtain rfl := List.mem_singleton.mp hnew
  rcases List.eq_nil_or_concat indices with rfl | ⟨before, last, rfl⟩
  · contradiction
  · rw [List.concat_eq_append] at hascending hle hlast hother
    have hne : last ≠ new := by simpa using hlast
    have hlt : last < new := Nat.lt_of_le_of_ne (hle last (by simp)) hne
    rcases List.mem_append.mp hother with hbefore | hsame
    · obtain ⟨-, -, hbelow⟩ := List.pairwise_append.mp hascending
      exact Nat.lt_trans (hbelow other hbefore last List.mem_cons_self) hlt
    · rwa [List.mem_singleton.mp hsame]

theorem Ascending.register {index : Nat} {entries : List (String × List Nat)}
    (h : Ascending index entries) (root : String) :
    Ascending index (Dependents.register index entries root) := by
  intro name
  unfold Dependents.register
  dsimp only
  split
  · exact h name
  · next hlast =>
      by_cases hname : name = root
      · subst hname
        simp only [noted, Keyed.get?_insert_self, Option.getD_some]
        refine ⟨pairwise_append_of_last (h name).1 (h name).2 hlast, ?_⟩
        intro other hother
        rcases List.mem_append.mp hother with hnoted | hnew
        · exact (h name).2 other hnoted
        · exact Nat.le_of_eq (List.mem_singleton.mp hnew)
      · simpa only [noted, Keyed.get?_insert_of_ne hname] using h name

theorem Ascending.foldl_register {index : Nat} (roots : List String)
    {entries : List (String × List Nat)} (h : Ascending index entries) :
    Ascending index (roots.foldl (Dependents.register index) entries) := by
  induction roots generalizing entries with
  | nil => exact h
  | cons root roots ih => exact ih (h.register root)

theorem ascending_foldl_add {questions : List Question} {dependents : Dependents} {bound : Nat}
    (hindices : (questions.map (·.index)).Pairwise (· < ·))
    (hbound : ∀ question ∈ questions, bound ≤ question.index)
    (htitles : Ascending bound dependents.titles)
    (hvisibility : Ascending bound dependents.visibility) :
    ∃ last, Ascending last (questions.foldl add dependents).titles ∧
      Ascending last (questions.foldl add dependents).visibility := by
  induction questions generalizing dependents bound with
  | nil => exact ⟨bound, htitles, hvisibility⟩
  | cons question questions ih =>
      rw [List.map_cons, List.pairwise_cons] at hindices
      have hle := hbound question List.mem_cons_self
      -- the index of this question bounds all that was noted so far
      refine @ih (dependents.add question) question.index hindices.2 ?_ ?_ ?_
      · intro other hother
        exact Nat.le_of_lt (hindices.1 _ (List.mem_map_of_mem hother))
      · exact (htitles.mono hle).foldl_register _
      · exact (hvisibility.mono hle).foldl_register _

/-- Questions in ascending order of their indices are listed in that order, each once. -/
theorem pairwise_ofQuestions {questions : List Question}
    (hindices : (questions.map (·.index)).Pairwise (· < ·)) (path : String) :
    ((ofQuestions questions).ofTitle path).Pairwise (· < ·) ∧
      ((ofQuestions questions).ofVisibility path).Pairwise (· < ·) := by
  have hempty : Ascending 0 [] := fun _ => ⟨List.Pairwise.nil, by simp [noted, Keyed.get?]⟩
  obtain ⟨last, htitles, hvisibility⟩ := @ascending_foldl_add questions ⟨[], []⟩ 0 hindices
    (fun _ _ => Nat.zero_le _) hempty hempty
  rw [ofQuestions_eq_foldl]
  exact ⟨(htitles _).1, (hvisibility _).1⟩

end Dependents

end SurveyLogic

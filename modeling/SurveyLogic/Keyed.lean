/-!
# Entries under names

Entries kept in ascending order of their names, each name once: the fields of a record, the bindings
of an environment, the questions that depend on a name.

`Keyed.get?` is the view of such a list.  `Keyed.insert` changes the view at one name and nowhere
else, whatever the list (`get?_insert_self`, `get?_insert_of_ne`), and keeps the names in order
(`ordered_insert`).  So does `Keyed.ofList`, which puts one entry after the other.
-/

namespace SurveyLogic

namespace Keyed

variable {α : Type}

/-- The entry under a name. -/
def get? (key : String) : List (String × α) → Option α
  | [] => none
  | (other, value) :: entries => if other = key then some value else get? key entries

/-- Puts an entry under a name, in place of the one that was there. -/
def insert (key : String) (value : α) : List (String × α) → List (String × α)
  | [] => [(key, value)]
  | (other, old) :: entries =>
    if other = key then (key, value) :: entries
    else if key < other then (key, value) :: (other, old) :: entries
    else (other, old) :: insert key value entries

/-- The entries of a list; of two under one name the later counts. -/
def ofList (entries : List (String × α)) : List (String × α) :=
  entries.foldl (fun sorted entry => insert entry.1 entry.2 sorted) []

/-! ## The view -/

@[simp] theorem get?_insert_self (key : String) (value : α) (entries : List (String × α)) :
    get? key (insert key value entries) = some value := by
  induction entries with
  | nil => simp [insert, get?]
  | cons entry entries ih =>
    obtain ⟨other, old⟩ := entry
    by_cases heq : other = key
    · simp [insert, get?, heq]
    · by_cases hlt : key < other
      · simp [insert, get?, heq, hlt]
      · simp [insert, get?, heq, hlt, ih]

theorem get?_insert_of_ne {key other : String} (hne : other ≠ key) (value : α)
    (entries : List (String × α)) : get? other (insert key value entries) = get? other entries := by
  have hsymm : ¬ key = other := fun heq => hne heq.symm
  induction entries with
  | nil => simp [insert, get?, hsymm]
  | cons entry entries ih =>
    obtain ⟨first, old⟩ := entry
    by_cases heq : first = key
    · simp [insert, get?, heq, hsymm]
    · by_cases hlt : key < first
      · simp [insert, get?, heq, hlt, hsymm]
      · simp [insert, get?, heq, hlt, ih]

theorem mem_of_get? {key : String} {value : α} {entries : List (String × α)}
    (h : get? key entries = some value) : (key, value) ∈ entries := by
  induction entries with
  | nil => contradiction
  | cons entry entries ih =>
    obtain ⟨other, old⟩ := entry
    by_cases heq : other = key
    · obtain rfl : old = value := by simpa [get?, heq] using h
      exact heq ▸ List.mem_cons_self
    · exact List.mem_cons_of_mem _ (ih (by simpa [get?, heq] using h))

/-- The names that have entries are those that are found. -/
theorem mem_names_iff {key : String} {entries : List (String × α)} :
    key ∈ entries.map (·.1) ↔ (get? key entries).isSome := by
  induction entries with
  | nil => simp [get?]
  | cons entry entries ih =>
    obtain ⟨other, old⟩ := entry
    by_cases heq : other = key
    · simp [get?, heq]
    · have hsymm : ¬ key = other := fun h => heq h.symm
      rw [List.map_cons, List.mem_cons, ih]
      simp [get?, heq, hsymm]

theorem mem_names_insert {key other : String} {value : α} {entries : List (String × α)} :
    other ∈ (insert key value entries).map (·.1) ↔ other = key ∨ other ∈ entries.map (·.1) := by
  rw [mem_names_iff, mem_names_iff]
  by_cases heq : other = key
  · simp [heq]
  · simp [get?_insert_of_ne heq, heq]

/-! ## The order -/

/-- The names are in strictly ascending order. -/
def Ordered (entries : List (String × α)) : Prop := entries.Pairwise fun a b => a.1 < b.1

theorem mem_insert {key : String} {value : α} {entries : List (String × α)} {entry : String × α}
    (hmem : entry ∈ insert key value entries) : entry = (key, value) ∨ entry ∈ entries := by
  induction entries with
  | nil => exact Or.inl (List.mem_singleton.mp hmem)
  | cons first entries ih =>
    unfold insert at hmem
    split at hmem
    · rcases List.mem_cons.mp hmem with rfl | htail
      · exact Or.inl rfl
      · exact Or.inr (List.mem_cons_of_mem _ htail)
    · split at hmem
      · rcases List.mem_cons.mp hmem with rfl | htail
        · exact Or.inl rfl
        · exact Or.inr htail
      · rcases List.mem_cons.mp hmem with rfl | htail
        · exact Or.inr List.mem_cons_self
        · exact (ih htail).imp id (List.mem_cons_of_mem _)

theorem ordered_insert {entries : List (String × α)} (hordered : Ordered entries) (key : String)
    (value : α) : Ordered (insert key value entries) := by
  induction entries with
  | nil => exact List.pairwise_singleton _ _
  | cons first entries ih =>
    obtain ⟨other, old⟩ := first
    obtain ⟨hfirst, hrest⟩ := List.pairwise_cons.mp hordered
    unfold insert
    split
    · next heq => exact List.pairwise_cons.mpr ⟨heq ▸ hfirst, hrest⟩
    · next hne =>
      split
      · next hlt =>
        refine List.pairwise_cons.mpr ⟨?_, hordered⟩
        intro entry hmem
        rcases List.mem_cons.mp hmem with rfl | htail
        · exact hlt
        · exact String.lt_trans hlt (hfirst entry htail)
      · next hnot =>
        refine List.pairwise_cons.mpr ⟨?_, ih hrest⟩
        intro entry hmem
        rcases mem_insert hmem with rfl | htail
        · -- the new name is not below the first one and differs from it
          refine String.not_le.mp fun hle => hne (String.le_antisymm ?_ hle)
          exact String.not_lt.mp hnot
        · exact hfirst entry htail

/-- In ascending order a name has one entry. -/
theorem get?_eq_some_iff {entries : List (String × α)} (hordered : Ordered entries) {key : String}
    {value : α} : get? key entries = some value ↔ (key, value) ∈ entries := by
  refine ⟨mem_of_get?, fun hmem => ?_⟩
  induction entries with
  | nil => contradiction
  | cons entry entries ih =>
    obtain ⟨other, old⟩ := entry
    obtain ⟨hfirst, hrest⟩ := List.pairwise_cons.mp hordered
    rcases List.mem_cons.mp hmem with heq | htail
    · obtain ⟨rfl, rfl⟩ := Prod.mk.inj heq
      simp [get?]
    · have hne : other ≠ key := fun heq => String.lt_irrefl key (heq ▸ hfirst _ htail)
      simp [get?, hne, ih hrest htail]

theorem Ordered.nodup_names {entries : List (String × α)} (h : Ordered entries) :
    (entries.map (·.1)).Nodup := by
  rw [List.Nodup, List.pairwise_map]
  refine h.imp ?_
  intro a b hlt heq
  exact String.lt_irrefl b.1 (heq ▸ hlt)

/-! ## Entries in any order -/

/-- Nothing is in the sorted list that was not in the other. -/
theorem mem_ofList {entries : List (String × α)} {entry : String × α}
    (hmem : entry ∈ ofList entries) : entry ∈ entries := by
  refine List.foldlRecOn (motive := fun sorted => entry ∈ sorted → entry ∈ entries) entries _
    (fun hnil => absurd hnil List.not_mem_nil) ?_ hmem
  intro sorted hsorted other hother hinsert
  rcases mem_insert hinsert with rfl | hold
  · exact hother
  · exact hsorted hold

theorem mem_names_ofList {entries : List (String × α)} {key : String} :
    key ∈ (ofList entries).map (·.1) ↔ key ∈ entries.map (·.1) := by
  have hfold : ∀ entries sorted : List (String × α),
      key ∈ (entries.foldl (fun sorted entry => insert entry.1 entry.2 sorted) sorted).map (·.1) ↔
        key ∈ entries.map (·.1) ∨ key ∈ sorted.map (·.1) := by
    intro entries
    induction entries with
    | nil => simp
    | cons entry entries ih =>
      intro sorted
      rw [List.foldl_cons, ih, mem_names_insert, List.map_cons, List.mem_cons, or_assoc,
        or_left_comm]
  simpa [ofList] using hfold entries []

theorem ordered_ofList (entries : List (String × α)) : Ordered (ofList entries) :=
  List.foldlRecOn entries _ List.Pairwise.nil fun _ hsorted entry _ =>
    ordered_insert hsorted entry.1 entry.2

end Keyed

end SurveyLogic

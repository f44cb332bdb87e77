import SurveyLogic.Value.Basic

/-!
# What is inside a value

An array and a record have values inside, and these have again.  `Value.PartOf` is the relation of a
value to all that it is inside of, itself included, and `Value.induction` the induction along it.

Two properties are stated of everything inside a value.  It is *free of NaN* when no number inside
is a NaN.  It is *ordered* when every record inside holds its fields in ascending order of their
names, and so each name once.
-/

namespace SurveyLogic

namespace Value

/-! ## Parts -/

/-- The values directly inside. -/
def parts : Value → List Value
  | array items => items
  | record entries => entries.map (·.2)
  | number _ | text _ | truth _ | missing => []

/-- The node is the value itself or anywhere inside it. -/
inductive PartOf (node : Value) : Value → Prop
  | self : PartOf node node
  | inside {part value : Value} : part ∈ value.parts → PartOf node part → PartOf node value

theorem sizeOf_lt_of_mem_parts {part value : Value} (h : part ∈ value.parts) :
    sizeOf part < sizeOf value := by
  cases value with
  | array items =>
      have := List.sizeOf_lt_of_mem (show part ∈ items from h)
      simp only [array.sizeOf_spec]
      omega
  | record entries =>
      obtain ⟨⟨name, _⟩, hmem, rfl⟩ := List.mem_map.mp h
      have := List.sizeOf_lt_of_mem hmem
      simp only [Prod.mk.sizeOf_spec] at this
      simp only [record.sizeOf_spec]
      omega
  | _ => contradiction

/-- What holds of a value if it holds of all values directly inside holds of every value. -/
theorem induction_parts {motive : Value → Prop}
    (step : ∀ value, (∀ part ∈ value.parts, motive part) → motive value) (value : Value) :
    motive value :=
  step value fun part hpart => by
    have := sizeOf_lt_of_mem_parts hpart
    exact induction_parts step part
termination_by sizeOf value

/-- Induction over a value with the elements of an array and the fields of a record at hand. -/
@[elab_as_elim]
theorem induction {motive : Value → Prop} (number : ∀ n, motive (number n))
    (text : ∀ s, motive (text s)) (truth : ∀ b, motive (truth b))
    (array : ∀ items, (∀ item ∈ items, motive item) → motive (array items))
    (record : ∀ entries, (∀ entry ∈ entries, motive entry.2) → motive (record entries))
    (missing : motive missing) (value : Value) : motive value := by
  refine induction_parts (fun value ih => ?_) value
  cases value with
  | number n => exact number n
  | text s => exact text s
  | truth b => exact truth b
  | array items => exact array items ih
  | record entries => exact record entries fun entry hmem => ih _ (List.mem_map_of_mem hmem)
  | missing => exact missing

/-- What holds of everything inside a value holds of the value and inside its parts. -/
theorem forall_partOf_iff {p : Value → Prop} {value : Value} :
    (∀ node, PartOf node value → p node) ↔
      p value ∧ ∀ part ∈ value.parts, ∀ node, PartOf node part → p node := by
  refine ⟨fun h => ⟨h value .self, fun part hpart node hnode => h node (.inside hpart hnode)⟩, ?_⟩
  rintro ⟨hself, hparts⟩ node hnode
  cases hnode with
  | self => exact hself
  | inside hpart hnode => exact hparts _ hpart node hnode

/-! ## Numbers inside -/

/-- The value is a NaN itself. -/
def isNaN : Value → Bool
  | number n => n.isNaN
  | _ => false

/-- No number inside is a NaN. -/
def FreeOfNaN (value : Value) : Prop := ∀ node, PartOf node value → node.isNaN = false

theorem freeOfNaN_iff {value : Value} :
    value.FreeOfNaN ↔ value.isNaN = false ∧ ∀ part ∈ value.parts, part.FreeOfNaN :=
  forall_partOf_iff

@[simp] theorem freeOfNaN_number {n : Number} : (number n).FreeOfNaN ↔ n.isNaN = false := by
  rw [freeOfNaN_iff]
  simp [isNaN, parts]

@[simp] theorem freeOfNaN_text {s : String} : (text s).FreeOfNaN := by
  rw [freeOfNaN_iff]
  simp [isNaN, parts]

@[simp] theorem freeOfNaN_truth {b : Bool} : (truth b).FreeOfNaN := by
  rw [freeOfNaN_iff]
  simp [isNaN, parts]

@[simp] theorem freeOfNaN_array {items : List Value} :
    (array items).FreeOfNaN ↔ ∀ item ∈ items, item.FreeOfNaN := by
  rw [freeOfNaN_iff]
  simp [isNaN, parts]

@[simp] theorem freeOfNaN_record {entries : List (String × Value)} :
    (record entries).FreeOfNaN ↔ ∀ entry ∈ entries, entry.2.FreeOfNaN := by
  rw [freeOfNaN_iff, parts, List.forall_mem_map]
  simp [isNaN]

@[simp] theorem freeOfNaN_missing : missing.FreeOfNaN := by
  rw [freeOfNaN_iff]
  simp [isNaN, parts]

/-! ## Records inside -/

/-- Every record inside holds its fields in ascending order of their names. -/
def Ordered (value : Value) : Prop := ∀ node, PartOf node value → Keyed.Ordered node.fields

theorem ordered_iff {value : Value} :
    value.Ordered ↔ Keyed.Ordered value.fields ∧ ∀ part ∈ value.parts, part.Ordered :=
  forall_partOf_iff

@[simp] theorem ordered_number {n : Number} : (number n).Ordered := by
  rw [ordered_iff]
  simp [fields, parts, Keyed.Ordered]

@[simp] theorem ordered_text {s : String} : (text s).Ordered := by
  rw [ordered_iff]
  simp [fields, parts, Keyed.Ordered]

@[simp] theorem ordered_truth {b : Bool} : (truth b).Ordered := by
  rw [ordered_iff]
  simp [fields, parts, Keyed.Ordered]

@[simp] theorem ordered_array {items : List Value} :
    (array items).Ordered ↔ ∀ item ∈ items, item.Ordered := by
  rw [ordered_iff]
  simp [fields, parts, Keyed.Ordered]

@[simp] theorem ordered_record {entries : List (String × Value)} :
    (record entries).Ordered ↔ Keyed.Ordered entries ∧ ∀ entry ∈ entries, entry.2.Ordered := by
  rw [ordered_iff, parts, List.forall_mem_map]
  rfl

@[simp] theorem ordered_missing : missing.Ordered := by
  rw [ordered_iff]
  simp [fields, parts, Keyed.Ordered]

end Value

end SurveyLogic

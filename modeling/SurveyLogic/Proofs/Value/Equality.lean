import Mathlib.Data.List.Perm.Subperm
import SurveyLogic.Proofs.Value.Ordered

/-!
# Loose equality is symmetric

Loose equality does not mind which of two values comes first (`looselyEquals_comm`), and it holds of
values that are strictly equal.  Like equality of numbers it is not reflexive: a value equals itself
unless there is a NaN somewhere inside (`looselyEquals_self`).

Values of two kinds are compared by the scalars they stand for, which equality of scalars settles.
Arrays and records are compared item by item, and there the induction is on the values.  Records
need their fields in order: the fields of one are looked up in the other, and it is by their number
and their different names that the two have the same names.
-/

namespace SurveyLogic

namespace Value

/-! ## Item by item -/

theorem allLooselyEqual_comm {items : List Value} :
    ∀ {others : List Value}, (∀ a ∈ items, ∀ b ∈ others, a.looselyEquals b = b.looselyEquals a) →
      allLooselyEqual items others = allLooselyEqual others items := by
  induction items with
  | nil => rintro (_ | ⟨b, others⟩) _ <;> rfl
  | cons a items ih =>
      rintro (_ | ⟨b, others⟩) h
      · rfl
      · rw [allLooselyEqual, allLooselyEqual, h a List.mem_cons_self b List.mem_cons_self]
        rw [ih fun a ha b hb => h a (List.mem_cons_of_mem _ ha) b (List.mem_cons_of_mem _ hb)]

theorem allLooselyEqual_self (items : List Value) :
    allLooselyEqual items items = true ↔ ∀ item ∈ items, item.looselyEquals item = true := by
  induction items with
  | nil => simp [allLooselyEqual]
  | cons item items ih => simp [allLooselyEqual, ih]

theorem allLooselyEqual_of_strict {items : List Value} :
    ∀ {others : List Value},
      (∀ a ∈ items, ∀ b, a.strictlyEquals b = true → a.looselyEquals b = true) →
      allStrictlyEqual items others = true → allLooselyEqual items others = true := by
  induction items with
  | nil =>
      rintro (_ | ⟨b, others⟩) _ hstrict
      · rfl
      · contradiction
  | cons a items ih =>
      rintro (_ | ⟨b, others⟩) h hstrict
      · contradiction
      · obtain ⟨hfirst, hrest⟩ := Bool.and_eq_true_iff.mp hstrict
        obtain ⟨ha, hitems⟩ := List.forall_mem_cons.mp h
        exact Bool.and_eq_true_iff.mpr ⟨ha b hfirst, ih hitems hrest⟩

/-! ## Field by field -/

variable {entries others : List (String × Value)}

theorem fieldsLooselyEqual_iff :
    fieldsLooselyEqual entries others = true ↔ ∀ entry ∈ entries,
      ∃ b, Keyed.get? entry.1 others = some b ∧ entry.2.looselyEquals b = true := by
  induction entries with
  | nil => simp [fieldsLooselyEqual]
  | cons entry entries ih =>
      obtain ⟨name, a⟩ := entry
      rw [fieldsLooselyEqual, Bool.and_eq_true_iff, ih, List.forall_mem_cons]
      cases hget : Keyed.get? name others <;> simp

/-- Records with the same number of fields, of which one has all names of the other, have the same
names. -/
theorem exists_of_names_subset (hentries : Keyed.Ordered entries)
    (hlength : entries.length = others.length)
    (hsubset : entries.map (·.1) ⊆ others.map (·.1)) :
    ∀ other ∈ others, ∃ a, (other.1, a) ∈ entries := by
  have hperm : (entries.map (·.1)).Perm (others.map (·.1)) :=
    (hentries.nodup_names.subperm hsubset).perm_of_length_le (by simp [hlength])
  intro other hother
  obtain ⟨⟨_, a⟩, hmem, rfl⟩ := List.mem_map.mp
    (hperm.mem_iff.mpr (List.mem_map_of_mem (f := (·.1)) hother))
  exact ⟨a, hmem⟩

/-- A record that finds its fields in another one is found in it, too. -/
theorem fieldsLooselyEqual_of_swap
    (ih : ∀ entry ∈ entries, ∀ other ∈ others, entry.2.looselyEquals other.2 = true →
      other.2.looselyEquals entry.2 = true)
    (hentries : Keyed.Ordered entries) (hothers : Keyed.Ordered others)
    (hlength : entries.length = others.length)
    (h : fieldsLooselyEqual entries others = true) : fieldsLooselyEqual others entries = true := by
  rw [fieldsLooselyEqual_iff] at h ⊢
  have hsubset : entries.map (·.1) ⊆ others.map (·.1) := by
    intro name hname
    obtain ⟨entry, hentry, rfl⟩ := List.mem_map.mp hname
    obtain ⟨b, hb, -⟩ := h entry hentry
    exact List.mem_map_of_mem (f := (·.1)) (Keyed.mem_of_get? hb)
  intro other hother
  obtain ⟨a, ha⟩ := exists_of_names_subset hentries hlength hsubset other hother
  obtain ⟨b, hb, hequal⟩ := h (other.1, a) ha
  -- the name has one field in the other record
  obtain rfl : b = other.2 :=
    Option.some.inj (hb.symm.trans ((Keyed.get?_eq_some_iff hothers).mpr hother))
  exact ⟨a, (Keyed.get?_eq_some_iff hentries).mpr ha, ih (other.1, a) ha other hother hequal⟩

theorem fieldsLooselyEqual_self (hentries : Keyed.Ordered entries) :
    fieldsLooselyEqual entries entries = true ↔
      ∀ entry ∈ entries, entry.2.looselyEquals entry.2 = true := by
  rw [fieldsLooselyEqual_iff]
  refine forall₂_congr fun entry hentry => ?_
  rw [(Keyed.get?_eq_some_iff hentries).mpr hentry]
  simp

/-- Strictly equal fields have the same names. -/
theorem map_name_of_fieldsStrictlyEqual :
    ∀ {entries others : List (String × Value)}, fieldsStrictlyEqual entries others = true →
      entries.map (·.1) = others.map (·.1)
  | [], [], _ => rfl
  | [], _ :: _, h | _ :: _, [], h => by contradiction
  | (name, a) :: entries, (other, b) :: others, h => by
    simp only [fieldsStrictlyEqual, Bool.and_eq_true, beq_iff_eq] at h
    obtain ⟨⟨rfl, -⟩, hrest⟩ := h
    rw [List.map_cons, List.map_cons, map_name_of_fieldsStrictlyEqual hrest]

theorem exists_of_fieldsStrictlyEqual :
    ∀ {entries others : List (String × Value)}, fieldsStrictlyEqual entries others = true →
      ∀ entry ∈ entries, ∃ b, (entry.1, b) ∈ others ∧ entry.2.strictlyEquals b = true
  | [], _, _ => nofun
  | _ :: _, [], h => by contradiction
  | (name, a) :: entries, (other, b) :: others, h => by
    simp only [fieldsStrictlyEqual, Bool.and_eq_true, beq_iff_eq] at h
    obtain ⟨⟨rfl, hfirst⟩, hrest⟩ := h
    refine List.forall_mem_cons.mpr ⟨⟨b, List.mem_cons_self, hfirst⟩, fun entry hentry => ?_⟩
    obtain ⟨found, hmem, hequal⟩ := exists_of_fieldsStrictlyEqual hrest entry hentry
    exact ⟨found, List.mem_cons_of_mem _ hmem, hequal⟩

theorem fieldsLooselyEqual_of_strict
    (ih : ∀ entry ∈ entries, ∀ b, entry.2.strictlyEquals b = true → entry.2.looselyEquals b = true)
    (hentries : Keyed.Ordered entries) (h : fieldsStrictlyEqual entries others = true) :
    fieldsLooselyEqual entries others = true := by
  have hothers : Keyed.Ordered others := by
    have hnames : (entries.map (·.1)).Pairwise (· < ·) := List.pairwise_map.mpr hentries
    rw [map_name_of_fieldsStrictlyEqual h] at hnames
    exact List.pairwise_map.mp hnames
  rw [fieldsLooselyEqual_iff]
  intro entry hentry
  obtain ⟨b, hmem, hequal⟩ := exists_of_fieldsStrictlyEqual h entry hentry
  exact ⟨b, (Keyed.get?_eq_some_iff hothers).mpr hmem, ih entry hentry b hequal⟩

/-! ## Values -/

theorem looselyEquals_comm {a b : Value} (ha : a.Ordered) (hb : b.Ordered) :
    a.looselyEquals b = b.looselyEquals a := by
  induction a using Value.induction generalizing b with
  | array items ih =>
      cases b with
      | array others =>
          rw [ordered_array] at ha hb
          exact allLooselyEqual_comm fun a hmem b hmem' => ih a hmem (ha a hmem) (hb b hmem')
      | _ => first
        | rfl
        | simpa only [looselyEquals, scalar?] using Scalar.equals_comm _ _
  | record entries ih =>
      cases b with
      | record others =>
          obtain ⟨hentries, hfields⟩ := ordered_record.mp ha
          obtain ⟨hothers, hfields'⟩ := ordered_record.mp hb
          have hsame : ∀ entry ∈ entries, ∀ other ∈ others,
              entry.2.looselyEquals other.2 = other.2.looselyEquals entry.2 :=
            fun entry hmem other hmem' =>
              ih entry hmem (hfields entry hmem) (hfields' other hmem')
          simp only [looselyEquals]
          rw [Bool.eq_iff_iff, Bool.and_eq_true_iff, Bool.and_eq_true_iff, beq_iff_eq, beq_iff_eq]
          -- one side finds its names on the other; as there are as many, none is left over
          constructor
          · rintro ⟨hlength, h⟩
            exact ⟨hlength.symm, fieldsLooselyEqual_of_swap
              (fun entry hmem other hmem' hequal => hsame entry hmem other hmem' ▸ hequal)
              hentries hothers hlength h⟩
          · rintro ⟨hlength, h⟩
            exact ⟨hlength.symm, fieldsLooselyEqual_of_swap
              (fun other hmem' entry hmem hequal => hsame entry hmem other hmem' ▸ hequal)
              hothers hentries hlength h⟩
      | _ => rfl
  | number | text | truth | missing =>
      cases b with
      | _ => first
        | rfl
        | simpa only [looselyEquals, scalar?] using Scalar.equals_comm _ _

/-- Values that are strictly equal are loosely equal. -/
theorem looselyEquals_of_strict {a b : Value} (ha : a.Ordered)
    (h : a.strictlyEquals b = true) : a.looselyEquals b = true := by
  induction a using Value.induction generalizing b with
  | array items ih =>
      cases b with
      | array others =>
          rw [ordered_array] at ha
          exact allLooselyEqual_of_strict (fun a hmem b => ih a hmem (ha a hmem)) h
      | _ => contradiction
  | record entries ih =>
      cases b with
      | record others =>
          obtain ⟨hentries, hfields⟩ := ordered_record.mp ha
          -- strictly equal records have the same names in the same order
          have hlength := congrArg List.length (map_name_of_fieldsStrictlyEqual h)
          rw [List.length_map, List.length_map] at hlength
          simp only [looselyEquals, Bool.and_eq_true, beq_iff_eq]
          exact ⟨hlength, fieldsLooselyEqual_of_strict
            (fun entry hmem b => ih entry hmem (hfields entry hmem)) hentries h⟩
      | _ => contradiction
  | number n =>
      cases b with
      | number m => exact h
      | _ => contradiction
  | text s =>
      cases b with
      | text t => exact h
      | _ => contradiction
  | truth holds =>
      cases b with
      | truth other =>
          obtain rfl : holds = other := eq_of_beq h
          cases holds <;> rfl
      | _ => contradiction
  | missing =>
      cases b with
      | missing => rfl
      | _ => contradiction

/-- A value equals itself unless it has a NaN inside. -/
theorem looselyEquals_self {a : Value} (ha : a.Ordered) :
    a.looselyEquals a = true ↔ a.FreeOfNaN := by
  induction a using Value.induction with
  | number n => simp [looselyEquals, scalar?, Scalar.equals]
  | text s => simp [looselyEquals, scalar?, Scalar.equals]
  | truth holds => cases holds <;> simp [looselyEquals, scalar?, Scalar.equals] <;> decide
  | array items ih =>
      rw [ordered_array] at ha
      rw [looselyEquals, allLooselyEqual_self, freeOfNaN_array]
      exact forall₂_congr fun item hitem => ih item hitem (ha item hitem)
  | record entries ih =>
      obtain ⟨hentries, hfields⟩ := ordered_record.mp ha
      rw [looselyEquals, beq_self_eq_true, Bool.true_and, fieldsLooselyEqual_self hentries,
        freeOfNaN_record]
      exact forall₂_congr fun entry hentry => ih entry hentry (hfields entry hentry)
  | missing => simp [looselyEquals]

end Value

/-! ## Operators -/

section Operators

variable {a b : Value} {position : Nat}

theorem BinaryOperator.apply_comm {operator : BinaryOperator}
    (hoperator : operator = equal ∨ operator = notEqual) (ha : a.Ordered) (hb : b.Ordered) :
    operator.apply a b position = operator.apply b a position := by
  rcases hoperator with rfl | rfl
  all_goals simp only [apply, applyEquality, Value.looselyEquals_comm ha hb]

/-- An array has each of its items that equals itself. -/
theorem BinaryOperator.apply_of_mem {items : List Value} {item : Value} (hmem : item ∈ items)
    (hself : item.looselyEquals item = true) :
    within.apply item (.array items) position = .ok (.truth true) ∧
    contains.apply (.array items) item position = .ok (.truth true) := by
  have hany : items.any (·.looselyEquals item) = true := List.any_eq_true.mpr ⟨item, hmem, hself⟩
  constructor
  all_goals simp [apply, applyMembership, hany]

end Operators

/-- The operands of an equality can be exchanged, as long as both have values and neither writes. -/
theorem Expr.outcome_equality_comm {operator : BinaryOperator}
    (hoperator : operator = .equal ∨ operator = .notEqual) {left right : Expr} {env : Environment}
    (henv : env.Ordered) {a b : Value} (hleft : left.eval.outcome env = (.ok a, env))
    (hright : right.eval.outcome env = (.ok b, env)) (position : Nat) :
    (binary operator left right position).eval.outcome env =
      (binary operator right left position).eval.outcome env := by
  have ha := (ordered_eval left env henv).2 a (by rw [hleft])
  have hb := (ordered_eval right env henv).2 b (by rw [hright])
  simp only [eval, Evaluation.outcome_bind, hleft, hright, Evaluation.outcome_ofResult,
    BinaryOperator.apply_comm hoperator ha hb]

/-- **Loose equality is symmetric, extends strict equality, and is reflexive but for NaN.**  So the
two sides of an equality can be exchanged, and an item that has no NaN inside is in each array that
it is an item of. -/
theorem loose_equality_coherent :
    (∀ a b : Value, a.Ordered → b.Ordered → a.looselyEquals b = b.looselyEquals a) ∧
    (∀ a b : Value, a.Ordered → a.strictlyEquals b = true → a.looselyEquals b = true) ∧
    (∀ a : Value, a.Ordered → (a.looselyEquals a = true ↔ a.FreeOfNaN)) ∧
    (∀ operator : BinaryOperator, operator = .equal ∨ operator = .notEqual →
      (∀ (a b : Value) (position : Nat), a.Ordered → b.Ordered →
        operator.apply a b position = operator.apply b a position) ∧
      (∀ (left right : Expr) (env : Environment) (a b : Value) (position : Nat), env.Ordered →
        left.eval.outcome env = (.ok a, env) → right.eval.outcome env = (.ok b, env) →
        (Expr.binary operator left right position).eval.outcome env =
          (Expr.binary operator right left position).eval.outcome env)) ∧
    (∀ (items : List Value) (item : Value) (position : Nat), item ∈ items → item.Ordered →
      item.FreeOfNaN →
      BinaryOperator.within.apply item (.array items) position = .ok (.truth true) ∧
      BinaryOperator.contains.apply (.array items) item position = .ok (.truth true)) := by
  refine ⟨fun a b ha hb => Value.looselyEquals_comm ha hb,
    fun a b ha h => Value.looselyEquals_of_strict ha h, fun a ha => Value.looselyEquals_self ha,
    fun operator hoperator => ⟨fun a b position ha hb => BinaryOperator.apply_comm hoperator ha hb,
      fun left right env a b position henv hleft hright =>
        Expr.outcome_equality_comm hoperator henv hleft hright position⟩, ?_⟩
  intro items item position hmem hitem hfree
  exact BinaryOperator.apply_of_mem hmem ((Value.looselyEquals_self hitem).mpr hfree)

/-- Some answers, given as texts. -/
def writtenAnswers : Value := .record [("age", .array [.text "1"]), ("open", .text " 1.0 ")]

/-- The same answers as a number and a truth value. -/
def readAnswers : Value := .record [("age", .number .one), ("open", .truth true)]

/-- A record that equals another one only loosely, in both orders, and that equals itself. -/
theorem loose_equality_coherent_answers :
    writtenAnswers.Ordered ∧ readAnswers.Ordered ∧
    writtenAnswers.looselyEquals readAnswers = true ∧
    readAnswers.looselyEquals writtenAnswers = true ∧
    readAnswers.strictlyEquals readAnswers = true ∧ readAnswers.FreeOfNaN ∧
    BinaryOperator.equal.apply writtenAnswers readAnswers 0 =
      BinaryOperator.equal.apply readAnswers writtenAnswers 0 ∧
    ((Expr.binary .equal (.name "a" 0) (.truth true 4) 2).eval.outcome ⟨[("a", readAnswers)]⟩ =
      (Expr.binary .equal (.truth true 4) (.name "a" 0) 2).eval.outcome ⟨[("a", readAnswers)]⟩) ∧
    BinaryOperator.within.apply readAnswers (.array [writtenAnswers, readAnswers]) 0 =
      .ok (.truth true) := by
  obtain ⟨hcomm, hstrict, hself, hexchange, hmember⟩ := loose_equality_coherent
  have hnames : "age" < "open" := by decide
  have hwritten : writtenAnswers.Ordered :=
    Value.ordered_record.mpr ⟨List.pairwise_pair.mpr hnames, by simp⟩
  have hread : readAnswers.Ordered :=
    Value.ordered_record.mpr ⟨List.pairwise_pair.mpr hnames, by simp⟩
  have hequal : writtenAnswers.looselyEquals readAnswers = true := by decide +kernel
  have hsame : readAnswers.strictlyEquals readAnswers = true := by decide +kernel
  have hfree : readAnswers.FreeOfNaN := (hself _ hread).mp (hstrict _ _ hread hsame)
  have henv : (⟨[("a", readAnswers)]⟩ : Environment).Ordered := by
    simpa [Environment.Ordered, Keyed.Ordered] using hread
  refine ⟨hwritten, hread, hequal, ?_, hsame, hfree,
    (hexchange .equal (Or.inl rfl)).1 _ _ 0 hwritten hread,
    (hexchange .equal (Or.inl rfl)).2 _ _ _ _ _ 2 henv rfl rfl,
    (hmember _ _ 0 (by simp) hread hfree).1⟩
  rw [← hcomm _ _ hwritten hread]
  exact hequal

end SurveyLogic

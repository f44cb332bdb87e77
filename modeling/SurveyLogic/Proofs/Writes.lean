import Mathlib.Data.List.Pairwise
import SurveyLogic.Proofs.Confinement

/-!
# Writes that do not meet

Two paths diverge when neither begins with the other.  What is written at the end of one of them is
then not on the way to the end of the other, so the two writes can be exchanged
(`Environment.set_comm`), although both may have to make records, even the same ones.  Any number
of writes to diverging paths can be made in any order: `Environment.foldl_set_perm`.

Inside an environment a write is the same thing as inside a record (`Environment.record_set`), so
the induction is on the paths, segment by segment, and the environment is its outermost level.
-/

namespace SurveyLogic

/-! ## Entries -/

namespace Keyed

variable {α : Type}

theorem insert_insert_self (key : String) (old new : α) (entries : List (String × α)) :
    insert key new (insert key old entries) = insert key new entries := by
  induction entries with
  | nil => simp [insert]
  | cons entry entries ih =>
      obtain ⟨other, value⟩ := entry
      by_cases heq : other = key
      · simp [insert, heq]
      · by_cases hlt : key < other
        · simp [insert, heq, hlt]
        · simp [insert, heq, hlt, ih]

theorem insert_comm_of_lt {a b : String} (hlt : a < b) (v w : α) (entries : List (String × α)) :
    insert b w (insert a v entries) = insert a v (insert b w entries) := by
  have hnot : ¬ b < a := fun hgt => String.lt_irrefl a (String.lt_trans hlt hgt)
  have hne : a ≠ b := fun heq => String.lt_irrefl a (heq ▸ hlt)
  induction entries with
  | nil => simp [insert, hne, hne.symm, hlt, hnot]
  | cons entry entries ih =>
      obtain ⟨other, value⟩ := entry
      by_cases ha : other = a
      · subst ha
        simp [insert, hne, hnot]
      by_cases hb : other = b
      · subst hb
        simp [insert, hne, hne.symm, hlt, hnot]
      by_cases hbelow : a < other
      · by_cases hbbelow : b < other
        · simp [insert, ha, hb, hne, hne.symm, hlt, hnot, hbelow, hbbelow]
        · simp [insert, ha, hb, hne, hnot, hbelow, hbbelow]
      · -- both belong further on
        have hbbelow : ¬ b < other := fun hb => hbelow (String.lt_trans hlt hb)
        simp [insert, ha, hb, hbelow, hbbelow, ih]

/-- Entries under two names can be put in either way round. -/
theorem insert_comm {a b : String} (hne : a ≠ b) (v w : α) (entries : List (String × α)) :
    insert b w (insert a v entries) = insert a v (insert b w entries) := by
  by_cases hlt : a < b
  · exact insert_comm_of_lt hlt v w entries
  · have hgt : b < a :=
      String.not_le.mp fun hle => hne (String.le_antisymm hle (String.not_lt.mp hlt))
    exact (insert_comm_of_lt hgt w v entries).symm

end Keyed

/-! ## Paths -/

/-- Neither of two paths begins with the other. -/
def Text.Diverge (path other : List String) : Prop := ¬ path <+: other ∧ ¬ other <+: path

instance (path other : List String) : Decidable (Text.Diverge path other) :=
  inferInstanceAs (Decidable (_ ∧ _))

/-! ## Values -/

namespace Value

@[simp] theorem property_insert_self (name : String) (value : Value)
    (entries : List (String × Value)) :
    (record (Keyed.insert name value entries)).property name = value := by
  simp [property, fields]

theorem property_insert_of_ne {name other : String} (hne : other ≠ name) (value old : Value) :
    (record (Keyed.insert name value old.fields)).property other = old.property other := by
  simp [property, fields, Keyed.get?_insert_of_ne hne]

theorem assign_comm {path other : List String} (h : Text.Diverge path other) (v w old : Value) :
    assign other w (assign path v old) = assign path v (assign other w old) := by
  induction path generalizing other old with
  | nil => exact absurd List.nil_prefix h.1
  | cons name path ih =>
      cases other with
      | nil => exact absurd List.nil_prefix h.2
      | cons first other =>
          by_cases heq : name = first
          · subst heq
            -- both go into the same field, and diverge in it
            have hrest : Text.Diverge path other := by
              simpa [Text.Diverge, List.cons_prefix_cons] using h
            simp only [assign, property_insert_self, fields, Keyed.insert_insert_self,
              ih hrest]
          · have hne : first ≠ name := fun heq' => heq heq'.symm
            simp only [assign, property_insert_of_ne heq, property_insert_of_ne hne]
            simp only [fields, Keyed.insert_comm heq]

end Value

/-! ## Environments -/

namespace Environment

/-- An environment is written to as a record of its bindings is. -/
theorem record_set (path : String) (value : Value) (env : Environment) :
    Value.record (env.set path value).bindings =
      Value.assign (Text.segments path) value (.record env.bindings) := by
  obtain ⟨rest, hsegments⟩ := Text.segments_eq_cons path
  unfold set
  rw [hsegments]
  rfl

/-- The paths of two answers diverge. -/
def Diverging (a b : String × Value) : Prop :=
  Text.Diverge (Text.segments a.1) (Text.segments b.1)

instance (a b : String × Value) : Decidable (Diverging a b) :=
  inferInstanceAs (Decidable (Text.Diverge _ _))

instance : Std.Symm Diverging := ⟨fun _ _ h => ⟨h.2, h.1⟩⟩

theorem set_comm {a b : String × Value} (h : Diverging a b) (env : Environment) :
    (env.set a.1 a.2).set b.1 b.2 = (env.set b.1 b.2).set a.1 a.2 := by
  have hrecord : Value.record ((env.set a.1 a.2).set b.1 b.2).bindings =
      Value.record ((env.set b.1 b.2).set a.1 a.2).bindings := by
    simp only [record_set, Value.assign_comm h]
  cases hab : (env.set a.1 a.2).set b.1 b.2
  cases hba : (env.set b.1 b.2).set a.1 a.2
  simpa [hab, hba] using hrecord

/-- Answers with diverging paths can be written in any order. -/
theorem foldl_set_perm {updates others : List (String × Value)} (hperm : updates.Perm others)
    (hdiverging : updates.Pairwise Diverging) (env : Environment) :
    updates.foldl (fun env update => env.set update.1 update.2) env =
      others.foldl (fun env update => env.set update.1 update.2) env := by
  refine hperm.foldl_eq' ?_ env
  intro a ha b hb env
  by_cases heq : a = b
  · rw [heq]
  · exact set_comm (hdiverging.forall ha hb heq) env

end Environment

end SurveyLogic

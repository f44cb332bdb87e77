import SurveyLogic.Proofs.Writes

/-!
# Environments as nested stores

An environment is read and written at paths of any length.  What is written at a path is read back
there; what is read at a diverging path stays as it was; of two writes to one path the later counts,
and two writes to diverging paths can be exchanged.  `Environment.set_store` says all of this of any
environment, whatever stands on the way to the end of the path: values that are no records give way
to records there.

All comes from the same laws of `Value.assign` and `Value.resolve`, because an environment is read
and written as the record of its bindings is (`Environment.record_set`, `Environment.resolve?_eq`).
The one difference is the root: a path with an unbound root has no value at all, not a missing one.
-/

namespace SurveyLogic

/-! ## Paths that part -/

/-- Two paths diverge when some segment of theirs, behind the same segments, is not the same. -/
theorem Text.diverge_iff {path other : List String} :
    Text.Diverge path other ↔ ∃ shared a b rest rest',
      path = shared ++ a :: rest ∧ other = shared ++ b :: rest' ∧ a ≠ b := by
  constructor
  · intro h
    induction path generalizing other with
    | nil => exact absurd List.nil_prefix h.1
    | cons a path ih =>
        cases other with
        | nil => exact absurd List.nil_prefix h.2
        | cons b other =>
            by_cases heq : a = b
            · subst heq
              have hrest : Text.Diverge path other := by
                simpa [Text.Diverge, List.cons_prefix_cons] using h
              obtain ⟨shared, c, d, rest, rest', rfl, rfl, hne⟩ := ih hrest
              exact ⟨a :: shared, c, d, rest, rest', rfl, rfl, hne⟩
            · exact ⟨[], a, b, path, other, rfl, rfl, heq⟩
  · rintro ⟨shared, a, b, rest, rest', rfl, rfl, hne⟩
    simp [Text.Diverge, List.prefix_append_right_inj, List.cons_prefix_cons, hne, Ne.symm hne]

/-! ## Values -/

namespace Value

@[simp] theorem resolve_cons (name : String) (path : List String) (value : Value) :
    value.resolve (name :: path) = (value.property name).resolve path := rfl

theorem resolve_append (path rest : List String) (value : Value) :
    value.resolve (path ++ rest) = (value.resolve path).resolve rest :=
  List.foldl_append

theorem resolve_missing (path : List String) : missing.resolve path = missing := by
  induction path with
  | nil => rfl
  | cons name path ih => exact ih

/-- What was written at the end of a path stands there. -/
theorem resolve_assign (path : List String) (value old : Value) :
    (assign path value old).resolve path = value := by
  induction path generalizing old with
  | nil => rfl
  | cons name path ih => simp only [assign, resolve_cons, property_insert_self, ih]

/-- A write is not seen behind a segment at which another path parts from its own. -/
theorem resolve_assign_of_ne (shared : List String) {a b : String} (hne : a ≠ b)
    (rest rest' : List String) (value old : Value) :
    (assign (shared ++ a :: rest) value old).resolve (shared ++ b :: rest') =
      old.resolve (shared ++ b :: rest') := by
  induction shared generalizing old with
  | nil =>
      simp only [List.nil_append, assign, resolve_cons, property_insert_of_ne (Ne.symm hne)]
  | cons name shared ih =>
      simp only [List.cons_append, assign, resolve_cons, property_insert_self, ih]

theorem resolve_assign_of_diverge {path other : List String} (h : Text.Diverge path other)
    (value old : Value) : (assign path value old).resolve other = old.resolve other := by
  obtain ⟨shared, a, b, rest, rest', rfl, rfl, hne⟩ := Text.diverge_iff.mp h
  exact resolve_assign_of_ne shared hne rest rest' value old

/-- A write makes records of all that stands before the end of its path. -/
theorem exists_record_of_assign (path : List String) {rest : List String} (hrest : rest ≠ [])
    (value old : Value) :
    ∃ entries, (assign (path ++ rest) value old).resolve path = record entries := by
  induction path generalizing old with
  | nil =>
      obtain ⟨name, rest, rfl⟩ := List.exists_cons_of_ne_nil hrest
      exact ⟨_, rfl⟩
  | cons name path ih =>
      simp only [List.cons_append, assign, resolve_cons, property_insert_self]
      exact ih (old.property name)

/-- Of two writes to one path the later counts. -/
theorem assign_assign (path : List String) (value again old : Value) :
    assign path again (assign path value old) = assign path again old := by
  induction path generalizing old with
  | nil => rfl
  | cons name path ih =>
      simp only [assign, property_insert_self, fields, Keyed.insert_insert_self, ih]

end Value

/-! ## Environments -/

namespace Environment

/-- An environment is read as the record of its bindings is, where the root is bound. -/
theorem resolve?_eq (path : String) (env : Environment) :
    env.resolve? path =
      if (env.get? (Text.root path)).isSome then
        some ((Value.record env.bindings).resolve (Text.segments path))
      else none := by
  obtain ⟨rest, hsegments⟩ := Text.segments_eq_cons path
  simp only [resolve?, hsegments, Value.resolve_cons, Value.property, Value.fields, get?]
  cases Keyed.get? (Text.root path) env.bindings <;> rfl

theorem resolve?_of_bound {path : String} {env : Environment}
    (h : (env.get? (Text.root path)).isSome) :
    env.resolve? path = some ((Value.record env.bindings).resolve (Text.segments path)) := by
  rw [resolve?_eq, if_pos h]

theorem resolve?_of_unbound {path : String} {env : Environment}
    (h : env.get? (Text.root path) = none) : env.resolve? path = none := by
  rw [resolve?_eq, h]
  rfl

/-- Under an unbound root there is nothing. -/
theorem resolve_of_unbound {path : String} {env : Environment}
    (h : env.get? (Text.root path) = none) :
    (Value.record env.bindings).resolve (Text.segments path) = .missing := by
  obtain ⟨rest, hsegments⟩ := Text.segments_eq_cons path
  have hproperty : (Value.record env.bindings).property (Text.root path) = .missing :=
    congrArg (·.getD .missing) h
  rw [hsegments, Value.resolve_cons, hproperty, Value.resolve_missing]

/-- Paths of which one begins with the other have one root. -/
theorem root_eq_of_segments {path longer : String} {rest : List String}
    (h : Text.segments longer = Text.segments path ++ rest) :
    Text.root longer = Text.root path := by
  obtain ⟨_, hpath⟩ := Text.segments_eq_cons path
  obtain ⟨_, hlonger⟩ := Text.segments_eq_cons longer
  rw [hpath, hlonger] at h
  exact (List.cons.inj h).1

/-- The root of a path that was written to is bound. -/
theorem isSome_get?_set (path : String) (value : Value) (env : Environment) :
    ((env.set path value).get? (Text.root path)).isSome := by
  obtain ⟨rest, hset⟩ := env.set_eq_define_root path value
  simp [hset, define, get?]

/-- What a write at a path makes of an environment. -/
structure Stored (path : String) (value : Value) (before after : Environment) : Prop where
  /-- The value is read at the path, and what is in it further on. -/
  read : ∀ longer rest, Text.segments longer = Text.segments path ++ rest →
    after.resolve? longer = some (value.resolve rest)
  /-- Whatever stood on the way, records stand there now. -/
  records : ∀ shorter rest, Text.segments path = Text.segments shorter ++ rest → rest ≠ [] →
    ∃ entries, after.resolve? shorter = some (.record entries)
  /-- At a diverging path under a root that is new, a missing value stands for none. -/
  rooted : ∀ other, Text.Diverge (Text.segments path) (Text.segments other) →
    Text.root other = Text.root path → before.get? (Text.root path) = none →
    before.resolve? other = none ∧ after.resolve? other = some .missing
  /-- At any other diverging path nothing changes. -/
  unchanged : ∀ other, Text.Diverge (Text.segments path) (Text.segments other) →
    ¬(Text.root other = Text.root path ∧ before.get? (Text.root path) = none) →
    after.resolve? other = before.resolve? other
  /-- Under other names nothing changes. -/
  untouched : ∀ name, name ≠ Text.root path → after.get? name = before.get? name

theorem stored_set (path : String) (value : Value) (env : Environment) :
    Stored path value env (env.set path value) where
  read := by
    intro longer rest hlonger
    have hbound : ((env.set path value).get? (Text.root longer)).isSome := by
      rw [root_eq_of_segments hlonger]
      exact isSome_get?_set path value env
    rw [resolve?_of_bound hbound, record_set, hlonger, Value.resolve_append, Value.resolve_assign]
  records := by
    intro shorter rest hshorter hrest
    have hbound : ((env.set path value).get? (Text.root shorter)).isSome := by
      rw [← root_eq_of_segments hshorter]
      exact isSome_get?_set path value env
    obtain ⟨entries, hrecord⟩ :=
      Value.exists_record_of_assign (Text.segments shorter) hrest value (.record env.bindings)
    exact ⟨entries, by rw [resolve?_of_bound hbound, record_set, hshorter, hrecord]⟩
  rooted := by
    intro other hdiverge hroot hunbound
    have hbound : ((env.set path value).get? (Text.root other)).isSome := by
      rw [hroot]
      exact isSome_get?_set path value env
    rw [← hroot] at hunbound
    refine ⟨resolve?_of_unbound hunbound, ?_⟩
    rw [resolve?_of_bound hbound, record_set, Value.resolve_assign_of_diverge hdiverge,
      resolve_of_unbound hunbound]
  unchanged := by
    intro other hdiverge hcase
    -- the root of the other path is bound before just when it is bound after
    have hbound : ((env.set path value).get? (Text.root other)).isSome =
        (env.get? (Text.root other)).isSome := by
      by_cases hroot : Text.root other = Text.root path
      · have hold : env.get? (Text.root path) ≠ none := fun hunbound => hcase ⟨hroot, hunbound⟩
        rw [hroot, isSome_get?_set, Option.isSome_iff_ne_none.mpr hold]
      · rw [get?_set_of_ne hroot]
    rw [resolve?_eq, resolve?_eq, hbound, record_set, Value.resolve_assign_of_diverge hdiverge]
  untouched := by
    intro name hne
    exact get?_set_of_ne hne value env

/-- Of two writes to one path the later counts. -/
theorem set_set (path : String) (value again : Value) (env : Environment) :
    (env.set path value).set path again = env.set path again := by
  obtain ⟨rest, hsegments⟩ := Text.segments_eq_cons path
  have hrecord : Value.record ((env.set path value).set path again).bindings =
      Value.record (env.set path again).bindings := by
    rw [record_set, record_set, record_set, Value.assign_assign]
  cases htwice : (env.set path value).set path again
  cases honce : env.set path again
  simpa [htwice, honce] using hrecord

/-- **Environments are nested stores.**  A write is read back at its path and further in, leaves
records on the way, and is not seen elsewhere; a second write to the path replaces it; and it can be
exchanged with a write to a diverging path. -/
theorem set_store (env : Environment) (path : String) (value : Value) :
    Stored path value env (env.set path value) ∧
    (∀ again, (env.set path value).set path again = env.set path again) ∧
    (∀ other another, Text.Diverge (Text.segments path) (Text.segments other) →
      (env.set path value).set other another = (env.set other another).set path value) := by
  refine ⟨stored_set path value env, fun again => set_set path value again env, ?_⟩
  intro other another hdiverge
  exact set_comm (a := (path, value)) (b := (other, another)) hdiverge env

/-- A text stands where the record of `trip` belongs. -/
def tripText : Environment := empty.set "trip" (.text "none")

/-- The last segment of the path is empty. -/
theorem set_store_trip :
    Text.segments "trip.stay..to" = Text.segments "trip.stay." ++ ["to"] ∧
    Text.Diverge (Text.segments "trip.stay.") (Text.segments "trip.place") ∧
    Text.Diverge (Text.segments "trip.stay.") (Text.segments "size") ∧
    (tripText.set "trip.stay." (.text "long")).resolve? "trip.stay..to" = some .missing ∧
    (∃ entries, (tripText.set "trip.stay." (.text "long")).resolve? "trip.stay" =
      some (.record entries)) ∧
    (tripText.set "trip.stay." (.text "long")).resolve? "trip.place" =
      tripText.resolve? "trip.place" ∧
    (tripText.set "trip.stay." (.text "long")).resolve? "size" = tripText.resolve? "size" ∧
    (empty.set "trip.stay." (.text "long")).resolve? "trip.place" = some .missing ∧
    (tripText.set "trip.stay." (.text "long")).set "trip.place" (.text "sea") =
      (tripText.set "trip.place" (.text "sea")).set "trip.stay." (.text "long") := by
  have hlonger : Text.segments "trip.stay..to" = Text.segments "trip.stay." ++ ["to"] := by
    decide +kernel
  have hshorter : Text.segments "trip.stay." = Text.segments "trip.stay" ++ [""] := by
    decide +kernel
  have hplace : Text.Diverge (Text.segments "trip.stay.") (Text.segments "trip.place") := by
    decide +kernel
  have hsize : Text.Diverge (Text.segments "trip.stay.") (Text.segments "size") := by
    decide +kernel
  have hroot : Text.root "trip.place" = Text.root "trip.stay." := by decide +kernel
  have hother : ¬ Text.root "size" = Text.root "trip.stay." := by decide +kernel
  have hbound : tripText.get? (Text.root "trip.stay.") ≠ none := by
    have hbinding : Text.root "trip.stay." = Text.root "trip" := by decide +kernel
    rw [hbinding]
    exact Option.isSome_iff_ne_none.mp (isSome_get?_set "trip" (.text "none") empty)
  obtain ⟨hstored, -, hexchange⟩ := set_store tripText "trip.stay." (.text "long")
  obtain ⟨hempty, -, -⟩ := set_store empty "trip.stay." (.text "long")
  refine ⟨hlonger, hplace, hsize, hstored.read _ _ hlonger,
    hstored.records _ _ hshorter (by decide), ?_, ?_, ?_, hexchange _ _ hplace⟩
  · exact hstored.unchanged _ hplace fun hcase => hbound hcase.2
  · exact hstored.unchanged _ hsize fun hcase => hother hcase.1
  · exact (hempty.rooted _ hplace hroot rfl).2

end Environment

end SurveyLogic

/-!
# Readings

What a reader takes off the front of its input: a result, and a rest that is shorter than the input.
The shorter rest is what ends every loop over an input.  Readers that may fail are put one after the
other, and so is all that is made of what they read.
-/

namespace SurveyLogic

/-- What was read from the front of an input, and the shorter rest. -/
structure Reading {τ : Type} (α : Type) (input : List τ) where
  result : α
  rest : List τ
  shorter : rest.length < input.length

namespace Reading

variable {τ α β : Type}

/-- The first item is the whole reading. -/
def first (result : α) (item : τ) (rest : List τ) : Reading α (item :: rest) :=
  ⟨result, rest, Nat.lt_succ_self _⟩

/-- The same rest as the rest of a longer input, with another result. -/
def within {input longer : List τ} (reading : Reading α input) (result : β)
    (h : input.length ≤ longer.length) : Reading β longer :=
  ⟨result, reading.rest, Nat.lt_of_lt_of_le reading.shorter h⟩

end Reading

/-! ## Two steps one after the other -/

theorem ok_bind {ε α β : Type} (a : α) (next : α → Except ε β) :
    (Except.ok a >>= next) = next a := rfl

theorem error_bind {ε α β : Type} (error : ε) (next : α → Except ε β) :
    (Except.error error >>= next) = .error error := rfl

/-- Two steps one after the other succeed when both do. -/
theorem exists_of_bind_eq_ok {ε α β : Type} {first : Except ε α} {next : α → Except ε β} {b : β}
    (h : first >>= next = .ok b) : ∃ a, first = .ok a ∧ next a = .ok b := by
  cases first with
  | error error => simp [bind, Except.bind] at h
  | ok a => exact ⟨a, rfl, h⟩

/-- Two steps one after the other fail when the first one does, or the second one after it. -/
theorem error_of_bind_eq_error {ε α β : Type} {first : Except ε α} {next : α → Except ε β}
    {error : ε} (h : first >>= next = .error error) :
    first = .error error ∨ ∃ a, first = .ok a ∧ next a = .error error := by
  cases first with
  | error other =>
    obtain rfl := Except.error.inj h
    exact Or.inl rfl
  | ok a => exact Or.inr ⟨a, rfl, h⟩

/-- A step of which something is seen has succeeded. -/
theorem exists_of_toOption_map {ε α β : Type} {result : Except ε α} {view : α → β} {seen : β}
    (h : result.toOption.map view = some seen) : ∃ a, result = .ok a ∧ view a = seen := by
  cases result with
  | error error => simp [Except.toOption] at h
  | ok a => exact ⟨a, rfl, by simpa [Except.toOption] using h⟩

/-- A step whose result is seen has succeeded with it. -/
theorem eq_ok_of_seen {ε α : Type} {result : Except ε α} {a : α} (h : result.toOption = some a) :
    result = .ok a := by
  cases result with
  | error error => simp [Except.toOption] at h
  | ok b => rw [Option.some.inj h]

/-- The error of a step that has failed. -/
def error? {ε α : Type} : Except ε α → Option ε
  | .error error => some error
  | .ok _ => none

/-- A step whose error is seen has failed with it. -/
theorem eq_error_of_seen {ε α : Type} {result : Except ε α} {error : ε}
    (h : error? result = some error) : result = .error error := by
  cases result with
  | error other => rw [Option.some.inj h]
  | ok a => contradiction

end SurveyLogic

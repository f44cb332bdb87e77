import SurveyLogic.RuntimeError
import SurveyLogic.Text.Name

/-!
# Environments

The answers given so far: values under names, in ascending order of the names.  A dotted path
reaches into the record under its first segment; writing to one makes the records that are not there
yet.  `define` and `set` differ in this alone, and agree on a path without dots: `set_eq_define`.
-/

namespace SurveyLogic

structure Environment where
  bindings : List (String × Value)
deriving Inhabited

namespace Environment

def empty : Environment := ⟨[]⟩

def size (env : Environment) : Nat := env.bindings.length

/-- The value under a name; dots mean nothing here. -/
def get? (name : String) (env : Environment) : Option Value := Keyed.get? name env.bindings

/-- The value under a name that stands at the given position of a source. -/
def lookup (name : String) (position : Nat) (env : Environment) : Except RuntimeError Value :=
  match env.get? name with
  | some value => .ok value
  | none => .error (.undefinedVariable name position)

/-- The value at the end of a dotted path, if its root is bound. -/
def resolve? (path : String) (env : Environment) : Option Value :=
  match Text.segments path with
  | [] => none
  | root :: rest => (env.get? root).map (·.resolve rest)

/-- Puts a value under a name; dots mean nothing here. -/
def define (name : String) (value : Value) (env : Environment) : Environment :=
  ⟨Keyed.insert name value env.bindings⟩

/-- Puts a value at the end of a dotted path. -/
def set (path : String) (value : Value) (env : Environment) : Environment :=
  match Text.segments path with
  | [] => env
  | root :: rest => env.define root (value.assign rest ((env.get? root).getD .missing))

theorem set_eq_define {path : String} (hdot : '.' ∉ path.toList) (value : Value)
    (env : Environment) : env.set path value = env.define path value := by
  unfold set Text.segments
  rw [Text.splitAtDots_of_not_mem hdot]
  simp [Value.assign]

end Environment

end SurveyLogic

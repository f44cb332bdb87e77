/-!
# Names and paths

A name is a letter or underscore followed by letters, digits, underscores and hyphens, all of them
ASCII.  A path is a sequence of segments separated by dots; its first segment is its root.  Any text
can be taken apart into segments; it is a proper path when every segment is a name.
-/

namespace SurveyLogic.Text

/-! ## Runs of characters -/

theorem takeWhile_append_of_head? {p : Char → Bool} {cs rest : List Char}
    (hall : ∀ c ∈ cs, p c = true) (hrest : ∀ d ∈ rest.head?, p d = false) :
    (cs ++ rest).takeWhile p = cs ∧ (cs ++ rest).dropWhile p = rest := by
  rw [List.takeWhile_append_of_pos hall, List.dropWhile_append_of_pos hall]
  cases rest with
  | nil => simp
  | cons d rest =>
      have hd : p d = false := hrest d rfl
      simp [hd]

theorem forall_mem_head?_cons {p : Char → Prop} {c : Char} (h : p c) (cs : List Char) :
    ∀ d ∈ (c :: cs).head?, p d := by
  intro d hd
  obtain rfl : c = d := Option.some.inj hd
  exact h

/-! ## Names -/

def isDigit (c : Char) : Bool := '0' ≤ c && c ≤ '9'

def isNameStart (c : Char) : Bool := ('a' ≤ c && c ≤ 'z') || ('A' ≤ c && c ≤ 'Z') || c == '_'

def isNameRest (c : Char) : Bool := isNameStart c || isDigit c || c == '-'

def isName : List Char → Bool
  | [] => false
  | c :: cs => isNameStart c && cs.all isNameRest

/-! ## Paths -/

/-- The pieces between the dots: one more than there are dots. -/
def splitAtDots : List Char → List (List Char)
  | [] => [[]]
  | c :: cs =>
    if c = '.' then [] :: splitAtDots cs
    else match splitAtDots cs with
      | [] => [[c]]
      | piece :: pieces => (c :: piece) :: pieces

theorem splitAtDots_ne_nil (cs : List Char) : splitAtDots cs ≠ [] := by
  cases cs with
  | nil => simp [splitAtDots]
  | cons c cs =>
    unfold splitAtDots
    split
    · simp
    · split <;> simp

/-- Without a dot there is one piece. -/
theorem splitAtDots_of_not_mem {cs : List Char} (hdot : '.' ∉ cs) : splitAtDots cs = [cs] := by
  induction cs with
  | nil => rfl
  | cons c cs ih =>
    rw [List.mem_cons, not_or] at hdot
    have hne : c ≠ '.' := Ne.symm hdot.1
    simp [splitAtDots, hne, ih hdot.2]

/-- The segments of a path. -/
def segments (path : String) : List String := (splitAtDots path.toList).map String.ofList

/-- The segments joined by dots again. -/
def joinSegments (path : List String) : String := String.intercalate "." path

/-- The first segment of a path. -/
def root (path : String) : String := String.ofList (path.toList.takeWhile (· != '.'))

/-- Every segment is a name. -/
def isPath (cs : List Char) : Bool := (splitAtDots cs).all isName

end SurveyLogic.Text

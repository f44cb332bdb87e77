import SurveyLogic.Environment
import SurveyLogic.Names
import SurveyLogic.Text.Blank

/-!
# Titles

The title of a question is a text with placeholders.  A placeholder is a path between double braces,
with blanks around it or not; every other brace stands for itself.  In a rendered title each
placeholder is replaced by the text of the answer at its path, or by a fallback where there is none.
-/

namespace SurveyLogic

/-- What stands for an answer that has not been given. -/
inductive Fallback
  | empty
  /-- The placeholder itself, as it is written. -/
  | keep
  | text (value : String)
deriving DecidableEq, Inhabited

def Fallback.render (fallback : Fallback) (placeholder : String) : String :=
  match fallback with
  | .empty => ""
  | .keep => placeholder
  | .text value => value

/-- A stretch of text without placeholders, or the inside of a placeholder. -/
inductive Segment
  | text (content : List Char)
  | placeholder (inside : List Char)
deriving DecidableEq

/-- A segment as it is written in the title. -/
def Segment.chars : Segment → List Char
  | .text content => content
  | .placeholder inside => '\x7b' :: '\x7b' :: inside ++ ['\x7d', '\x7d']

/-- The path of a placeholder. -/
def Segment.path? : Segment → Option String
  | .text _ => none
  | .placeholder inside => some (String.ofList (Text.trimChars inside))

structure Title where
  source : String
  segments : List Segment
deriving DecidableEq

namespace Title

/-! ## Taking a title apart -/

/-- Puts a character in front of some segments, into the first one if that is text. -/
def prepend (c : Char) : List Segment → List Segment
  | .text content :: segments => .text (c :: content) :: segments
  | segments => .text [c] :: segments

/-- The inside of the placeholder at the front of a title, and what follows it.  The inside has no
brace in it, and is a path up to the blanks at its ends. -/
def placeholder? (cs : List Char) : Option (List Char × List Char) :=
  match cs with
  | '\x7b' :: '\x7b' :: cs =>
    let inside := cs.takeWhile fun c => c ≠ '\x7b' ∧ c ≠ '\x7d'
    match cs.dropWhile fun c => c ≠ '\x7b' ∧ c ≠ '\x7d' with
    | '\x7d' :: '\x7d' :: rest =>
      if Text.isPath (Text.trimChars inside) then some (inside, rest) else none
    | _ => none
  | _ => none

theorem length_lt_of_placeholder? {cs inside rest : List Char}
    (h : placeholder? cs = some (inside, rest)) : rest.length < cs.length := by
  unfold placeholder? at h
  split at h
  · next cs =>
    split at h
    · next rest' hdrop =>
      dsimp only at h
      split at h
      · obtain ⟨rfl, rfl⟩ := by simpa using h
        -- what follows the closing braces is an end of what follows the opening ones
        have hsuffix : '\x7d' :: '\x7d' :: rest' <:+ cs := hdrop ▸ List.dropWhile_suffix _
        have hlength := hsuffix.length_le
        simp only [List.length_cons] at hlength ⊢
        omega
      · simp at h
    · simp at h
  · simp at h

/-- The segments of a title: the placeholders, and the text between them. -/
def cut : List Char → List Segment
  | [] => []
  | c :: cs =>
    match _hplaceholder : placeholder? (c :: cs) with
    | some (inside, rest) => .placeholder inside :: cut rest
    | none => prepend c (cut cs)
termination_by cs => cs.length
decreasing_by
  · exact length_lt_of_placeholder? _hplaceholder
  · exact Nat.lt_succ_self _

def parse (source : String) : Title := ⟨source, cut source.toList⟩

/-! ## What a title reads -/

/-- The paths of the placeholders, in order. -/
def placeholders (title : Title) : List String := title.segments.filterMap Segment.path?

/-- The names that the placeholders start from. -/
def roots (title : Title) : Names := Names.ofList (title.placeholders.map Text.root)

/-! ## Rendering -/

/-- A missing value counts as an answer that has not been given. -/
def renderSegment (env : Environment) (fallback : Fallback) (segment : Segment) : String :=
  match segment.path? with
  | none => String.ofList segment.chars
  | some path =>
    match (env.resolve? path).filter fun value => !value.isMissing with
    | some value => value.toText
    | none => fallback.render (String.ofList segment.chars)

def render (title : Title) (env : Environment) (fallback : Fallback) : String :=
  String.join (title.segments.map (renderSegment env fallback))

end Title

end SurveyLogic

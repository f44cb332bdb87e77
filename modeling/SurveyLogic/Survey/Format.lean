import SurveyLogic.Json.Parse
import SurveyLogic.Survey.Definition

/-!
# Survey definitions as JSON

A definition is written as an object, its fields in a fixed order and an absent condition left out.
Reading is more lenient: fields may come in any order, unknown ones are skipped, and all but the
name and the title of a question have a default.  An object may also be written as an array of its
fields in order, trailing ones with a default left off.  A field that is given twice is an error,
also under two names.
-/

namespace SurveyLogic

/-! ## Writing -/

def Json.ofText (text : String) : Json := .text (some text)

/-- An object with the given members. -/
def Json.ofMembers (members : List (String × Json)) : Json :=
  .object (members.map fun member => (some member.1, member.2))

def Fallback.toJson : Fallback → Json
  | .empty => .ofText "empty"
  | .keep => .ofText "keep"
  | .text value => .ofMembers [("text", .ofText value)]

def Options.toJson (options : Options) : Json :=
  .ofMembers [("placeholder_fallback", options.placeholderFallback.toJson)]

def QuestionDefinition.toJson (question : QuestionDefinition) : Json :=
  .ofMembers ([("name", .ofText question.name), ("title", .ofText question.title)] ++
    match question.visibleWhen with
    | some condition => [("visible_when", .ofText condition)]
    | none => [])

def Definition.toJson (definition : Definition) : Json :=
  .ofMembers [("options", definition.options.toJson),
    ("questions", .array (definition.questions.map (·.toJson)))]

/-! ## Reading -/

namespace Json

def asText? : Json → Option String
  | text content => content
  | _ => none

/-- A text, or nothing written as `null`. -/
def asOptionalText? : Json → Option (Option String)
  | null => some none
  | json => json.asText?.map some

/-- The field with one of the given names: absent, or there once.  To have it twice is an error. -/
def field? (names : List String) (members : List (Option String × Json)) :
    Option (Option Json) :=
  match members.filter fun member => member.1.any (· ∈ names) with
  | [] => some none
  | [(_, json)] => some (some json)
  | _ => none

/-- The fields of an object or an array; each is known by its names, in order. -/
def fields? (names : List (List String)) : Json → Option (List (Option Json))
  | object members =>
    if members.all (·.1.isSome) then names.mapM (field? · members) else none
  | array elements =>
    if elements.length ≤ names.length then
      some (elements.map some ++ List.replicate (names.length - elements.length) none)
    else none
  | _ => none

/-- Reads a field that has a default. -/
def orDefault {α : Type} (read : Json → Option α) (default : α) (field : Option Json) : Option α :=
  match field with
  | some json => read json
  | none => some default

end Json

def Fallback.ofJson? : Json → Option Fallback
  | .text (some "empty") => some .empty
  | .text (some "keep") => some .keep
  | .object [(some "empty", .null)] => some .empty
  | .object [(some "keep", .null)] => some .keep
  | .object [(some "text", .text (some value))] => some (.text value)
  | _ => none

def Options.ofJson? (json : Json) : Option Options := do
  match ← json.fields? [["placeholder_fallback"]] with
  | [fallback] => return ⟨← Json.orDefault Fallback.ofJson? .empty fallback⟩
  | _ => none

def QuestionDefinition.ofJson? (json : Json) : Option QuestionDefinition := do
  match ← json.fields? [["name"], ["title"], ["visible_when", "visibleWhen"]] with
  | [some name, some title, visibleWhen] =>
    return ⟨← name.asText?, ← title.asText?, ← Json.orDefault Json.asOptionalText? none visibleWhen⟩
  | _ => none

def questionsOfJson? : Json → Option (List QuestionDefinition)
  | .array elements => elements.mapM QuestionDefinition.ofJson?
  | _ => none

def Definition.ofJson? (json : Json) : Option Definition := do
  match ← json.fields? [["options"], ["questions"]] with
  | [options, questions] =>
    return ⟨← Json.orDefault Options.ofJson? {} options,
      ← Json.orDefault questionsOfJson? [] questions⟩
  | _ => none

/-- The definition that a text writes. -/
def Definition.parse? (text : String) : Option Definition :=
  (Json.parse? text).bind Definition.ofJson?

/-- The text of a definition. -/
def Definition.toText (definition : Definition) : String := definition.toJson.toText

end SurveyLogic

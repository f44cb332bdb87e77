/-!
# JSON

A JSON text as a tree.  Members stay in the order and number in which they are written, so that a
reader of the tree can refuse repeated names.
-/

namespace SurveyLogic

inductive Json
  | null
  | truth (value : Bool)
  /-- A number as it is written. -/
  | number (literal : String)
  /-- A text; `none` if its escapes name half of a surrogate pair, which no text can hold. -/
  | text (content : Option String)
  | array (elements : List Json)
  | object (members : List (Option String × Json))
deriving Inhabited

namespace Json

/-! ## Writing -/

def hexDigit (n : Nat) : Char := if n < 10 then Char.ofNat (48 + n) else Char.ofNat (87 + n)

/-- Quotes, backslashes and control characters are escaped, the last by one letter if they have
one. -/
def escape (c : Char) : List Char :=
  if c = '"' then ['\\', '"']
  else if c = '\\' then ['\\', '\\']
  else if c = '\x08' then ['\\', 'b']
  else if c = '\x0c' then ['\\', 'f']
  else if c = '\n' then ['\\', 'n']
  else if c = '\r' then ['\\', 'r']
  else if c = '\t' then ['\\', 't']
  else if c.toNat < 0x20 then
    ['\\', 'u', '0', '0', hexDigit (c.toNat / 16), hexDigit (c.toNat % 16)]
  else [c]

def quote (content : String) : String :=
  String.ofList ('"' :: content.toList.flatMap escape ++ ['"'])

mutual

/-- The compact text of a tree.  A text that no text can hold is written as an empty one. -/
def toText : Json → String
  | null => "null"
  | truth value => if value then "true" else "false"
  | number literal => literal
  | text content => quote (content.getD "")
  | array elements => "[" ++ String.intercalate "," (toTexts elements) ++ "]"
  | object members => "\x7b" ++ String.intercalate "," (memberTexts members) ++ "\x7d"

def toTexts : List Json → List String
  | [] => []
  | json :: jsons => json.toText :: toTexts jsons

def memberTexts : List (Option String × Json) → List String
  | [] => []
  | (name, json) :: members => (quote (name.getD "") ++ ":" ++ json.toText) :: memberTexts members

end

end Json

end SurveyLogic

import SurveyLogic.Json.Basic
import SurveyLogic.Json.Token
import SurveyLogic.Reading

/-!
# Reading JSON

The tree of a JSON text, if it is one: a single value with nothing but blanks around it.
-/

namespace SurveyLogic

namespace Json

mutual

/-- The value at the front of the tokens. -/
def value? : (tokens : List Token) → Option (Reading Json tokens)
  | .null :: rest => some (.first .null _ rest)
  | .truth value :: rest => some (.first (.truth value) _ rest)
  | .number literal :: rest => some (.first (.number literal) _ rest)
  | .text content :: rest => some (.first (.text content) _ rest)
  | .openBracket :: .closeBracket :: rest =>
    some ⟨.array [], rest, by simp only [List.length_cons]; omega⟩
  | .openBrace :: .closeBrace :: rest =>
    some ⟨.object [], rest, by simp only [List.length_cons]; omega⟩
  | .openBracket :: tokens => do
    let elements ← elements? tokens
    return elements.within (.array elements.result) (Nat.le_succ _)
  | .openBrace :: tokens => do
    let members ← members? tokens
    return members.within (.object members.result) (Nat.le_succ _)
  | _ => none
termination_by tokens => 2 * tokens.length

/-- The elements of an array up to its end, at least one. -/
def elements? (tokens : List Token) : Option (Reading (List Json) tokens) := do
  let first ← value? tokens
  match hrest : first.rest with
  | .closeBracket :: rest =>
    return ⟨[first.result], rest, by have := first.shorter; simp_all; omega⟩
  | .comma :: rest =>
    have shorter : rest.length < tokens.length := by have := first.shorter; simp_all; omega
    let others ← elements? rest
    return others.within (first.result :: others.result) (Nat.le_of_lt shorter)
  | _ => none
termination_by 2 * tokens.length + 1

/-- The members of an object up to its end, at least one. -/
def members? : (tokens : List Token) → Option (Reading (List (Option String × Json)) tokens)
  | .text name :: .colon :: tokens => do
    let first ← value? tokens
    match hrest : first.rest with
    | .closeBrace :: rest =>
      return ⟨[(name, first.result)], rest, by have := first.shorter; simp_all; omega⟩
    | .comma :: rest =>
      have shorter : rest.length < tokens.length := by have := first.shorter; simp_all; omega
      let others ← members? rest
      return others.within ((name, first.result) :: others.result)
        (by simp only [List.length_cons]; omega)
    | _ => none
  | _ => none
termination_by tokens => 2 * tokens.length + 1

end

/-- The tree of a JSON text. -/
def parse? (text : String) : Option Json := do
  let tokens ← Token.scan? text.toList
  let value ← value? tokens
  if value.rest = [] then return value.result else none

end Json

end SurveyLogic

import SurveyLogic.CommandLine

/-!
# The program

Two commands:

* `eval [--set NAME=VALUE]... [--binding] EXPRESSION` evaluates a condition or a binding;
* `survey [--answer NAME=VALUE]... FILE` runs the survey in a file.

Results go to standard output, the message of an error to standard error.
-/

namespace SurveyLogic

namespace Command

/-- What the arguments ask for. -/
inductive Request
  | evaluate (assignments : List String) (isBinding : Bool) (source : String)
  | survey (answers : List String) (file : String)

/-- Arguments taken apart: the values of the option that takes one, whether the flag is there, and
the other arguments. -/
structure Arguments where
  values : List String := []
  flag : Bool := false
  others : List String := []

/-- The value written into the same argument behind an option and `=`. -/
def attached? (option : String) (argument : String) : Option String :=
  let start := (option ++ "=").toList
  if start.isPrefixOf argument.toList then
    some (String.ofList (argument.toList.drop start.length))
  else none

/-- Takes arguments apart; after `--` none is an option. -/
def Arguments.parse? (options flags : List String) : List String → Option Arguments
  | [] => some {}
  | "--" :: rest => some { others := rest }
  | argument :: rest =>
    if argument ∈ flags then (parse? options flags rest).map ({ · with flag := true })
    else match options.findSome? (attached? · argument) with
      | some value =>
        (parse? options flags rest).map fun parsed =>
          { parsed with values := value :: parsed.values }
      | none =>
        if argument ∈ options then
          match rest with
          | value :: rest =>
            (parse? options flags rest).map fun parsed =>
              { parsed with values := value :: parsed.values }
          | [] => none
        else if argument.toList.head? = some '-' then none
        else
          (parse? options flags rest).map fun parsed =>
            { parsed with others := argument :: parsed.others }

def Request.parse? : List String → Option Request
  | "eval" :: arguments => do
    let parsed ← Arguments.parse? ["--set", "-s"] ["--binding", "-b"] arguments
    match parsed.others with
    | [source] => return .evaluate parsed.values parsed.flag source
    | _ => none
  | "survey" :: arguments => do
    let parsed ← Arguments.parse? ["--answer", "-a"] [] arguments
    match parsed.others with
    | [file] => return .survey parsed.values file
    | _ => none
  | _ => none

def usage : String :=
  "usage: eval [--set NAME=VALUE]... [--binding] EXPRESSION\n" ++
  "       survey [--answer NAME=VALUE]... FILE"

/-- Prints an outcome; the result is the exit code. -/
def Outcome.print (outcome : Outcome) : IO UInt32 := do
  IO.print outcome.output
  if let some message := outcome.error? then IO.eprintln message
  return outcome.exitCode.toUInt32

/-- Runs the survey in a file. -/
def runSurvey (file : String) (answers : List String) : IO UInt32 := do
  match ← (IO.FS.readFile file).toBaseIO with
  | .error error =>
    IO.eprintln s!"Failed to read the survey file '{file}': {error}"
    return 1
  | .ok text =>
    match Definition.parse? text with
    | some definition => (survey definition answers).print
    | none =>
      IO.eprintln s!"The file '{file}' does not hold a survey definition."
      return 1

end Command

end SurveyLogic

open SurveyLogic in
/-- Runs the command that the arguments name. -/
def main (arguments : List String) : IO UInt32 := do
  match Command.Request.parse? arguments with
  | some (.evaluate assignments isBinding source) =>
    (Command.evaluate assignments isBinding source).print
  | some (.survey answers file) => Command.runSurvey file answers
  | none =>
    IO.eprintln Command.usage
    return 2

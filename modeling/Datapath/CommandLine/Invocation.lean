import Datapath.CommandLine.Files
import Datapath.Graph.Error
import Datapath.Pattern.Reader
import Datapath.Saturation
import Datapath.Text.Blank

/-!
# Datapath.CommandLine.Invocation

Reading the arguments of the command line.

The first argument is the command. After it, options and positional arguments may be
mixed in any order; an option that takes a value takes the next argument, and the
last of several equal options counts.
-/

namespace Datapath.CommandLine

/-- Why a command fails. -/
inductive CommandError
  /-- An option at the end lacks its value. -/
  | missingValue (option : String)
  /-- The limit on rounds is not a positive integer. -/
  | invalidIterations
  /-- There is no such option. -/
  | unknownOption (arg : String)
  /-- There is no such command. -/
  | unknownCommand (command : String)
  /-- The number of terms to compare is not two. -/
  | termCount (found : Nat)
  /-- The rule whose matches are asked for is not given. -/
  | missingRule
  /-- There is no such rule among the known ones. -/
  | unknownRule (name : String) (known : List String)
  /-- The file with terms cannot be read. -/
  | unreadable (path : String) (error : FileError)
  /-- Some text of terms is malformed. -/
  | malformed (error : SyntaxError)
  /-- The graph refuses a term. -/
  | refused (error : GraphError)

/-- The message of a command error. -/
def CommandError.message : CommandError → String
  | missingValue option => "Missing value for " ++ option
  | invalidIterations =>
      "Invalid --max-iterations value. Must be a positive integer."
  | unknownOption arg => "Unknown option \"" ++ arg ++ "\""
  | unknownCommand command => "Unknown command \"" ++ command ++ "\""
  | termCount found => s!"prove expects exactly 2 terms, got {found}"
  | missingRule => "matches expects a rule name"
  | unknownRule name known =>
    "Unknown rule \"" ++ name ++ "\". Known rules: " ++ ", ".intercalate known
  | unreadable path error => error.message path
  | malformed error => error.message
  | refused error => error.message

/-- What the arguments ask for. -/
structure Invocation where
  command : String
  positional : List String := []
  file : Option String := none
  saturate : Bool := false
  options : Options := {}

/-- The integer that a text starts with, after blanks and a sign; what follows it is
ignored. -/
def leadingInt? (s : String) : Option Int :=
  let (negative, rest) := Binary64.takeSign (s.toList.dropWhile isBlank)
  let digits := rest.takeWhile Char.isDigit
  if digits.isEmpty then none
  else
    let n := Binary64.digitsValue 0 digits
    some (if negative then -n else n)

/-- The limit on rounds that a text gives. -/
def iterations (s : String) : Except CommandError Int :=
  match leadingInt? s with
  | some n => if n > 0 then return n else throw .invalidIterations
  | none => throw .invalidIterations

namespace Invocation

/-- Reads the arguments after the command. -/
def read : List String → Invocation → Except CommandError Invocation
  | [], inv => return inv
  | "--file" :: rest, inv =>
    match rest with
    | [] => throw (.missingValue "--file")
    | path :: rest => read rest { inv with file := some path }
  | "--max-iterations" :: rest, inv =>
    match rest with
    | [] => throw (.missingValue "--max-iterations")
    | value :: rest => do
      let n ← iterations value
      read rest { inv with options := { inv.options with roundLimit := n } }
  | "--saturate" :: rest, inv => read rest { inv with saturate := true }
  | "--verbose" :: rest, inv =>
    read rest { inv with options := { inv.options with verbose := true } }
  | arg :: rest, inv =>
    if arg.startsWith "--" then throw (.unknownOption arg)
    else read rest { inv with positional := inv.positional ++ [arg] }

/-- Reads a command and the arguments after it. -/
def ofArgs (command : String) (args : List String) :
    Except CommandError Invocation :=
  read args { command }

end Invocation

end Datapath.CommandLine

import Datapath.CommandLine.Invocation
import Datapath.Rule.Catalog
import Datapath.Verdict

/-!
# Datapath.CommandLine

The commands `rules`, `prove` and `matches`.

`CommandLine.run` is a function of the arguments and of the contents of files. Its
`Outcome` is what is written to the two output streams and the exit status: zero, two
when an equivalence was not proved, and one on an error.
-/

namespace Datapath.CommandLine

/-- What a command leaves behind. -/
structure Outcome where
  exitStatus : Nat
  output : String
  errors : String
  deriving DecidableEq

/-- The help text. -/
def helpText : List String :=
  ["arith-rewrites - Width-aware rewrite rules for datapath equivalence",
    "",
    "Usage:",
    "  arith-rewrites rules",
    "  arith-rewrites prove <term> <term> [options]",
    "  arith-rewrites matches <rule> <term>... [options]",
    "",
    "Options:",
    "  --file <path>           Read terms from a file (whitespace-separated)",
    "  --max-iterations <n>    Saturation iteration limit (default: 30)",
    "  --saturate              matches: saturate with all rules before searching",
    "  --verbose               Log saturation progress",
    "  --help, -h              Show this help message",
    "",
    "Terms:",
    "  (<< 17 17 unsign (<< 17 16 unsign A 2 unsign B) 2 unsign C)",
    "",
    "  Binary operators (+ - * << >> >>>) take: output width, then width, sign and",
    "  expression of each operand. Signs are 'sign' or 'unsign'.",
    "",
    "Exit status:",
    "  prove exits 0 when the terms were proven equivalent, 2 when they were not."]

/-- Lines as they are written out. -/
def unlines (lines : List String) : String := String.join (lines.map (· ++ "\n"))

/-- The outcome of a command that writes lines. -/
def Outcome.ofLines (exitStatus : Nat) (lines : List String) : Outcome :=
  ⟨exitStatus, unlines lines, ""⟩

/-- The outcome of a command that fails. -/
def Outcome.ofError (e : CommandError) : Outcome :=
  ⟨1, "", unlines ["Error: " ++ e.message]⟩

/-! ## Terms -/

/-- Reads a sequence of terms. -/
def parseTerms (text : String) : Except CommandError (List Pattern) :=
  (Pattern.parseAll text).mapError .malformed

/-- The terms of the given texts and, after them, of the file. -/
def gatherTerms (files : Files) (texts : List String) (file : Option String) :
    Except CommandError (List Pattern) := do
  let given ← texts.mapM parseTerms
  match file with
  | none => return given.flatten
  | some path =>
    let content ← (files path).mapError (.unreadable path)
    return given.flatten ++ (← parseTerms content)

/-- The equations of the catalog. -/
def catalogEquations : List Equation := catalog.map Rule.toEquation

/-! ## Commands -/

/-- Lists the rules. -/
def runRules : Outcome := .ofLines 0 (catalog.map Rule.toText)

/-- The lines that tell the outcome of an equivalence query. -/
def verdictLines (v : Verdict) : List String :=
  let s := v.stats
  [if v.equivalent then "equivalent" else "not proven",
    s!"{s.rounds} iterations, {s.unions} merges, {s.classes} classes ({s.ending.text})"]

/-- Compares two terms. -/
def runProve (files : Files) (inv : Invocation) : Except CommandError Outcome := do
  match ← gatherTerms files inv.positional inv.file with
  | [lhs, rhs] =>
    let (v, _) ← (proveTerms lhs rhs catalogEquations inv.options).mapError .refused
    return .ofLines (if v.equivalent then 0 else 2) (v.stats.log ++ verdictLines v)
  | terms => throw (.termCount terms.length)

/-- Loads terms, saturates or just repairs the graph, and finds the matches of a
rule. The log of the saturation comes with them. -/
def findIn (r : Rule) (terms : List Pattern) (inv : Invocation) :
    GraphM (List String × List Rule.Match) := do
  terms.forM fun term => discard (EGraph.addGround term)
  let log ←
    if inv.saturate then
      let stats ← EGraph.saturate catalogEquations inv.options
      pure stats.log
    else
      EGraph.rebuild
      pure []
  return (log, ← EGraph.ask r.matchesIn)

/-- Lists the matches of a rule. -/
def runMatches (files : Files) (inv : Invocation) : Except CommandError Outcome := do
  match inv.positional with
  | [] => throw .missingRule
  | name :: texts =>
    match findRule? catalog name with
    | none => throw (.unknownRule name (catalog.map Rule.name))
    | some r =>
      let terms ← gatherTerms files texts inv.file
      let ((log, found), _) ←
        (EGraph.fromEmpty (findIn r terms inv)).mapError .refused
      return .ofLines 0 (log ++ r.report found)

/-- Runs the command of an invocation. -/
def execute (files : Files) (inv : Invocation) : Except CommandError Outcome :=
  match inv.command with
  | "rules" => return runRules
  | "prove" => runProve files inv
  | "matches" => runMatches files inv
  | command => throw (.unknownCommand command)

/-- Whether the arguments ask for help, which they do wherever it is named. -/
def asksForHelp (args : List String) : Bool :=
  args.contains "--help" || args.contains "-h"

/-- Runs the program on its arguments. -/
def run (files : Files) (args : List String) : Outcome :=
  match args with
  | [] => .ofLines 0 helpText
  | command :: rest =>
    if asksForHelp args then .ofLines 0 helpText
    else match Invocation.ofArgs command rest >>= execute files with
      | .ok outcome => outcome
      | .error e => .ofError e

/-- The file that the arguments name for terms, if they can be read. -/
def namedFile? : List String → Option String
  | [] => none
  | command :: rest => (Invocation.ofArgs command rest).toOption.bind (·.file)

end Datapath.CommandLine

import Datapath.Pattern.Reader
import Datapath.Pattern.Widths
import Datapath.Rule.Condition

/-!
# Datapath.Rule.Basic

Width-aware rules.

A `Rule` says that an instance of its left side equals the same instance of its right
side whenever its condition holds. It carries the proofs that both sides have
consistent widths and that the left side binds every variable of the right side and
of the condition. `Rule.ofTexts` reads a rule from text and checks this.

`Rule.matchesIn` lists the instances of the left side in a graph together with what
the condition says of each, which shows why a rule does or does not fire.
-/

namespace Datapath

/-! ## Rules -/

/-- The variables of a condition that may be absent. -/
def Condition.varsOf : Option Condition → List String
  | some c => c.vars
  | none => []

/-- A conditional equation between patterns. -/
structure Rule where
  name : String
  lhs : Pattern
  rhs : Pattern
  condition : Option Condition
  lhs_consistent : lhs.widthMismatch? = none
  rhs_consistent : rhs.widthMismatch? = none
  rhs_bound : ∀ v ∈ rhs.vars, v ∈ lhs.vars
  condition_bound : ∀ v ∈ Condition.varsOf condition, v ∈ lhs.vars

/-- Why a rule cannot be created. -/
inductive RuleError
  /-- A side is not a pattern. -/
  | malformed (error : SyntaxError)
  /-- A side declares inconsistent widths. -/
  | inconsistent (mismatch : WidthMismatch)
  /-- The right side has variables that the left side does not bind. -/
  | unboundInRhs (rule : String) (names : List String)
  /-- The condition reads variables that the left side does not bind. -/
  | unboundInCondition (rule : String) (names : List String)

/-- The message of a rule error. -/
def RuleError.message : RuleError → String
  | malformed error => error.message
  | inconsistent mismatch => mismatch.message
  | unboundInRhs rule names =>
    s!"Invalid rule '{rule}': rhs uses unbound variables {variableList names}"
  | unboundInCondition rule names =>
    s!"Invalid rule '{rule}': condition reads unbound variables {variableList names}"

namespace Rule

/-- Reads one side of a rule and checks its widths. -/
def side (text : String) :
    Except RuleError { p : Pattern // p.widthMismatch? = none } := do
  let p ← (Pattern.parse text).mapError .malformed
  match h : p.widthMismatch? with
  | none => return ⟨p, h⟩
  | some mismatch => throw (.inconsistent mismatch)

/-- The names in a list that a pattern does not bind. -/
def unbound (p : Pattern) (names : List String) : List String :=
  names.filter (· ∉ p.vars)

theorem mem_vars_of_unbound_eq_nil {p : Pattern} {names : List String}
    (h : unbound p names = []) : ∀ v ∈ names, v ∈ p.vars := by
  simpa [unbound] using h

/-- Reads a rule from the texts of its sides. -/
def ofTexts (name lhs rhs : String) (condition : Option Condition) :
    Except RuleError Rule := do
  let ⟨lhs, hl⟩ ← side lhs
  let ⟨rhs, hr⟩ ← side rhs
  if hrhs : unbound lhs rhs.vars = [] then
    if hcond : unbound lhs (Condition.varsOf condition) = [] then
      return ⟨name, lhs, rhs, condition, hl, hr, mem_vars_of_unbound_eq_nil hrhs,
        mem_vars_of_unbound_eq_nil hcond⟩
    else throw (.unboundInCondition name (unbound lhs (Condition.varsOf condition)))
  else throw (.unboundInRhs name (unbound lhs rhs.vars))

/-- The variables that the condition reads, in the order in which it takes their
values. -/
def reads (r : Rule) : List String := Condition.varsOf r.condition

/-- What the condition says of the values of its variables; without a condition the
rule holds. -/
def holds (r : Rule) (values : List Binary64) : Bool :=
  match r.condition with
  | some c => c.check values
  | none => true

/-- What the condition says of a valuation; it fails when one of its variables has no
value. -/
def holdsOn (r : Rule) (constants : Valuation) : Bool :=
  match r.reads.mapM constants.get? with
  | some values => r.holds values
  | none => false

/-! ## Matches -/

/-- An instance of a rule's left side in a graph. -/
structure Match where
  /-- A reference to the class that holds the instance. -/
  ref : Int
  /-- The known constants of the variables. -/
  constants : Valuation
  /-- Whether the rule's condition holds of them. -/
  holds : Bool

/-- The match at a class under a substitution. -/
def matchAt (r : Rule) (g : EGraph) (ref : Int) (s : Subst) :
    Except GraphError Match := do
  let constants ← g.valuation s r.lhs
  return ⟨ref, constants, r.holdsOn constants⟩

/-- The instances of the left side in a graph, in the order of the search. -/
def matchesIn (r : Rule) (g : EGraph) : Except GraphError (List Match) :=
  ((g.search r.lhs).flatMap fun found => found.substs.map (found.id, ·)).mapM
    fun (id, s) => r.matchAt g id s

/-! ## Text -/

/-- The line that describes a rule. -/
def toText (r : Rule) : String :=
  let condition :=
    if r.reads.isEmpty then ""
    else " if " ++ " ".intercalate (r.reads.map ("?" ++ ·))
  r.name ++ ": " ++ r.lhs.toText ++ " => " ++ r.rhs.toText ++ condition

/-- The description of a match. -/
def Match.toText (m : Match) : String :=
  let value (binding : String × Binary64) := s!" ?{binding.1}={binding.2.toText}"
  s!"e{m.ref} [cond={m.holds}]" ++ String.join (m.constants.map value)

/-- The lines that describe the matches of a rule, after a line with their number. -/
def report (r : Rule) (found : List Match) : List String :=
  let noun := if found.length = 1 then "match" else "matches"
  s!"{r.name}: {found.length} {noun}" :: found.map fun m => "  " ++ m.toText

end Rule

end Datapath

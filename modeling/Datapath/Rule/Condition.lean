import Datapath.Bindings
import Datapath.Graph.Basic
import Datapath.Graph.Matching

/-!
# Datapath.Rule.Condition

Side conditions on the constants that variables stand for.

A `Condition` lists the variables that it reads and tests their values in the same
order. `Condition.reading` builds one whose test reads them by name. Two ways to find
the values in a graph are given: `EGraph.valuation` collects the known constants of a
pattern's variables, for reports, and `EGraph.constantsOf` those of a list of
variables, all or none, for guards.
-/

namespace Datapath

/-- A test of the values of certain variables, given in that order. -/
structure Condition where
  vars : List String
  check : List Binary64 → Bool

/-- A condition that reads its variables by name. A name that is not among them, or
has been given no value, reads as NaN; a name listed twice has the value at its first
place. -/
def Condition.reading (vars : List String) (check : (String → Binary64) → Bool) :
    Condition where
  vars := vars
  check values := check fun name => (Bindings.get? (vars.zip values) name).getD .nan

/-- Variables and the constants they stand for. -/
abbrev Valuation := Bindings Binary64

namespace EGraph

/-- The constants of those of the given variables that are bound to classes with a
constant. -/
def valuationOf (g : EGraph) (s : Subst) : List String → Except GraphError Valuation
  | [] => return []
  | name :: rest => do
    let value ← match s.get? name with
      | some ref => g.constantAt ref
      | none => pure none
    let others ← g.valuationOf s rest
    match value with
    | some v => return (name, v) :: others
    | none => return others

/-- The known constants of a pattern's variables, in order of first appearance. -/
def valuation (g : EGraph) (s : Subst) (p : Pattern) : Except GraphError Valuation :=
  g.valuationOf s p.vars

/-- The constants of the given variables, unless one is unbound or its class has no
constant. -/
def constantsOf (g : EGraph) (s : Subst) :
    List String → Except GraphError (Option (List Binary64))
  | [] => return some []
  | name :: rest =>
    match s.get? name with
    | none => return none
    | some ref => do
      match ← g.constantAt ref with
      | none => return none
      | some value => return (← g.constantsOf s rest).map (value :: ·)

end EGraph

end Datapath

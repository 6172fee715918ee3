import Datapath.Graph.Instance
import Datapath.Graph.Rebuild
import Datapath.Rule.Basic

/-!
# Datapath.Equation

Conditional equations as the solver applies them, from left to right.

An equation is a rule without its proofs, so that unchecked ones can be tried too. It
is applied at a class and under a substitution: its right side is added and united
with the class. The **guard** decides whether it may be applied there, from the
constants that the graph knows.
-/

namespace Datapath

/-! ## Equations -/

/-- A conditional equation: instances of `lhs` equal those of `rhs` wherever the
condition holds of known constants. -/
structure Equation where
  name : String
  lhs : Pattern
  rhs : Pattern
  condition : Option Condition

/-- The equation of a rule. -/
def Rule.toEquation (r : Rule) : Equation := ⟨r.name, r.lhs, r.rhs, r.condition⟩

namespace Equation

/-- Whether an equation may be applied under a substitution: every variable of its
condition has a known constant and the condition holds of them. -/
def guard (eqn : Equation) (g : EGraph) (s : Subst) : Except GraphError Bool :=
  match eqn.condition with
  | none => return true
  | some c => do
    match ← g.constantsOf s c.vars with
    | some values => return c.check values
    | none => return false

end Equation

/-- An equation, and a place where it is to be applied. -/
structure Application where
  equation : Equation
  id : ClassId
  subst : Subst

namespace EGraph

/-- The instances of an equation's left side, whether or not its guard holds. -/
def candidates (g : EGraph) (eqn : Equation) : List Application :=
  (g.search eqn.lhs).flatMap fun found => found.substs.map fun s =>
    ⟨eqn, found.id, s⟩

/-- The applications in a list whose guard holds. -/
def guarded (g : EGraph) (apps : List Application) :
    Except GraphError (List Application) :=
  apps.filterM fun app => app.equation.guard g app.subst

/-- The applications of some equations whose guard holds, equation by equation. -/
def applications (g : EGraph) (equations : List Equation) :
    Except GraphError (List Application) :=
  g.guarded (equations.flatMap g.candidates)

/-- Applies one equation, and says whether it united two classes. -/
def applyAt (app : Application) : GraphM Bool := do
  let right ← instantiate app.subst app.equation.rhs
  let l ← ask (·.find app.id)
  let r ← ask (·.find right)
  if l = r then return false
  let _ ← unite l r
  return true

/-- Applies equations one after the other and counts the unions. -/
def applyEach (apps : List Application) : GraphM Nat :=
  apps.foldlM (fun unions app => do return if ← applyAt app then unions + 1
    else unions) 0

/-- Applies equations, repairs the graph, and returns the number of unions. -/
def applyAll (apps : List Application) : GraphM Nat := do
  let unions ← applyEach apps
  rebuild
  return unions

/-- Applies one equation wherever it matches, and returns the number of unions. -/
def applyOnce (eqn : Equation) : GraphM Nat := do
  rebuild
  applyAll (← ask (·.applications [eqn]))

end EGraph

end Datapath

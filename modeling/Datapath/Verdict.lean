import Datapath.Saturation

/-!
# Datapath.Verdict

Equivalence of ground terms.

`prove` loads two terms into an empty graph, saturates it, and says whether they
ended in one class. An answer of yes is a proof from the equations; an answer of no
only says that none was found within the limits.
-/

namespace Datapath

/-- The outcome of an equivalence query. -/
structure Verdict where
  /-- Whether the two terms ended in one class. -/
  equivalent : Bool
  /-- The numbers that stand for the classes of the terms. -/
  roots : ClassId × ClassId
  stats : Stats

/-- Saturates a graph and compares the classes that two references mean. -/
def EGraph.settle (equations : List Equation) (o : Options) (l r : Int) :
    GraphM Verdict := do
  let stats ← saturate equations o
  let l ← ask (·.find l)
  let r ← ask (·.find r)
  return ⟨l = r, (l, r), stats⟩

/-- The outcome of a computation that starts from the empty graph, with the graph it
ends in. -/
def EGraph.fromEmpty {ε α : Type} (x : EStateM ε EGraph α) : Except ε (α × EGraph) :=
  match x .empty with
  | .ok a g => .ok (a, g)
  | .error e _ => .error e

/-- Whether the ground terms with two texts can be proved equal. -/
def prove (lhs rhs : String) (equations : List Equation) (o : Options) :
    Except LoadError (Verdict × EGraph) :=
  EGraph.fromEmpty do
    let l ← EGraph.load lhs
    let r ← EGraph.load rhs
    EGraph.loading (EGraph.settle equations o l r)

/-- Whether two ground terms can be proved equal. -/
def proveTerms (lhs rhs : Pattern) (equations : List Equation) (o : Options) :
    Except GraphError (Verdict × EGraph) :=
  EGraph.fromEmpty do
    let l ← EGraph.addGround lhs
    let r ← EGraph.addGround rhs
    EGraph.settle equations o l r

end Datapath

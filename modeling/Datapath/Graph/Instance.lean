import Datapath.Graph.Matching
import Datapath.Graph.Update
import Datapath.Pattern.Reader

/-!
# Datapath.Graph.Instance

Adding instances of patterns to an e-graph.

`EGraph.instantiate` adds the nodes of a pattern bottom-up, from left to right, with
its variables replaced by the classes they stand for. A variable alone adds nothing,
so its reference is returned as it is. `EGraph.load` does this for the text of a
ground term.
-/

namespace Datapath

namespace EGraph

/-- Adds a pattern under a substitution and returns a reference to its class. -/
def instantiate (s : Subst) : Pattern → GraphM Int
  | .var name =>
    match s.get? name with
    | some ref => return ref
    | none => throw (.unboundVariable name)
  | .literal value => Int.ofNat <$> add (.literal value)
  | .sign sign => Int.ofNat <$> add (.sign sign)
  | .symbol name => Int.ofNat <$> add (.symbol name)
  | .derived fn left right => do
    let left ← instantiate s left
    let right ← instantiate s right
    Int.ofNat <$> add (.derived fn left right)
  | .binary op w wa sa a wb sb b => do
    let w ← instantiate s w
    let wa ← instantiate s wa
    let sa ← instantiate s sa
    let a ← instantiate s a
    let wb ← instantiate s wb
    let sb ← instantiate s sb
    let b ← instantiate s b
    Int.ofNat <$> add (.binary op w wa sa a wb sb b)

/-- Adds a ground term. -/
def addGround (term : Pattern) : GraphM Int :=
  if term.vars.isEmpty then instantiate [] term else throw (.openTerm term.vars)

end EGraph

/-! ## Terms from text -/

/-- Why the text of a term cannot be loaded. -/
inductive LoadError
  /-- The text is not a pattern. -/
  | malformed (error : SyntaxError)
  /-- The graph refuses the term. -/
  | refused (error : GraphError)

namespace EGraph

/-- Runs a graph computation where text may be malformed too. -/
def loading {α : Type} (x : GraphM α) : EStateM LoadError EGraph α := fun g =>
  match x g with
  | .ok a g => .ok a g
  | .error e g => .error (.refused e) g

/-- Reads text where the graph may refuse terms too. -/
def reading {α : Type} (x : Except SyntaxError α) : EStateM LoadError EGraph α :=
  match x with
  | .ok a => pure a
  | .error e => throw (.malformed e)

/-- Adds the ground term with a given text. -/
def load (text : String) : EStateM LoadError EGraph Int := do
  loading (addGround (← reading (Pattern.parse text)))

/-- Adds the ground terms of a text, in order; none is added before all of them are
read. -/
def loadAll (text : String) : EStateM LoadError EGraph (List Int) := do
  (← reading (Pattern.parseAll text)).mapM fun term => loading (addGround term)

end EGraph

end Datapath

import Datapath.Graph.Error
import Datapath.Graph.KeySet
import Datapath.Graph.NodeTable
import Datapath.Graph.UnionFind

/-!
# Datapath.Graph.Basic

The e-graph: classes of equal terms over width-annotated bit-vector arithmetic, and
how it is read.

A graph issues class numbers in ascending order. Each number has a record with the
number itself, the keys of the class's nodes, the keys of the nodes that have the
class as a child, and the constant that the class is known to equal. The record that
counts is that of the set's root; a record whose set has been absorbed keeps what it
last held. `pending` lists the classes that grew since the last repair.

Every stored node is listed among the parents of its children's classes. Only a
repair that fails half-way can leave nodes unlisted, and `intact` tells whether there
has been one.

Callers refer to classes by any integer, and `EGraph.find` answers for the numbers
that have been issued. An operation that fails leaves the graph as it was at the
moment of failure: this is what `GraphM` models, in which both outcomes carry a
graph.
-/

namespace Datapath

/-! ## Graphs -/

/-- The record of a class. -/
structure EClass where
  /-- The number under which the class was issued. -/
  id : ClassId
  /-- The keys of the nodes of the class. -/
  nodes : KeySet
  /-- The keys of nodes with the class among their children. -/
  parents : KeySet
  /-- The width or sign that the class is known to equal. -/
  constant : Option Binary64

instance : Inhabited EClass := ⟨⟨0, .empty, .empty, none⟩⟩

/-- A graph of equality classes. -/
structure EGraph where
  sets : UnionFind
  classes : Array EClass
  table : NodeTable
  pending : Array ClassId
  /-- Whether no repair has failed. -/
  intact : Bool

/-- Computations that read and change a graph and may fail without undoing their
changes. -/
abbrev GraphM := EStateM GraphError EGraph

namespace EGraph

/-- The graph without classes. -/
def empty : EGraph := ⟨.empty, #[], .empty, #[], true⟩

/-- The number of class numbers issued so far, which is also the next one. -/
def issued (g : EGraph) : Nat := g.sets.size

/-- The number that stands for the class of `id`. -/
def root (g : EGraph) (id : ClassId) : ClassId := g.sets.root id

/-- The record of a class number. -/
def record (g : EGraph) (id : ClassId) : EClass := g.classes.getD id default

/-- The constant of the class of `id`. -/
def constant? (g : EGraph) (id : ClassId) : Option Binary64 :=
  (g.record (g.root id)).constant

/-- A node with its children replaced by the numbers that stand for their classes. -/
def canonical (g : EGraph) (node : Node ClassId) : Node ClassId := node.map g.root

/-- The nodes of the class of `id`, in order of insertion. -/
def nodes (g : EGraph) (id : ClassId) : List (Node ClassId) :=
  (g.record (g.root id)).nodes.toList.filterMap fun key =>
    (g.table.get? key).map fun entry => g.canonical entry.node

/-- The constant of a node, from the constants of its children. -/
def fold (g : EGraph) : Node ClassId → Option Binary64
  | .literal value => some value
  | .sign s => some (.ofNat s.code)
  | .symbol _ | .binary .. => none
  | .derived fn left right =>
    match g.constant? left, g.constant? right with
    | some a, some b => some (fn.eval a b)
    | _, _ => none

/-- The width that a node computes from its children, if it computes one and both are
known. -/
def foldDerived? (g : EGraph) (node : Node ClassId) : Option Binary64 :=
  match node with
  | .derived .. => g.fold node
  | _ => none

/-- The numbers that stand for a class, in the order in which a member first
appears. -/
def classIds (g : EGraph) : List ClassId := g.sets.roots

/-- The number of classes. -/
def size (g : EGraph) : Nat := g.classIds.length

/-! ## References -/

/-- The number that stands for the class that a reference means. -/
def find (g : EGraph) (ref : Int) : Except GraphError ClassId :=
  match ref with
  | .ofNat id => if id < g.issued then .ok (g.root id) else .error (.unknownClass id)
  | .negSucc _ => .error (.unknownClass ref)

/-- A node with its children replaced by the numbers that stand for the classes they
mean. -/
def resolve (g : EGraph) (node : Node Int) : Except GraphError (Node ClassId) :=
  node.mapExcept g.find

/-- The constant of the class that a reference means. -/
def constantAt (g : EGraph) (ref : Int) : Except GraphError (Option Binary64) := do
  return (g.record (← g.find ref)).constant

/-- The record of the class that a reference means, with the number that stands for
it. -/
def classOf (g : EGraph) (ref : Int) : Except GraphError (ClassId × EClass) := do
  let id ← g.find ref
  return (id, g.record id)

/-- The nodes of the class that a reference means. -/
def nodesOf (g : EGraph) (ref : Int) : Except GraphError (List (Node ClassId)) := do
  return g.nodes (← g.find ref)

/-- The class that holds a node, if one does. -/
def lookup (g : EGraph) (node : Node Int) : Except GraphError (Option ClassId) := do
  let node ← g.resolve node
  return (g.table.get? node.key).map fun entry => g.root entry.owner

/-- Reads an answer off the current graph. -/
def ask {α : Type} (answer : EGraph → Except GraphError α) : GraphM α := fun g =>
  match answer g with
  | .ok a => .ok a g
  | .error e => .error e g

/-! ## Text -/

/-- The line of the class `id`: its constant in braces, if known, and its nodes. -/
def classLine (g : EGraph) (id : ClassId) : String :=
  let constant := match (g.record id).constant with
    | some value => " \x7b" ++ value.toText ++ "\x7d"
    | none => ""
  s!"  [{id}]" ++ constant ++ ": " ++
    " = ".intercalate ((g.record id).nodes.toList.map Node.toText)

/-- The lines that describe a graph. -/
def lines (g : EGraph) : List String := "E-Graph:" :: g.classIds.map g.classLine

end EGraph

end Datapath

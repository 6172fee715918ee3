import Datapath.Graph.Basic

/-!
# Datapath.Graph.Update

Adding nodes to an e-graph and uniting its classes.

`EGraph.add` and `EGraph.merge` are the operations on references. They resolve them
and go on with `EGraph.intern` and `EGraph.unite`, which work on numbers that the
graph has issued.

* A node that is stored already is not added again. A new node gets a class of its
  own, and a computed width whose arguments are known is united with the class of its
  value.
* Classes with different constants are never united, and the check comes before any
  change.
-/

namespace Datapath.EGraph

/-! ## Changes of a graph -/

/-- Changes the record of a class number. -/
def modifyRecord (g : EGraph) (id : ClassId) (f : EClass → EClass) : EGraph :=
  { g with classes := g.classes.modify id f }

/-- Lists a key with the given code among the parents of the class of `child`. -/
def enlistAt (code : Nat) (key : Node ClassId) (g : EGraph)
    (child : ClassId) : EGraph :=
  let id := g.root child
  if (g.record id).parents.containsAt code key then g
  else g.modifyRecord id fun c => { c with parents := c.parents.push key }

/-- Lists a key among the parents of each of its children. -/
def enlist (g : EGraph) (key : Node ClassId) : EGraph :=
  key.children.foldl (enlistAt key.code key) g

/-- Gives a node with canonical children a class of its own, with the next number. -/
def issue (g : EGraph) (node : Node ClassId) : EGraph :=
  let entry : Entry := ⟨node, g.issued⟩
  let new : EClass := ⟨g.issued, .single node.key, .empty, g.fold node⟩
  enlist
    { g with
      sets := g.sets.push
      classes := g.classes.push new
      table := g.table.insert entry }
    node.key

/-- Unites the class of the root `loser` with that of the root `winner`, which keeps
its number and is due for repair. -/
def absorb (g : EGraph) (winner loser : ClassId) : EGraph :=
  let lost := g.record loser
  let g := g.modifyRecord winner fun c =>
    { c with
      nodes := c.nodes.union lost.nodes
      parents := c.parents.union lost.parents
      constant := c.constant.or lost.constant }
  { g with sets := g.sets.link winner loser, pending := g.pending.push winner }

/-- The two constants that keep a pair of classes apart. -/
def conflict? (g : EGraph) (winner loser : ClassId) : Option (Binary64 × Binary64) :=
  match (g.record winner).constant, (g.record loser).constant with
  | some existing, some incoming =>
    if existing.numEq incoming then none else some (existing, incoming)
  | _, _ => none

/-! ## Uniting classes -/

/-- Unites the classes of two issued numbers and returns the number that stands for
the result. -/
def unite (a b : ClassId) : GraphM ClassId := fun g =>
  let r := g.root a
  let s := g.root b
  if r = s then .ok r g
  else
    let (winner, loser) := g.sets.order r s
    match g.conflict? winner loser with
    | some (existing, incoming) =>
        .error (.constantConflict winner existing incoming) g
    | none => .ok winner (g.absorb winner loser)

/-- Unites the classes that two references mean. -/
def merge (a b : Int) : GraphM ClassId := do
  let a ← ask (·.find a)
  let b ← ask (·.find b)
  unite a b

/-! ## Adding nodes -/

/-- The class of a node with canonical children, issued if there is none. -/
def enter (node : Node ClassId) : GraphM ClassId := fun g =>
  match g.table.get? node.key with
  | some entry => .ok (g.root entry.owner) g
  | none => .ok g.issued (g.issue node)

/-- Unites the class of `id` with the class of the literal `value`. -/
def equate (value : Binary64) (id : ClassId) : GraphM ClassId := do
  unite (← enter (.literal value)) id

/-- Adds a node with canonical children. A computed width that is new and whose
arguments are known is equated with its value. -/
def intern (node : Node ClassId) : GraphM ClassId := fun g =>
  match g.table.get? node.key, g.foldDerived? node with
  | none, some value => (do equate value (← enter node) : GraphM ClassId) g
  | _, _ => enter node g

/-- Adds a node and returns the number that stands for its class. -/
def add (node : Node Int) : GraphM ClassId := do
  intern (← ask (·.resolve node))

end Datapath.EGraph

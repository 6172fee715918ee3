import Datapath.Graph.Update

/-!
# Datapath.Graph.Rebuild

Restoring congruence after classes have been united.

Repairing a class takes up the stored nodes that have it as a child. Each one is
stored again under its canonical key. Where that key is stored already, the two nodes
are congruent and their classes are united. Where the node is a computed width whose
arguments have become known, its class is equated with the value. `EGraph.rebuild`
repairs the pending classes, pass by pass, until none is left.

A repair takes every key out of the list of parents and puts it back once its node is
up to date. If it fails in between, the rest of the list is lost. Therefore, in a
graph that is not `intact`, each repair also lists the nodes of its own class again;
in others they are all listed.

Only a union makes a class pending, so every pass after the first follows a union. A
union removes a class, or gives a class that had no literal the newly added literal
of its value, so there are at most twice as many as classes when the repair begins.
This bounds the number of passes.
-/

namespace Datapath.EGraph

/-- Takes a key from the class `owner` and the table. -/
def dropKey (g : EGraph) (key : Node ClassId) (owner : ClassId) : EGraph :=
  { g.modifyRecord owner fun c => { c with nodes := c.nodes.remove key } with
    table := g.table.erase key }

/-- Stores `node` in the class `owner` in place of a stored node. -/
def restore (g : EGraph) (entry : Entry) (node : Node ClassId)
    (owner : ClassId) : EGraph :=
  if node.key.same entry.key then
    if node.same entry.node && owner = entry.owner then g
    else { g with table := g.table.insert ⟨node, owner⟩ }
  else
    { g.modifyRecord owner fun c =>
      { c with nodes := (c.nodes.remove entry.key).add node.key } with
      table := (g.table.erase entry.key).insert ⟨node, owner⟩ }

/-- The stored node that another one coincides with once it is `node`. -/
def congruent? (g : EGraph) (entry : Entry) (node : Node ClassId) : Option Entry :=
  if node.key.same entry.key then none else g.table.get? node.key

/-- Stores `node` in the class `owner` in place of a stored node. If yet another
stored node has its key, the two are congruent: only the other one is kept, and the
classes are united. -/
def rekey (entry : Entry) (node : Node ClassId) (owner : ClassId) : GraphM Unit :=
  fun g =>
  match g.congruent? entry node with
  | some congruent =>
      discard (unite owner congruent.owner) (g.dropKey entry.key owner)
  | none => .ok () (g.restore entry node owner)

/-- Equates the class of `owner` with the width that its node computes, if that is
known. -/
def refold (node : Node ClassId) (owner : ClassId) : GraphM Unit := do
  match (← get).foldDerived? node with
  | some value => discard (equate value owner)
  | none => return

/-- Brings the node stored under `key` up to date after one of its children was
united with another class. A key that is no longer stored needs nothing. -/
def repairParent (key : Node ClassId) : GraphM Unit := do
  let g ← get
  match g.table.get? key with
  | none => return
  | some entry =>
    let owner := g.root entry.owner
    let node := g.canonical entry.node
    rekey entry node owner
    modify (·.enlist node.key)
    refold node owner

/-- Lists a key among the parents of its children if it is stored. -/
def enlistStored (g : EGraph) (key : Node ClassId) : EGraph :=
  let code := key.code
  if g.table.containsAt code key then key.children.foldl (enlistAt code key) g else g

/-- Lists the nodes of a class among the parents of their children. -/
def relist (id : ClassId) (g : EGraph) : EGraph :=
  (g.record id).nodes.toList.foldl enlistStored g

/-- Repairs the class of a root by bringing the nodes above it up to date. In a graph
that is not intact, the nodes of the class are listed again too. -/
def repair (id : ClassId) : GraphM Unit := do
  let parents := ((← get).record id).parents
  let intact := (← get).intact
  modify fun g =>
    { g.modifyRecord id fun c => { c with parents := .empty } with intact := false }
  parents.toList.forM repairParent
  modify fun g => if intact then { g with intact := true } else g.relist id

/-- Repairs the pending classes in at most `passes` rounds. -/
def rebuildPasses : (passes : Nat) → GraphM Unit
  | 0 => return
  | passes + 1 => do
    let todo := (← get).pending.toList
    if todo.isEmpty then return
    modify fun g => { g with pending := #[] }
    todo.forM fun id => do repair ((← get).root id)
    rebuildPasses passes

/-- Repairs the graph until no class is pending. -/
def rebuild : GraphM Unit := do
  rebuildPasses (2 * (← get).issued + 1)

end Datapath.EGraph

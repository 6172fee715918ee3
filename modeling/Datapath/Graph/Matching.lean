import Datapath.Bindings
import Datapath.Graph.Basic

/-!
# Datapath.Graph.Matching

Finding the instances of a pattern in an e-graph.

A substitution maps variables to classes. `EGraph.matchIn` extends a substitution in
every way in which the pattern is then represented in a given class: a variable
stands for the whole class, and any other pattern needs a node of the class with the
same head whose children represent the slots, from left to right. `EGraph.search`
does this for every class.
-/

namespace Datapath

/-- Variables and references to the classes they stand for. -/
abbrev Subst := Bindings Int

/-- A class and the substitutions under which it represents a pattern. -/
structure Found where
  id : ClassId
  substs : List Subst

namespace EGraph

/-- Lets a variable stand for the class `id`, unless it stands for another one
already. -/
def bindVar (name : String) (id : ClassId) (s : Subst) : List Subst :=
  match s.get? name with
  | some bound => if bound = id then [s] else []
  | none => [s.set name id]

/-- The extensions of `s` under which a pattern is represented in the class of
`id`. -/
def matchIn (g : EGraph) : Pattern → (id : ClassId) → Subst → List Subst
  | .var name, id, s => bindVar name (g.root id) s
  | .literal value, id, s =>
    (g.nodes id).flatMap fun
      | .literal v => if v.numEq value then [s] else []
      | _ => []
  | .sign sign, id, s =>
    (g.nodes id).flatMap fun
      | .sign t => if t = sign then [s] else []
      | _ => []
  | .symbol name, id, s =>
    (g.nodes id).flatMap fun
      | .symbol n => if n = name then [s] else []
      | _ => []
  | .derived fn left right, id, s =>
    (g.nodes id).flatMap fun
      | .derived f l r =>
        if f = fn then (g.matchIn left l s).flatMap (g.matchIn right r) else []
      | _ => []
  | .binary op w wa sa a wb sb b, id, s =>
    (g.nodes id).flatMap fun
      | .binary o w' wa' sa' a' wb' sb' b' =>
        if o = op then
          (g.matchIn w w' s).flatMap fun s =>
          (g.matchIn wa wa' s).flatMap fun s =>
          (g.matchIn sa sa' s).flatMap fun s =>
          (g.matchIn a a' s).flatMap fun s =>
          (g.matchIn wb wb' s).flatMap fun s =>
          (g.matchIn sb sb' s).flatMap fun s =>
          g.matchIn b b' s
        else []
      | _ => []

/-- The substitutions under which a pattern is represented in the class that a
reference means. -/
def matchesAt (g : EGraph) (p : Pattern) (ref : Int) :
    Except GraphError (List Subst) := do
  return g.matchIn p (← g.find ref) []

/-- Every class that represents a pattern, with all substitutions. -/
def search (g : EGraph) (p : Pattern) : List Found :=
  (g.classIds.map fun id => ⟨id, g.matchIn p id []⟩).filter fun found =>
    !found.substs.isEmpty

end EGraph

end Datapath

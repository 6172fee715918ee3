import Datapath.Graph.KeySet
import Datapath.Pattern

/-!
# Datapath.Graph.Error

The ways in which an operation on an e-graph fails.
-/

namespace Datapath

/-- Why an operation on a graph fails. -/
inductive GraphError
  /-- A reference to a class that the graph has not issued. -/
  | unknownClass (ref : Int)
  /-- A pattern variable that the substitution does not bind. -/
  | unboundVariable (name : String)
  /-- A term to be loaded that has variables. -/
  | openTerm (vars : List String)
  /-- Two classes with different constants were to become one. -/
  | constantConflict (id : ClassId) (existing incoming : Binary64)
  deriving DecidableEq

/-- The message of a graph error. -/
def GraphError.message : GraphError → String
  | unknownClass ref => s!"Unknown e-class: {ref}"
  | unboundVariable name => "Unbound pattern variable: ?" ++ name
  | openTerm vars => "Term must not contain pattern variables: " ++ variableList vars
  | constantConflict id existing incoming =>
    s!"Cannot merge constant {incoming.toText} into e-class {id} holding {existing.toText}"

end Datapath

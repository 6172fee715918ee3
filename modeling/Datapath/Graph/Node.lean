import Datapath.Binary64.Decimal
import Datapath.Operator
import Datapath.Width

/-!
# Datapath.Graph.Node

The nodes of an e-graph: one layer of a term, with the children replaced by
references of type `α`.

Two nodes are the same for hash-consing when they have the same `Node.key`. A node is
its own key, except that the literal minus zero has the key of zero, since both are
written `0`. `Node.keyText` writes a key, and `Node.code` is the number under which
it is filed.
-/

namespace Datapath

/-- One layer of a term. -/
inductive Node (α : Type)
  /-- A literal number. -/
  | literal (value : Binary64)
  /-- A sign. -/
  | sign (sign : Sign)
  /-- A named bit vector. -/
  | symbol (name : String)
  /-- A width computed from two others. -/
  | derived (fn : WidthFn) (left right : α)
  /-- A binary operation with its output width and its two annotated operands. -/
  | binary (op : Operator) (width widthA signA exprA widthB signB exprB : α)
  deriving DecidableEq

namespace Node

variable {α β : Type}

/-! ## Children -/

/-- The children, from left to right. -/
def children : Node α → List α
  | literal _ | sign _ | symbol _ => []
  | derived _ left right => [left, right]
  | binary _ w wa sa a wb sb b => [w, wa, sa, a, wb, sb, b]

/-- Replaces every child. -/
def map (f : α → β) : Node α → Node β
  | literal value => literal value
  | sign s => sign s
  | symbol name => symbol name
  | derived fn left right => derived fn (f left) (f right)
  | binary op w wa sa a wb sb b =>
      binary op (f w) (f wa) (f sa) (f a) (f wb) (f sb) (f b)

/-- Replaces every child from left to right, stopping at the first failure. -/
def mapExcept {ε : Type} (f : α → Except ε β) : Node α → Except ε (Node β)
  | literal value => pure (literal value)
  | sign s => pure (sign s)
  | symbol name => pure (symbol name)
  | derived fn left right => do pure (derived fn (← f left) (← f right))
  | binary op w wa sa a wb sb b => do
    pure (binary op (← f w) (← f wa) (← f sa) (← f a) (← f wb) (← f sb) (← f b))

/-- Puts the first children of a list in place of a node's own; a list that is too
short changes nothing. -/
def withChildren (node : Node α) (children : List α) : Node α :=
  match node, children with
  | derived fn _ _, left :: right :: _ => derived fn left right
  | binary op .., w :: wa :: sa :: a :: wb :: sb :: b :: _ =>
      binary op w wa sa a wb sb b
  | node, _ => node

/-! ## Keys -/

/-- The key under which a node is stored: the node with minus zero written as
zero. -/
def key : Node α → Node α
  | literal value => literal value.withoutMinusZero
  | node => node

/-- Takes one more number into a code. -/
def mixCode (code : UInt64) (n : Nat) : UInt64 :=
  (code ^^^ UInt64.ofNat n) * 1099511628211

/-- The mixed numbers that tell nodes apart. -/
def mixed : Node Nat → UInt64
  | literal value =>
    match value.level with
    | some n => mixCode (if n < 0 then 1 else 0) (n.natAbs % 4294967291)
    | none => 2
  | sign s => mixCode 3 s.code
  | symbol name => name.toList.foldl (fun code c => mixCode code c.toNat) 4
  | derived fn left right =>
    mixCode (mixCode (match fn with | .sum => 5 | .shift => 6) left) right
  | binary op w wa sa a wb sb b =>
    let head := match op with
      | .add => 7 | .sub => 8 | .mul => 9 | .shl => 10 | .shr => 11 | .ashr => 12
    [w, wa, sa, a, wb, sb, b].foldl mixCode head

/-- A number to file a node under. Equal nodes have equal codes, and different ones
seldom do. The lowest bits, which are mixed least, are left out. -/
def code (node : Node Nat) : Nat := (node.mixed >>> 8).toNat

/-- Whether two nodes are equal; one and the same object need not be looked into. -/
def same (m n : Node Nat) : Bool := withPtrEq m n (fun _ => decide (m = n)) (by simp)

@[simp] theorem same_iff {m n : Node Nat} : m.same n = true ↔ m = n := by
  simp [same, withPtrEq]

/-- Whether a node is in a list. -/
def among (node : Node Nat) : List (Node Nat) → Bool
  | [] => false
  | n :: rest => node.same n || node.among rest

@[simp] theorem among_iff {node : Node Nat} {l : List (Node Nat)} :
    node.among l = true ↔ node ∈ l := by
  induction l with
  | nil => simp [among]
  | cons n rest ih => simp [among, ih]

/-- The text of a key. -/
def keyText [ToString α] (node : Node α) : String :=
  let list (children : List α) := ",".intercalate (children.map toString)
  match node with
  | literal value => "const:" ++ value.toText
  | sign s => "sign:" ++ s.name
  | symbol name => "sym:" ++ name
  | derived fn left right => fn.symbol ++ ":" ++ list [left, right]
  | binary op w wa sa a wb sb b => op.name ++ ":" ++ list [w, wa, sa, a, wb, sb, b]

/-- The text of a node whose children are class numbers. -/
def toText (node : Node Nat) : String :=
  let compound (head : String) (children : List Nat) :=
    "(" ++ " ".intercalate (head :: children.map fun c => s!"e{c}") ++ ")"
  match node with
  | literal value => value.toText
  | sign s => s.keyword
  | symbol name => name
  | derived fn left right => compound fn.symbol [left, right]
  | binary op w wa sa a wb sb b => compound op.symbol [w, wa, sa, a, wb, sb, b]

end Node

end Datapath

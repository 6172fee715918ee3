import Datapath.Proofs.Compression
import Datapath.Verdict
import Mathlib

/-!
# Datapath.Proofs.Concrete

The engine on the maps in which a graph is kept.

`EGraph` says what a graph is. This is how it is kept while it is worked on: a forest
whose pointers every look-up redirects, the classes, and three maps from keys, to the
class in which a node with the key is found (`hashcons`), to the node itself
(`store`) and to the class that owns it (`owner`). A change is made to one map after
the other. An operation that fails leaves everything as it is at that moment, so that
a map might be behind the others, or a class might list a key of which no map knows.

Every number is looked up with a check, reading changes the forest, and no repair is
cut short: the nodes of a repaired class are always listed again as parents. That all
this behaves as `EGraph` says is shown in `Datapath.Proofs.Refinement`.
-/

namespace Datapath

/-! ## Maps -/

/-- Values filed by key. -/
abbrev KeyMap (α : Type) := Node ClassId → Option α

namespace KeyMap

variable {α : Type}

def empty : KeyMap α := fun _ => none

def insert (m : KeyMap α) (key : Node ClassId) (a : α) : KeyMap α :=
  fun k => if k = key then some a else m k

def erase (m : KeyMap α) (key : Node ClassId) : KeyMap α :=
  fun k => if k = key then none else m k

end KeyMap

/-- A graph as it is kept. -/
structure Concrete where
  forest : UnionFind
  classes : Array EClass
  hashcons : KeyMap ClassId
  store : KeyMap (Node ClassId)
  owner : KeyMap ClassId
  pending : Array ClassId

/-- Computations on the maps, which may fail without undoing their changes. -/
abbrev ConcreteM := EStateM GraphError Concrete

namespace Concrete

/-- No classes. -/
def empty : Concrete := ⟨.empty, #[], .empty, .empty, .empty, #[]⟩

/-- The record of a class number. -/
def record (c : Concrete) (id : ClassId) : EClass := c.classes.getD id default

/-- Changes the record of a class number. -/
def modifyRecord (c : Concrete) (id : ClassId) (f : EClass → EClass) : Concrete :=
  { c with classes := c.classes.modify id f }

/-- Files a node and its owner under the key of the node. -/
def file (c : Concrete) (node : Node ClassId) (owner : ClassId) : Concrete :=
  { c with
    hashcons := c.hashcons.insert node.key owner
    store := c.store.insert node.key node
    owner := c.owner.insert node.key owner }

/-- Makes it that no node is found under a key, although one may be stored. -/
def unfile (c : Concrete) (key : Node ClassId) : Concrete :=
  { c with hashcons := c.hashcons.erase key }

/-- Forgets the node stored under a key and its owner. -/
def forget (c : Concrete) (key : Node ClassId) : Concrete :=
  { c with store := c.store.erase key, owner := c.owner.erase key }

/-- Lists a key among the parents of a class. -/
def addParent (c : Concrete) (id : ClassId) (key : Node ClassId) : Concrete :=
  c.modifyRecord id fun e => { e with parents := e.parents.add key }

/-! ## Looking up -/

/-- The number that stands for the class that a reference means. The pointers on the
way are redirected. -/
def find (ref : Int) : ConcreteM ClassId := fun c =>
  match ref with
  | .ofNat id =>
    if id < c.forest.size then
      .ok (c.forest.root id) { c with forest := c.forest.compress id }
    else .error (.unknownClass id) c
  | .negSucc _ => .error (.unknownClass ref) c

/-- The record of a class number that must be there. -/
def requireClass (id : ClassId) : ConcreteM EClass := do
  let c ← get
  if id < c.classes.size then return c.record id else throw (.unknownClass id)

/-- A node with its children replaced by the numbers that stand for the classes they
mean. -/
def canonicalize (node : Node Int) : ConcreteM (Node ClassId) := do
  return (node.map fun _ => 0).withChildren (← node.children.mapM find)

/-- The constant of the class that a reference means. -/
def constantAt (ref : Int) : ConcreteM (Option Binary64) := do
  let id ← find ref
  return ((← get).record id).constant

/-- The constant of a node, from the constants of its children. -/
def fold : Node ClassId → ConcreteM (Option Binary64)
  | .literal value => return some value
  | .sign s => return some (.ofNat s.code)
  | .symbol _ | .binary .. => return none
  | .derived fn left right => do
    match ← constantAt left, ← constantAt right with
    | some a, some b => return some (fn.eval a b)
    | _, _ => return none

/-- The width that a node computes, if it computes one and its arguments are
known. -/
def width? (node : Node ClassId) (constant : Option Binary64) : Option Binary64 :=
  match node with
  | .derived .. => constant
  | _ => none

/-- Lists the key of a node among the parents of its children. -/
def registerParent (key node : Node ClassId) : ConcreteM Unit :=
  node.children.forM fun child => do
    let id ← find child
    modify (·.addParent id key)

/-! ## Uniting and adding -/

/-- Puts the class `loser`, with a given record, into the class `winner`. -/
def absorb (c : Concrete) (winner loser : ClassId) (lost : EClass) : Concrete :=
  { c.modifyRecord winner fun kept =>
      { kept with
        nodes := kept.nodes.union lost.nodes
        parents := kept.parents.union lost.parents
        constant := kept.constant.or lost.constant } with
    forest := c.forest.link winner loser
    pending := c.pending.push winner }

/-- The different constants of two classes. -/
def clash? (kept lost : EClass) : Option (Binary64 × Binary64) :=
  match kept.constant, lost.constant with
  | some existing, some incoming =>
    if existing.numEq incoming then none else some (existing, incoming)
  | _, _ => none

/-- Unites the classes that two references mean. -/
def merge (a b : Int) : ConcreteM ClassId := do
  let r ← find a
  let s ← find b
  if r = s then return r
  let (winner, loser) := (← get).forest.order r s
  let kept ← requireClass winner
  let lost ← requireClass loser
  match clash? kept lost with
  | some (existing, incoming) => throw (.constantConflict winner existing incoming)
  | none =>
    modify (·.absorb winner loser lost)
    return winner

/-- Gives a node with canonical children a class of its own, and tells its constant
too. -/
def issue (node : Node ClassId) : ConcreteM (ClassId × Option Binary64) := do
  let id := (← get).forest.size
  modify fun c => { c with forest := c.forest.push }
  let constant ← fold node
  modify fun c =>
    { c with classes :=
      c.classes.push ⟨id, .single node.key, .empty, constant⟩ }.file node id
  registerParent node.key node
  return (id, constant)

/-- The class of a literal. -/
def literal (value : Binary64) : ConcreteM ClassId := do
  match (← get).hashcons (Node.literal value).key with
  | some id => find id
  | none => return (← issue (.literal value)).1

/-- Unites a class with that of a literal. -/
def equate (value : Binary64) (id : ClassId) : ConcreteM ClassId := do
  merge (← literal value) id

/-- Adds a node. A computed width whose arguments are known is united with its
value. -/
def add (node : Node Int) : ConcreteM ClassId := do
  let node ← canonicalize node
  match (← get).hashcons node.key with
  | some id => find id
  | none =>
    let (id, constant) ← issue node
    match width? node constant with
    | some value => equate value id
    | none => return id

/-! ## Repairs -/

/-- Takes a key from the class `owner`, and its node out of the maps. -/
def dropKey (c : Concrete) (key : Node ClassId) (owner : ClassId) : Concrete :=
  (c.modifyRecord owner fun e => { e with nodes := e.nodes.remove key }).forget key

/-- Files `node` in the class `owner` in place of the node with a given key. -/
def refile (c : Concrete) (key node : Node ClassId) (owner : ClassId) : Concrete :=
  let filed := c.file node owner
  if node.key = key then filed
  else (filed.modifyRecord owner fun e =>
    { e with nodes := (e.nodes.remove key).add node.key }).forget key

/-- Files a node under its new key, or takes it out if a congruent one is found
there. -/
def rekey (key node : Node ClassId) (owner : ClassId) : ConcreteM Unit := do
  match (← get).hashcons node.key with
  | some congruent =>
    let _ ← requireClass owner
    modify (·.dropKey key owner)
    discard (merge owner congruent)
  | none => modify (·.refile key node owner)

/-- Unites the class of `owner` with the width that its node computes, if that is
known. -/
def refold (node : Node ClassId) (owner : ClassId) : ConcreteM Unit := do
  match width? node (← fold node) with
  | some value => discard (equate value owner)
  | none => return

/-- Brings the node stored under `key` up to date. -/
def repairParent (key : Node ClassId) : ConcreteM Unit := do
  let c ← get
  match c.store key, c.owner key with
  | some node, some id =>
    let owner ← find id
    modify (·.unfile key)
    let node ← canonicalize (node.map Int.ofNat)
    rekey key node owner
    registerParent node.key node
    refold node owner
  | _, _ => return

/-- Lists a key among the parents of the children of its node, if it has one. -/
def relistKey (key : Node ClassId) : ConcreteM Unit := do
  match (← get).store key with
  | some node => registerParent key node
  | none => return

/-- Brings the nodes above a class up to date and lists its own nodes again. -/
def repair (id : ClassId) : ConcreteM Unit := do
  let c ← get
  if id < c.classes.size then
    modify (·.modifyRecord id fun e => { e with parents := .empty })
    (c.record id).parents.toList.forM repairParent
    ((← get).record id).nodes.toList.forM relistKey

/-- Repairs the pending classes in at most `passes` rounds. -/
def rebuildPasses : (passes : Nat) → ConcreteM Unit
  | 0 => return
  | passes + 1 => do
    let todo := (← get).pending.toList
    if todo.isEmpty then return
    modify fun c => { c with pending := #[] }
    todo.forM fun id => do repair (← find id)
    rebuildPasses passes

/-- Repairs until no class is pending. -/
def rebuild : ConcreteM Unit := do
  rebuildPasses (2 * (← get).forest.size + 1)

/-! ## Patterns -/

/-- Adds a pattern under a substitution and returns a reference to its class. -/
def instantiate (s : Subst) : Pattern → ConcreteM Int
  | .var name =>
    match s.get? name with
    | some ref => return ref
    | none => throw (.unboundVariable name)
  | .literal value => Int.ofNat <$> add (.literal value)
  | .sign sign => Int.ofNat <$> add (.sign sign)
  | .symbol name => Int.ofNat <$> add (.symbol name)
  | .derived fn left right => do
    let left ← instantiate s left
    let right ← instantiate s right
    Int.ofNat <$> add (.derived fn left right)
  | .binary op w wa sa a wb sb b => do
    let w ← instantiate s w
    let wa ← instantiate s wa
    let sa ← instantiate s sa
    let a ← instantiate s a
    let wb ← instantiate s wb
    let sb ← instantiate s sb
    let b ← instantiate s b
    Int.ofNat <$> add (.binary op w wa sa a wb sb b)

/-- Adds a ground term. -/
def addGround (term : Pattern) : ConcreteM Int :=
  if term.vars.isEmpty then instantiate [] term else throw (.openTerm term.vars)

/-- The nodes of the class that a reference means, in order of insertion. -/
def nodesOf (ref : Int) : ConcreteM (List (Node ClassId)) := do
  let id ← find ref
  let c ← get
  ((c.record id).nodes.toList.filterMap c.store).mapM fun node =>
    canonicalize (node.map Int.ofNat)

/-- What is found for the members of a list, in order. -/
def gather {α β : Type} (l : List α) (f : α → ConcreteM (List β)) :
    ConcreteM (List β) := do
  return (← l.mapM f).flatten

mutual

/-- The extensions of `s` under which a pattern is represented in the class that a
reference means. -/
def matchPattern (p : Pattern) (ref : Int) (s : Subst) : ConcreteM (List Subst) := do
  let root ← find ref
  match _ : p with
  | .var name =>
    match s.get? name with
    | some bound => return if (← find bound) = root then [s] else []
    | none => return [s.set name root]
  | _ => gather (← nodesOf root) fun node => matchNode p node s
termination_by 9 * sizeOf p + 1

/-- The extensions of `s` under which a node represents a pattern that is no
variable. -/
def matchNode (p : Pattern) (node : Node ClassId) (s : Subst) :
    ConcreteM (List Subst) :=
  match p, node with
  | .literal value, .literal v => return if v.numEq value then [s] else []
  | .sign sign, .sign t => return if t = sign then [s] else []
  | .symbol name, .symbol n => return if n = name then [s] else []
  | .derived fn left right, .derived f l r =>
    if f = fn then matchChildren [(left, l), (right, r)] s else return []
  | .binary op w wa sa a wb sb b, .binary o w' wa' sa' a' wb' sb' b' =>
    if o = op then
      matchChildren [(w, w'), (wa, wa'), (sa, sa'), (a, a'), (wb, wb'),
        (sb, sb'), (b, b')] s
    else return []
  | _, _ => return []
termination_by 9 * sizeOf p

/-- The extensions of `s` under which patterns are represented in classes, one after
the other. -/
def matchChildren (pairs : List (Pattern × ClassId)) (s : Subst) :
    ConcreteM (List Subst) :=
  match pairs with
  | [] => return [s]
  | (p, id) :: rest => do gather (← matchPattern p id s) (matchChildren rest)
termination_by 9 * (pairs.map fun pair => sizeOf pair.1).sum + pairs.length + 1

end

/-- The numbers that stand for a class, in the order in which a member first
appears. -/
def classIds : ConcreteM (List ClassId) := do
  return (← (List.range (← get).classes.size).mapM fun (id : ClassId) =>
    find id).eraseDups

/-- The number of classes. -/
def size : ConcreteM Nat := List.length <$> classIds

/-- Every class that represents a pattern, with all substitutions. -/
def search (p : Pattern) : ConcreteM (List Found) := do
  let found ← (← classIds).mapM fun (id : ClassId) => do
    return ⟨id, ← matchPattern p id []⟩
  return found.filter fun found => !found.substs.isEmpty

/-! ## More to read -/

/-- The record of the class that a reference means, with the number that stands for
it. -/
def classOf (ref : Int) : ConcreteM (ClassId × EClass) := do
  let id ← find ref
  return (id, (← get).record id)

/-- The class that holds a node, if one does. -/
def lookup (node : Node Int) : ConcreteM (Option ClassId) := do
  let node ← canonicalize node
  match (← get).hashcons node.key with
  | some id => some <$> find id
  | none => return none

/-- The line of the class `id`, with the nodes of its keys, or with a key that no
node is stored under. -/
def classLine (c : Concrete) (id : ClassId) : String :=
  let constant := match (c.record id).constant with
    | some value => " \x7b" ++ value.toText ++ "\x7d"
    | none => ""
  let text (key : Node ClassId) := match c.store key with
    | some node => node.toText
    | none => key.keyText
  s!"  [{id}]" ++ constant ++ ": " ++
    " = ".intercalate ((c.record id).nodes.toList.map text)

/-- The lines that describe a graph. -/
def lines : ConcreteM (List String) := do
  let ids ← classIds
  let c ← get
  return "E-Graph:" :: ids.map c.classLine

/-- The constants of those of the given variables that are bound to classes with a
constant. -/
def valuationOf (s : Subst) : List String → ConcreteM Valuation
  | [] => return []
  | name :: rest => do
    let value ← match s.get? name with
      | some ref => constantAt ref
      | none => pure none
    let others ← valuationOf s rest
    match value with
    | some v => return (name, v) :: others
    | none => return others

/-- The constants of the given variables, unless one is unbound or its class has no
constant. -/
def constantsOf (s : Subst) : List String → ConcreteM (Option (List Binary64))
  | [] => return some []
  | name :: rest =>
    match s.get? name with
    | none => return none
    | some ref => do
      match ← constantAt ref with
      | none => return none
      | some value => return (← constantsOf s rest).map (value :: ·)

/-- Whether an equation may be applied under a substitution. -/
def guard (eqn : Equation) (s : Subst) : ConcreteM Bool := do
  match eqn.condition with
  | none => return true
  | some c =>
    match ← constantsOf s c.vars with
    | some values => return c.check values
    | none => return false

/-- The match of a rule at a class under a substitution. -/
def matchAt (r : Rule) (ref : Int) (s : Subst) : ConcreteM Rule.Match := do
  let constants ← valuationOf s r.lhs.vars
  return ⟨ref, constants, r.holdsOn constants⟩

/-- The instances of a rule's left side, in the order of the search. -/
def matchesIn (r : Rule) : ConcreteM (List Rule.Match) := do
  ((← search r.lhs).flatMap fun found => found.substs.map (found.id, ·)).mapM
    fun (id, s) => matchAt r id s

/-! ## Equations -/

/-- The applications of some equations whose guard holds, equation by equation. -/
def applications (equations : List Equation) : ConcreteM (List Application) :=
  gather equations fun eqn => do
    gather ((← search eqn.lhs).flatMap fun found => found.substs.map fun s =>
      ⟨eqn, found.id, s⟩) fun app => do
    return if ← guard eqn app.subst then [app] else []

/-- Applies one equation, and says whether it united two classes. -/
def applyAt (app : Application) : ConcreteM Bool := do
  let right ← instantiate app.subst app.equation.rhs
  let l ← find app.id
  let r ← find right
  if l = r then return false
  let _ ← merge l r
  return true

/-- Applies equations one after the other and counts the unions. -/
def applyEach (apps : List Application) : ConcreteM Nat :=
  apps.foldlM (fun unions app => do return if ← applyAt app then unions + 1
    else unions) 0

/-- Applies equations, repairs the graph, and returns the number of unions. -/
def applyAll (apps : List Application) : ConcreteM Nat := do
  let unions ← applyEach apps
  rebuild
  return unions

/-- Applies one equation wherever it matches, and returns the number of unions. -/
def applyOnce (eqn : Equation) : ConcreteM Nat := do
  rebuild
  applyAll (← applications [eqn])

/-- Makes at most `rounds` more rounds. -/
def saturateRounds (equations : List Equation) (o : Options) :
    (rounds : Nat) → Progress → ConcreteM Progress
  | 0, p => return p
  | rounds + 1, p => do
    let classes ← size
    if o.classLimit < classes then return p.stopAtLimit o classes
    let apps ← applications equations
    let unions ← applyAll apps
    let p := p.countRound o apps.length unions (← size)
    if unions = 0 then return p.stopSaturated o
    saturateRounds equations o rounds p

/-- Repairs a graph and saturates it with equations. -/
def saturate (equations : List Equation) (o : Options) : ConcreteM Stats := do
  rebuild
  let p ← saturateRounds equations o o.roundLimit.toNat {}
  return { p with classes := ← size }

/-! ## Terms from text -/

/-- Runs a computation on the maps where text may be malformed too. -/
def loading {α : Type} (x : ConcreteM α) : EStateM LoadError Concrete α := fun c =>
  match x c with
  | .ok a c => .ok a c
  | .error e c => .error (.refused e) c

/-- Reads text where the graph may refuse terms too. -/
def reading {α : Type} (x : Except SyntaxError α) : EStateM LoadError Concrete α :=
  match x with
  | .ok a => pure a
  | .error e => throw (.malformed e)

/-- Adds the ground term with a given text. -/
def load (text : String) : EStateM LoadError Concrete Int := do
  loading (addGround (← reading (Pattern.parse text)))

/-- Adds the ground terms of a text, in order; none is added before all of them are
read. -/
def loadAll (text : String) : EStateM LoadError Concrete (List Int) := do
  (← reading (Pattern.parseAll text)).mapM fun term => loading (addGround term)

end Concrete

end Datapath

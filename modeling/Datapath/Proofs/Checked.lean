import Datapath.Proofs.Diagnostics

/-!
# Datapath.Proofs.Checked

The engine with all its checks.

A graph holds numbers of classes in many places, and the engine looks them up without
asking whether they have been issued. Here is the same engine with a check wherever a
number is looked up, and with a matcher that takes care of variables before it looks
at nodes, and refuses one that it meets at a node (`Fault.strayVariable`).

On a well-formed graph reading and searching fail no check (`search_eq`). That the
rest does what the unchecked engine does is shown in `Datapath.Proofs.Conflicts`.
-/

namespace Datapath

/-- Why a checked computation fails. -/
inductive Fault
  /-- The engine fails for the same reason, or a number has not been issued. -/
  | refused (error : GraphError)
  /-- A variable was to be matched with a node. -/
  | strayVariable (name : String)
  deriving DecidableEq

/-- Computations on a graph that check what they look up. -/
abbrev CheckedM := EStateM Fault EGraph

namespace Checked

/-! ## Reading a graph -/

/-- The number that stands for the class that a reference means. -/
def find (g : EGraph) (ref : Int) : Except Fault ClassId :=
  (g.find ref).mapError .refused

/-- The record of a class number. -/
def record (g : EGraph) (id : ClassId) : Except Fault EClass :=
  if id < g.classes.size then .ok (g.record id) else
    .error (.refused (.unknownClass id))

/-- A node with its children replaced by the numbers that stand for their classes. -/
def canonical (g : EGraph) (node : Node ClassId) : Except Fault (Node ClassId) :=
  (node.map Int.ofNat).mapExcept (find g)

/-- The constant of the class of `id`. -/
def constant? (g : EGraph) (id : ClassId) : Except Fault (Option Binary64) := do
  return (← record g (← find g id)).constant

/-- The width that a node computes from its children, if it computes one and both are
known. -/
def foldDerived? (g : EGraph) : Node ClassId → Except Fault (Option Binary64)
  | .derived fn left right => do
    match ← constant? g left, ← constant? g right with
    | some a, some b => return some (fn.eval a b)
    | _, _ => return none
  | _ => return none

/-- The nodes that the record of a class number lists, as far as they are stored. -/
def listed (g : EGraph) (id : ClassId) : Except Fault (List (Node ClassId)) := do
  ((← record g id).nodes.toList.filterMap g.table.get?).mapM fun entry =>
    canonical g entry.node

/-- The nodes of the class of `id`, in order of insertion. -/
def nodes (g : EGraph) (id : ClassId) : Except Fault (List (Node ClassId)) := do
  listed g (← find g id)

/-! ## Matching -/

/-- What is found for the members of a list, in order. -/
def gather {α β : Type} (l : List α) (f : α → Except Fault (List β)) :
    Except Fault (List β) := do
  return (← l.mapM f).flatten

mutual

/-- The extensions of `s` under which a pattern is represented in the class of
`id`. -/
def matchPattern (g : EGraph) (p : Pattern) (id : ClassId) (s : Subst) :
    Except Fault (List Subst) := do
  let root ← find g id
  match _ : p with
  | .var name =>
    match s.get? name with
    | some bound => return if (← find g bound) = root then [s] else []
    | none => return [s.set name root]
  | _ => gather (← nodes g root) fun node => matchNode g p node s
termination_by 9 * sizeOf p + 1

/-- The extensions of `s` under which a node represents a pattern that is no
variable. -/
def matchNode (g : EGraph) (p : Pattern) (node : Node ClassId) (s : Subst) :
    Except Fault (List Subst) :=
  match p, node with
  | .var name, _ => .error (.strayVariable name)
  | .literal value, .literal v => return if v.numEq value then [s] else []
  | .sign sign, .sign t => return if t = sign then [s] else []
  | .symbol name, .symbol n => return if n = name then [s] else []
  | .derived fn left right, .derived f l r =>
    if f = fn then matchChildren g [(left, l), (right, r)] s else return []
  | .binary op w wa sa a wb sb b, .binary o w' wa' sa' a' wb' sb' b' =>
    if o = op then
      matchChildren g [(w, w'), (wa, wa'), (sa, sa'), (a, a'), (wb, wb'),
        (sb, sb'), (b, b')] s
    else return []
  | _, _ => return []
termination_by 9 * sizeOf p

/-- The extensions of `s` under which patterns are represented in classes, one after
the other. -/
def matchChildren (g : EGraph) (pairs : List (Pattern × ClassId)) (s : Subst) :
    Except Fault (List Subst) :=
  match pairs with
  | [] => return [s]
  | (p, id) :: rest => do gather (← matchPattern g p id s) (matchChildren g rest)
termination_by 9 * (pairs.map fun pair => sizeOf pair.1).sum + pairs.length + 1

end

/-- Every class that represents a pattern, with all substitutions. -/
def search (g : EGraph) (p : Pattern) : Except Fault (List Found) := do
  let found ← g.classIds.mapM fun id => do return ⟨id, ← matchPattern g p id []⟩
  return found.filter fun found => !found.substs.isEmpty

/-! ## Changing a graph -/

/-- Reads an answer off the current graph. -/
def ask {α : Type} (answer : EGraph → Except Fault α) : CheckedM α := fun g =>
  match answer g with
  | .ok a => .ok a g
  | .error e => .error e g

/-- Unites the classes of two numbers. -/
def unite (a b : ClassId) : CheckedM ClassId := do
  let r ← ask (find · a)
  let s ← ask (find · b)
  if r = s then return r
  let _ ← ask (record · r)
  let _ ← ask (record · s)
  let g ← get
  let (winner, loser) := g.sets.order r s
  match g.conflict? winner loser with
  | some (existing, incoming) =>
      throw (.refused (.constantConflict winner existing incoming))
  | none => do
    set (g.absorb winner loser)
    return winner

/-- The class of a node, issued if there is none. -/
def enter (node : Node ClassId) : CheckedM ClassId := do
  let g ← get
  match g.table.get? node.key with
  | some entry => ask (find · entry.owner)
  | none =>
    let _ ← ask (foldDerived? · node)
    let _ ← ask (canonical · node)
    set (g.issue node)
    return g.issued

/-- Unites the class of `id` with the class of the literal `value`. -/
def equate (value : Binary64) (id : ClassId) : CheckedM ClassId := do
  unite (← enter (.literal value)) id

/-- Adds a node, and equates it with its value if it is new and computes a width that
is known. -/
def intern (node : Node ClassId) : CheckedM ClassId := do
  let value ← ask (foldDerived? · node)
  match (← get).table.get? node.key, value with
  | none, some value => do equate value (← enter node)
  | _, _ => enter node

/-- Adds a node whose children are references. -/
def add (node : Node Int) : CheckedM ClassId := do
  intern (← ask fun g => node.mapExcept (find g))

/-- Stores `node` in the class `owner` in place of a stored node. -/
def rekey (entry : Entry) (node : Node ClassId) (owner : ClassId) :
    CheckedM Unit := do
  let g ← get
  match g.congruent? entry node with
  | some congruent =>
    let _ ← ask (record · owner)
    set (g.dropKey entry.key owner)
    discard (unite owner congruent.owner)
  | none => set (g.restore entry node owner)

/-- Equates the class of `owner` with the width that its node computes, if that is
known. -/
def refold (node : Node ClassId) (owner : ClassId) : CheckedM Unit := do
  match ← ask (foldDerived? · node) with
  | some value => discard (equate value owner)
  | none => return

/-- Brings the node stored under `key` up to date. -/
def repairParent (key : Node ClassId) : CheckedM Unit := do
  match (← get).table.get? key with
  | none => return
  | some entry =>
    let owner ← ask (find · entry.owner)
    let node ← ask (canonical · entry.node)
    rekey entry node owner
    let _ ← ask (canonical · node)
    modify (·.enlist node.key)
    refold node owner

/-- Repairs the class of a root. -/
def repair (id : ClassId) : CheckedM Unit := do
  let parents := ((← get).record id).parents
  let intact := (← get).intact
  modify fun g =>
    { g.modifyRecord id fun c => { c with parents := .empty } with intact := false }
  parents.toList.forM repairParent
  let _ ← ask (listed · id)
  modify fun g => if intact then { g with intact := true } else g.relist id

/-- Repairs the pending classes in at most `passes` rounds. -/
def rebuildPasses : (passes : Nat) → CheckedM Unit
  | 0 => return
  | passes + 1 => do
    let todo := (← get).pending.toList
    if todo.isEmpty then return
    modify fun g => { g with pending := #[] }
    todo.forM fun id => do repair (← ask (find · id))
    rebuildPasses passes

/-- Repairs the graph until no class is pending. -/
def rebuild : CheckedM Unit := do
  rebuildPasses (2 * (← get).issued + 1)

/-- Adds a pattern under a substitution and returns a reference to its class. -/
def instantiate (s : Subst) : Pattern → CheckedM Int
  | .var name =>
    match s.get? name with
    | some ref => return ref
    | none => throw (.refused (.unboundVariable name))
  | .literal value => Int.ofNat <$> add (.literal value)
  | .sign sign => Int.ofNat <$> add (.sign sign)
  | .symbol name => Int.ofNat <$> add (.symbol name)
  | .derived fn left right => do
    let left ← instantiate s left
    let right ← instantiate s right
    Int.ofNat <$> add (.derived fn left right)
  | .binary op w wa sa a wb sb b => do
    let w ← instantiate s w
    let wa ← instantiate s wa
    let sa ← instantiate s sa
    let a ← instantiate s a
    let wb ← instantiate s wb
    let sb ← instantiate s sb
    let b ← instantiate s b
    Int.ofNat <$> add (.binary op w wa sa a wb sb b)

/-- The applications of some equations whose guard holds, equation by equation. -/
def applications (g : EGraph) (equations : List Equation) :
    Except Fault (List Application) := do
  let candidates ← gather equations fun eqn => do
    return (← search g eqn.lhs).flatMap fun found => found.substs.map fun s =>
      ⟨eqn, found.id, s⟩
  candidates.filterM fun app => (app.equation.guard g app.subst).mapError .refused

/-- Applies one equation, and says whether it united two classes. -/
def applyAt (app : Application) : CheckedM Bool := do
  let right ← instantiate app.subst app.equation.rhs
  let l ← ask (find · app.id)
  let r ← ask (find · right)
  if l = r then return false
  let _ ← unite l r
  return true

/-- Applies equations one after the other and counts the unions. -/
def applyEach (apps : List Application) : CheckedM Nat :=
  apps.foldlM (fun unions app => do return if ← applyAt app then unions + 1
    else unions) 0

/-- Applies equations, repairs the graph, and returns the number of unions. -/
def applyAll (apps : List Application) : CheckedM Nat := do
  let unions ← applyEach apps
  rebuild
  return unions

/-- Applies one equation wherever it matches, and returns the number of unions. -/
def applyOnce (eqn : Equation) : CheckedM Nat := do
  rebuild
  applyAll (← ask (applications · [eqn]))

/-- Makes at most `rounds` more rounds. -/
def saturateRounds (equations : List Equation) (o : Options) :
    (rounds : Nat) → Progress → CheckedM Progress
  | 0, p => return p
  | rounds + 1, p => do
    let classes := (← get).size
    if o.classLimit < classes then return p.stopAtLimit o classes
    let apps ← ask (applications · equations)
    let unions ← applyAll apps
    let p := p.countRound o apps.length unions (← get).size
    if unions = 0 then return p.stopSaturated o
    saturateRounds equations o rounds p

/-- Repairs a graph and saturates it with equations. -/
def saturate (equations : List Equation) (o : Options) : CheckedM Stats := do
  rebuild
  let p ← saturateRounds equations o o.roundLimit.toNat {}
  return { p with classes := (← get).size }

/-! ## No check fails -/

variable {g : EGraph} {id : ClassId} {node : Node ClassId} {s s' : Subst}
  {p : Pattern} {ref : Int}

/-- A reference to an issued number passes the check. -/
theorem find_eq (h : g.Issued ref) : find g ref = .ok (g.root ref.toNat) := by
  rw [find, EGraph.find_of_issued h]
  rfl

theorem find_natCast (hid : id < g.issued) : find g id = .ok (g.root id) := by
  rw [find, Datapath.find_natCast hid]
  rfl

theorem record_eq (hw : g.WellFormed) (hid : id < g.issued) :
    record g id = .ok (g.record id) := by
  rw [record, if_pos (by rwa [hw.classes_size])]

/-- The children of a node are looked up one by one, and all of them pass. -/
theorem canonical_eq (hc : ∀ c ∈ node.children, c < g.issued) :
    canonical g node = .ok (g.canonical node) := by
  have hrefs : ∀ ref ∈ (node.map Int.ofNat).children,
      find g ref = .ok (g.root ref.toNat) := by
    intro ref href
    rw [Node.children_map] at href
    obtain ⟨c, hmem, rfl⟩ := List.mem_map.1 href
    exact find_natCast (hc c hmem)
  rw [canonical, Node.mapExcept_eq_ok hrefs, Node.map_map, EGraph.canonical]
  rfl

theorem constant?_eq (hw : g.WellFormed) (hid : id < g.issued) :
    constant? g id = .ok (g.constant? id) := by
  rw [constant?, find_natCast hid]
  show (do return (← record g (g.root id)).constant) = _
  rw [record_eq hw (hw.root_lt hid)]
  rfl

/-- The computed width of a node is read off the constants of its children. -/
theorem foldDerived?_eq (hw : g.WellFormed)
    (hc : ∀ c ∈ node.children, c < g.issued) :
    foldDerived? g node = .ok (g.foldDerived? node) := by
  cases node with
  | literal | sign | symbol | binary => rfl
  | derived fn l r =>
      rw [foldDerived?, constant?_eq hw (hc l (by simp [Node.children])),
        constant?_eq hw (hc r (by simp [Node.children]))]
      simp only [EGraph.foldDerived?, EGraph.fold]
      cases g.constant? l <;> cases g.constant? r <;> rfl

/-- The nodes in a record that are stored have issued numbers as children. -/
theorem listed_eq (hw : g.WellFormed) (hid : id < g.issued) :
    listed g id = .ok (((g.record id).nodes.toList.filterMap g.table.get?).map
      fun entry => g.canonical entry.node) := by
  have hstored : ∀ entry ∈ (g.record id).nodes.toList.filterMap g.table.get?,
      canonical g entry.node = .ok (g.canonical entry.node) := by
    intro entry hmem
    obtain ⟨key, -, hkey⟩ := List.mem_filterMap.1 hmem
    refine canonical_eq fun c hc => hw.child_lt hkey c ?_
    rwa [← EGraph.WellFormed.key_eq hkey, Entry.key, Node.children_key]
  rw [listed, record_eq hw hid]
  exact mapM_eq_ok hstored

theorem nodes_eq (hw : g.WellFormed) (hid : id < g.issued) :
    nodes g id = .ok (g.nodes id) := by
  rw [nodes, find_natCast hid]
  refine (listed_eq hw (hw.root_lt hid)).trans ?_
  rw [EGraph.nodes, List.map_filterMap]

/-- A search in which no member of the list fails finds what the plain search
does. -/
theorem gather_eq {α β : Type} {l : List α} {f : α → Except Fault (List β)}
    {d : α → List β} (h : ∀ a ∈ l, f a = .ok (d a)) :
    gather l f = .ok (l.flatMap d) := by
  rw [gather, mapM_eq_ok h, List.flatMap_def]
  rfl

/-- Every variable that is bound stands for a class. -/
def Rooted (g : EGraph) (s : Subst) : Prop :=
  ∀ name ref, s.get? name = some ref → ∃ k ∈ g.classIds, ref = (k : Int)

/-- The matcher, without its checks, keeps to substitutions by classes. -/
structure Matches (g : EGraph) (p : Pattern) : Prop where
  eq : ∀ {id s}, id < g.issued → Rooted g s →
    matchPattern g p id s = .ok (g.matchIn p id s)
  rooted : ∀ {id s s'}, id < g.issued → Rooted g s →
    s' ∈ g.matchIn p id s → Rooted g s'

/-- Patterns that are matched one after the other keep to substitutions by classes
from each to the next, which is what the matcher of the next one needs. -/
theorem matchChildren_eq {pairs : List (Pattern × ClassId)}
    (hpairs : ∀ q ∈ pairs, Matches g q.1 ∧ q.2 < g.issued) (hs : Rooted g s) :
    matchChildren g pairs s = .ok (g.matchAll pairs s) ∧ ∀ s' ∈ g.matchAll pairs s,
      Rooted g s' := by
  induction pairs generalizing s with
  | nil =>
      rw [matchChildren, EGraph.matchAll]
      exact ⟨rfl, fun s' h => List.mem_singleton.1 h ▸ hs⟩
  | cons q rest ih =>
      obtain ⟨⟨hq, hlt⟩, hrest⟩ := List.forall_mem_cons.1 hpairs
      rw [matchChildren, hq.eq hlt hs, EGraph.matchAll]
      have hfirst : ∀ t ∈ g.matchIn q.1 q.2 s, Rooted g t :=
        fun t ht => hq.rooted hlt hs ht
      refine ⟨gather_eq fun t ht => (ih hrest (hfirst t ht)).1, fun s' h => ?_⟩
      obtain ⟨t, ht, hs'⟩ := List.mem_flatMap.1 h
      exact (ih hrest (hfirst t ht)).2 s' hs'

/-- For a variable the checked matcher looks at what it is bound to. -/
theorem matchPattern_var (g : EGraph) (name : String) (id : ClassId) (s : Subst) :
    matchPattern g (.var name) id s = (do
      let root ← find g id
      match s.get? name with
      | some bound => return if (← find g bound) = root then [s] else []
      | none => return [s.set name root]) := by
  rw [matchPattern]

theorem matchPattern_ofNode (g : EGraph) (n : Node Pattern) (id : ClassId)
    (s : Subst) : matchPattern g (.ofNode n) id s = (do
      let root ← find g id
      gather (← nodes g root) fun node => matchNode g (.ofNode n) node s) := by
  cases n <;> rw [Pattern.ofNode, matchPattern]

/-- A layer that is no number matches the nodes with the same head whose children
match its slots. The matcher treats every layer in a branch of its own; here is the
one statement that all of them come to. -/
theorem matchNode_ofNode (g : EGraph) {n : Node Pattern} (hn : ∀ v, n ≠ .literal v)
    (node : Node ClassId) (s : Subst) : matchNode g (.ofNode n) node s =
      if n.key.map (fun _ => ()) = node.key.map (fun _ => ()) then
        matchChildren g (n.children.zip node.children) s
      else .ok [] := by
  cases n with
  | literal v => exact absurd rfl (hn v)
  | sign t =>
      cases node with
      | sign t' =>
          simp only [Pattern.ofNode, matchNode, Node.key, Node.map, Node.children,
            List.zip_nil_left, matchChildren, Node.sign.injEq, eq_comm (a := t)]
          split <;> rfl
      | literal | symbol | derived | binary =>
          simp [Pattern.ofNode, matchNode, Node.key, Node.map]; rfl
  | symbol x =>
      cases node with
      | symbol x' =>
          simp only [Pattern.ofNode, matchNode, Node.key, Node.map, Node.children,
            List.zip_nil_left, matchChildren, Node.symbol.injEq, eq_comm (a := x)]
          split <;> rfl
      | literal | sign | derived | binary =>
          simp [Pattern.ofNode, matchNode, Node.key, Node.map]; rfl
  | derived fn l r =>
      cases node with
      | derived =>
          simp [Pattern.ofNode, matchNode, Node.key, Node.map, Node.children,
            eq_comm (a := fn)]; rfl
      | literal | sign | symbol | binary =>
          simp [Pattern.ofNode, matchNode, Node.key, Node.map]; rfl
  | binary op w wa sa a wb sb b =>
      cases node with
      | binary =>
          simp [Pattern.ofNode, matchNode, Node.key, Node.map, Node.children,
            eq_comm (a := op)]; rfl
      | literal | sign | symbol | derived =>
          simp [Pattern.ofNode, matchNode, Node.key, Node.map]; rfl

/-- A variable that is bound before is compared with the class, and one that is not
gets it. Either way it stands for a class afterwards. -/
theorem matches_var (hw : g.WellFormed) (name : String) : Matches g (.var name) where
  eq {id s} hid hs := by
    rw [matchPattern_var, find_natCast hid, EGraph.matchIn, EGraph.bindVar]
    cases hget : s.get? name with
    | none => rfl
    | some bound =>
        -- the number is its own root, so comparing it with the class compares the
        -- classes
        obtain ⟨k, hk, rfl⟩ := hs name bound hget
        obtain ⟨hlt, hroot⟩ := (EGraph.mem_classIds hw).1 hk
        show (do return if (← find g k) = g.root id then [s] else []) = _
        rw [find_natCast hlt, hroot]
        simp only [Nat.cast_inj]
        rfl
  rooted {id s s'} hid hs h := by
    rw [EGraph.matchIn, EGraph.bindVar] at h
    cases hget : s.get? name with
    | some bound =>
        rw [hget] at h
        dsimp only at h
        split at h
        · exact List.mem_singleton.1 h ▸ hs
        · exact absurd h List.not_mem_nil
    | none =>
        rw [hget] at h
        obtain rfl := List.mem_singleton.1 h
        intro n ref hn
        rw [Bindings.get?_set] at hn
        split at hn
        · exact ⟨g.root id, hw.root_mem_classIds hid, (Option.some.inj hn).symm⟩
        · exact hs n ref hn

/-- A pattern that is no variable is matched with the nodes of the class. So it is
enough to know what the two matchers do at one node whose children have been
issued. -/
theorem Matches.of_nodes (hw : g.WellFormed) {n : Node Pattern}
    {f : Node ClassId → Subst → List Subst}
    (hplain : ∀ id s, g.matchIn (.ofNode n) id s = (g.nodes id).flatMap (f · s))
    (hnode : ∀ {node s}, (∀ c ∈ node.children, c < g.issued) → Rooted g s →
      matchNode g (.ofNode n) node s = .ok (f node s) ∧ ∀ s' ∈ f node s,
        Rooted g s') :
    Matches g (.ofNode n) where
  eq {id s} hid hs := by
    rw [matchPattern_ofNode, hplain, find_natCast hid]
    show (do gather (← nodes g (g.root id)) fun node =>
        matchNode g (.ofNode n) node s) = _
    rw [nodes_eq hw (hw.root_lt hid), EGraph.nodes, hw.root_root]
    exact gather_eq fun node hmem =>
      (hnode (EGraph.represents_of_mem_nodes hw hmem).2 hs).1
  rooted {id s s'} hid hs h := by
    rw [hplain] at h
    obtain ⟨node, hmem, hs'⟩ := List.mem_flatMap.1 h
    exact (hnode (EGraph.represents_of_mem_nodes hw hmem).2 hs).2 s' hs'

/-- On a well-formed graph the checked matcher finds what the matcher finds. By
induction on the pattern, with numbers as the one kind of layer that is not compared
by its head. -/
theorem matches_pattern (hw : g.WellFormed) (p : Pattern) : Matches g p := by
  induction p using Pattern.layers with
  | var name => exact matches_var hw name
  | node n ih =>
      by_cases hn : ∀ v, n ≠ .literal v
      · refine .of_nodes hw
          (fun id s => EGraph.matchIn_ofNode g
            (fun v hv => absurd hv (hn v)) id s) ?_
        intro node s hc hs
        rw [matchNode_ofNode g hn]
        split
        · refine matchChildren_eq (fun q hq => ?_) hs
          obtain ⟨hslot, hchild⟩ := List.of_mem_zip hq
          exact ⟨ih q.1 hslot, hc q.2 hchild⟩
        · exact ⟨rfl, fun s' h => absurd h List.not_mem_nil⟩
      · -- a number, which may be one that equals nothing
        push Not at hn
        obtain ⟨v, rfl⟩ := hn
        refine .of_nodes hw (fun id s => rfl) ?_
        intro node s _ hs
        cases node with
        | literal u =>
            dsimp only
            refine ⟨by rw [Pattern.ofNode, matchNode]; rfl, fun s' h => ?_⟩
            split at h
            · exact List.mem_singleton.1 h ▸ hs
            · exact absurd h List.not_mem_nil
        | sign | symbol | derived | binary =>
            exact ⟨by simp [Pattern.ofNode, matchNode]; rfl, fun s' h =>
              absurd h List.not_mem_nil⟩

/-- On a well-formed graph a search fails nowhere. -/
theorem search_eq (hw : g.WellFormed) (p : Pattern) :
    search g p = .ok (g.search p) := by
  have hat : ∀ id ∈ g.classIds,
      (do return ⟨id, ← matchPattern g p id []⟩ : Except Fault Found) =
      .ok ⟨id, g.matchIn p id []⟩ := by
    intro id hid
    rw [(matches_pattern hw p).eq ((EGraph.mem_classIds hw).1 hid).1
      (fun _ _ h => by cases h)]
    rfl
  rw [search, mapM_eq_ok hat]
  rfl

end Checked

end Datapath

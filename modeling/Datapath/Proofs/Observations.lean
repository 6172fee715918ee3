import Datapath.Proofs.Checked
import Datapath.Proofs.Refinement

/-!
# Datapath.Proofs.Observations

Reading the maps.

Every call that only reads answers on the maps what it answers on the graph, and
leaves the maps as they are but for pointers (`Reads`). Searching is reading: a
substitution binds variables to roots, the nodes of a class have children that have
been issued, so no look-up on the way fails.
-/

namespace Datapath.Concrete

variable {α β γ : Type} {c : Concrete} {g : EGraph} {f : UnionFind} {id : ClassId}
  {node : Node ClassId} {s : Subst} {p : Pattern} {ref : Int} {eqn : Equation}

/-! ## Parts of a reading -/

namespace Reads

theorem get {k : Concrete → ConcreteM α} {r : Except GraphError α}
    (h : Reads (k c) c r) : Reads (MonadState.get >>= k) c r :=
  h

theorem map {x : ConcreteM α} {r : Except GraphError α} (k : α → β)
    (h : Reads x c r) : Reads (k <$> x) c (k <$> r) := by
  rw [map_eq_pure_bind, map_eq_pure_bind]
  exact h.bind fun _ _ _ hf => .pure hf.ranked _

theorem mapM_ok {k : γ → ConcreteM β} {d : γ → β} {l : List γ} (h : c.forest.Ranked)
    (hk : ∀ a ∈ l, ∀ f : UnionFind, f.Alike c.forest →
      Reads (k a) { c with forest := f } (.ok (d a))) :
    Reads (l.mapM k) c (.ok (l.map d)) := by
  rw [← mapM_eq_ok fun a _ => rfl (a := Except.ok (d a))]
  exact .mapM h hk

theorem gather {k : γ → ConcreteM (List β)} {d : γ → List β} {l : List γ}
    (h : c.forest.Ranked)
    (hk : ∀ a ∈ l, ∀ f : UnionFind, f.Alike c.forest →
      Reads (k a) { c with forest := f } (.ok (d a))) :
    Reads (gather l k) c (.ok (l.flatMap d)) := by
  rw [List.flatMap_def]
  exact (mapM_ok h hk).after fun f hf => .pure hf.ranked _

end Reads

theorem Models.ranked (h : Models c g) : c.forest.Ranked := h.forest.ranked

/-! ## Classes -/

/-- The nodes of a class are read as in the graph: the look-up of the class finds its
root, and the canonical forms of the nodes that are listed there do not fail, as
their children have been issued. -/
theorem reads_nodesOf (h : Models c g) (ref : Int) :
    Reads (nodesOf ref) c (g.nodesOf ref) := by
  refine (h.find ref).bind fun id f hid hf => .get ?_
  have hm := h.look hf
  obtain ⟨-, -, hroot⟩ := EGraph.find_inv hid
  have hstored :
      (({ c with forest := f } : Concrete).record id).nodes.toList.filterMap c.store =
        ((g.record id).nodes.toList.filterMap g.table.get?).map Entry.node := by
    rw [hm.record, List.map_filterMap, funext h.store]
  -- the graph reads the entries of the root, the maps the nodes stored under its
  -- keys
  have hnodes : g.nodes id =
      (((g.record id).nodes.toList.filterMap g.table.get?).map Entry.node).map
        g.canonical := by
    rw [EGraph.nodes, hroot, h.wellFormed.root_root, List.map_map,
      List.map_filterMap]
    rfl
  rw [hnodes, ← hstored]
  refine .mapM_ok hf.ranked fun node hnode f' hf' =>
    (hm.look hf').canonicalize_ofNat fun d hd => ?_
  rw [hstored] at hnode
  obtain ⟨e, he, rfl⟩ := List.mem_map.1 hnode
  obtain ⟨key, -, hkey⟩ := List.mem_filterMap.1 he
  refine h.wellFormed.child_lt hkey d ?_
  rwa [← EGraph.WellFormed.key_eq hkey, Entry.key, Node.children_key]

theorem reads_classIds (h : Models c g) : Reads classIds c (.ok g.classIds) := by
  rw [EGraph.classIds, UnionFind.roots_eq_eraseDups]
  refine .get (.after (a := (List.range g.issued).map g.root) ?_ fun f hf =>
    .pure hf.ranked _)
  rw [h.classes, h.wellFormed.classes_size]
  exact .mapM_ok h.ranked fun id hid f hf =>
    (h.look hf).find_natCast (List.mem_range.1 hid)

theorem reads_size (h : Models c g) : Reads size c (.ok g.size) :=
  (reads_classIds h).map List.length

theorem reads_classOf (h : Models c g) (ref : Int) :
    Reads (classOf ref) c (g.classOf ref) := by
  refine (h.find ref).bind fun id f _ hf => .get ?_
  rw [(h.look hf).record]
  exact .pure hf.ranked _

/-- A node is looked up under its canonical key, which has the same owner on the
maps. -/
theorem reads_lookup (h : Models c g) (node : Node Int) :
    Reads (lookup node) c (g.lookup node) := by
  refine (h.canonicalize node).bind fun node f _ hf => .get ?_
  have hm := h.look hf
  cases he : g.table.get? node.key with
  | none =>
      rw [hm.hashcons_none he]
      exact .pure hf.ranked _
  | some e =>
      rw [hm.hashcons_some he]
      exact (hm.find_natCast (h.wellFormed.owner_lt he)).map some

/-- A node is described like its key: minus zero is written without a sign. -/
theorem toText_key (node : Node ClassId) : node.key.toText = node.toText := by
  cases node with
  | sign | symbol | derived | binary => rfl
  | literal v =>
      rw [Node.key, Binary64.withoutMinusZero]
      split
      · next hv =>
        rw [hv]
        simp [Node.toText, Binary64.toText, Binary64.render, Binary64.zero]
      · rfl

/-- Every key that a class lists is described by the node stored under it. -/
theorem Models.classLine (h : Models c g) (hid : id ∈ g.classIds) :
    c.classLine id = g.classLine id := by
  have hroot := ((EGraph.mem_classIds h.wellFormed).1 hid).2
  unfold Concrete.classLine EGraph.classLine
  rw [h.record]
  dsimp only
  refine congrArg (_ ++ ": " ++ " = ".intercalate ·)
    (List.map_congr_left fun key hkey => ?_)
  obtain ⟨e, he, -⟩ := h.wellFormed.stored hroot hkey
  rw [h.store, he]
  dsimp only [Option.map_some]
  rw [← toText_key e.node, ← EGraph.WellFormed.key_eq he]
  rfl

theorem reads_lines (h : Models c g) : Reads lines c (.ok g.lines) := by
  refine (reads_classIds h).after fun f hf => .get ?_
  rw [EGraph.lines, ← List.map_congr_left fun id hid => (h.look hf).classLine hid]
  exact .pure hf.ranked _

/-! ## Matching -/

/-- A pattern is searched for on the maps as in the graph. -/
def Finds (g : EGraph) (p : Pattern) : Prop :=
  ∀ {c : Concrete} {id : ClassId} {ref : Int} {s : Subst}, Models c g →
    id < g.issued → g.find ref = .ok (g.root id) → Checked.Rooted g s →
    Reads (matchPattern p ref s) c (.ok (g.matchIn p id s))

theorem rooted_nil : Checked.Rooted g [] := fun _ _ h => nomatch h

theorem matchPattern_var (name : String) (ref : Int) (s : Subst) :
    matchPattern (.var name) ref s = (do
      let root ← find ref
      match s.get? name with
      | some bound => return if (← find bound) = root then [s] else []
      | none => return [s.set name root]) := by
  unfold matchPattern
  rfl

theorem matchPattern_ofNode (n : Node Pattern) (ref : Int) (s : Subst) :
    matchPattern (.ofNode n) ref s = (do
      let root ← find ref
      gather (← nodesOf root) fun node => matchNode (.ofNode n) node s) := by
  cases n <;> rw [Pattern.ofNode, matchPattern]

/-- A variable that is bound compares two look-ups, and one that is not succeeds. -/
theorem finds_var (name : String) : Finds g (.var name) := by
  intro c id ref s h hid href hs
  have hfind := h.find ref
  rw [href] at hfind
  rw [matchPattern_var, EGraph.matchIn, EGraph.bindVar]
  refine hfind.after fun f hf => ?_
  cases hget : s.get? name with
  | none => exact .pure hf.ranked _
  | some bound =>
      obtain ⟨k, hk, rfl⟩ := hs name bound hget
      obtain ⟨hlt, hroot⟩ := (EGraph.mem_classIds h.wellFormed).1 hk
      have hbound := (h.look hf).find_natCast hlt
      rw [hroot] at hbound
      refine hbound.after fun f' hf' => ?_
      simp only [Nat.cast_inj]
      exact .pure hf'.ranked _

/-- The children of a node are matched one after the other, from the left, each under
every substitution that the ones before it have left. -/
theorem reads_matchChildren {pairs : List (Pattern × ClassId)} (h : Models c g)
    (hpairs : ∀ q ∈ pairs, Finds g q.1 ∧ q.2 < g.issued) (hs : Checked.Rooted g s) :
    Reads (matchChildren pairs s) c (.ok (g.matchAll pairs s)) := by
  induction pairs generalizing c s with
  | nil =>
      rw [matchChildren, EGraph.matchAll]
      exact .pure h.ranked _
  | cons q rest ih =>
      obtain ⟨⟨hq, hlt⟩, hrest⟩ := List.forall_mem_cons.1 hpairs
      rw [matchChildren, EGraph.matchAll]
      refine (hq h hlt (Datapath.find_natCast hlt) hs).after fun f hf => ?_
      -- the matches so far bind variables to roots, and so do those that extend them
      refine .gather hf.ranked fun t ht f' hf' => ih ((h.look hf).look hf') hrest ?_
      exact (Checked.matches_pattern h.wellFormed q.1).rooted hlt hs ht

/-- A layer that is no number matches the nodes with the same head whose children
match its slots. -/
theorem matchNode_ofNode {n : Node Pattern} (hn : ∀ v, n ≠ .literal v)
    (node : Node ClassId) (s : Subst) : matchNode (.ofNode n) node s =
      if n.key.map (fun _ => ()) = node.key.map (fun _ => ()) then
        matchChildren (n.children.zip node.children) s
      else pure [] := by
  cases n with
  | literal v => exact absurd rfl (hn v)
  | sign | symbol | derived | binary =>
      cases node <;> simp [Pattern.ofNode, matchNode, matchChildren, Node.key,
        Node.map, Node.children, eq_comm, apply_ite (pure (f := ConcreteM))]

/-- A pattern that is no variable is matched with the nodes of the class. -/
theorem finds_of_nodes {n : Node Pattern} {d : Node ClassId → Subst → List Subst}
    (hplain : ∀ id s, g.matchIn (.ofNode n) id s = (g.nodes id).flatMap (d · s))
    (hnode : ∀ {c node s}, Models c g → (∀ x ∈ node.children, x < g.issued) →
      Checked.Rooted g s → Reads (matchNode (.ofNode n) node s) c (.ok (d node s))) :
    Finds g (.ofNode n) := by
  intro c id ref s h hid href hs
  have hfind := h.find ref
  rw [href] at hfind
  rw [matchPattern_ofNode, hplain]
  refine hfind.after fun f hf => ?_
  have hm := h.look hf
  have hnodes : g.nodesOf (g.root id) = .ok (g.nodes id) := by
    rw [EGraph.nodesOf, Datapath.find_natCast (h.wellFormed.root_lt hid),
      h.wellFormed.root_root]
    exact congrArg (fun r => Except.ok ((g.record r).nodes.toList.filterMap _))
      (h.wellFormed.root_root id)
  have hread := reads_nodesOf hm (g.root id)
  rw [hnodes] at hread
  refine hread.after fun f' hf' => .gather hf'.ranked fun node hmem f'' hf'' => ?_
  exact hnode ((hm.look hf').look hf'')
    (EGraph.represents_of_mem_nodes h.wellFormed hmem).2 hs

/-- Every pattern is searched for as in the graph, by induction on its layers. -/
theorem finds_pattern (p : Pattern) : Finds g p := by
  induction p using Pattern.layers with
  | var name => exact finds_var name
  | node n ih =>
      by_cases hn : ∀ v, n ≠ .literal v
      · refine finds_of_nodes
          (fun id s => EGraph.matchIn_ofNode g
            (fun v hv => absurd hv (hn v)) id s) ?_
        intro c node s h hc hs
        rw [matchNode_ofNode hn]
        split
        · refine reads_matchChildren h (fun q hq => ?_) hs
          obtain ⟨hslot, hchild⟩ := List.of_mem_zip hq
          exact ⟨ih q.1 hslot, hc q.2 hchild⟩
        · exact .pure h.ranked _
      · -- a number, which may be one that equals nothing
        push Not at hn
        obtain ⟨v, rfl⟩ := hn
        refine finds_of_nodes (fun id s => rfl) ?_
        intro c node s h _ _
        cases node <;> simp only [Pattern.ofNode, matchNode] <;>
          exact .pure h.ranked _

theorem reads_matchesAt (h : Models c g) (p : Pattern) (ref : Int) :
    Reads (matchPattern p ref []) c (g.matchesAt p ref) := by
  cases href : g.find ref with
  | ok id =>
      obtain ⟨-, hlt, rfl⟩ := EGraph.find_inv href
      rw [EGraph.matchesAt, href]
      refine finds_pattern p h (h.wellFormed.root_lt hlt) ?_ rooted_nil
      rw [h.wellFormed.root_root, href]
  -- an unknown class is refused by the first look-up, whatever the pattern is
  | error e =>
      have hfind := h.find ref
      rw [href] at hfind
      rw [EGraph.matchesAt, href]
      cases p using Pattern.layers with
      | var name =>
          rw [matchPattern_var]
          exact hfind.bind (q := fun _ => .error e) fun _ _ hok => by cases hok
      | node n =>
          rw [matchPattern_ofNode]
          exact hfind.bind (q := fun _ => .error e) fun _ _ hok => by cases hok

/-- A search on the maps finds what it finds in the graph, in the same order. -/
theorem reads_search (h : Models c g) (p : Pattern) :
    Reads (search p) c (.ok (g.search p)) := by
  refine (reads_classIds h).after fun f hf => ?_
  have hm := h.look hf
  refine .after (a := g.classIds.map fun id => ⟨id, g.matchIn p id []⟩) ?_
    fun f' hf' => .pure hf'.ranked _
  refine .mapM_ok hf.ranked fun id hid f' hf' => ?_
  have hlt := ((EGraph.mem_classIds h.wellFormed).1 hid).1
  have hmatch :=
    finds_pattern p (hm.look hf') hlt (Datapath.find_natCast hlt) rooted_nil
  exact hmatch.after fun f'' hf'' => .pure hf''.ranked _

/-! ## Constants and guards -/

/-- The constants that a guard is given are looked up one after the other, whether
known or not. -/
theorem reads_valuationOf (h : Models c g) (s : Subst) (names : List String) :
    Reads (valuationOf s names) c (g.valuationOf s names) := by
  induction names generalizing c with
  | nil => exact .pure h.ranked _
  | cons name rest ih =>
      unfold valuationOf EGraph.valuationOf
      cases s.get? name with
      | none => exact (ih h).bind fun others f _ hf => .pure hf.ranked _
      | some ref =>
          refine (h.constantAt ref).bind fun value f _ hf => ?_
          exact (ih (h.look hf)).bind fun others f' _ hf' => by
            cases value <;> exact .pure hf'.ranked _

theorem reads_constantsOf (h : Models c g) (s : Subst) (names : List String) :
    Reads (constantsOf s names) c (g.constantsOf s names) := by
  induction names generalizing c with
  | nil => exact .pure h.ranked _
  | cons name rest ih =>
      unfold constantsOf EGraph.constantsOf
      cases s.get? name with
      | none => exact .pure h.ranked _
      | some ref =>
          refine (h.constantAt ref).bind fun value f _ hf => ?_
          cases value with
          | none => exact .pure hf.ranked _
          | some v =>
              exact (ih (h.look hf)).bind fun _ f' _ hf' => .pure hf'.ranked _

/-- A guard is asked with the same constants on the maps as in the graph, and it
answers or fails alike. -/
theorem reads_guard (h : Models c g) (eqn : Equation) (s : Subst) :
    Reads (guard eqn s) c (eqn.guard g s) := by
  unfold guard Equation.guard
  cases eqn.condition with
  | none => exact .pure h.ranked _
  | some cond =>
      refine (reads_constantsOf h s cond.vars).bind fun values f _ hf => ?_
      cases values <;> exact .pure hf.ranked _

theorem reads_matchAt (h : Models c g) (r : Rule) (ref : Int) (s : Subst) :
    Reads (matchAt r ref s) c (r.matchAt g ref s) :=
  (reads_valuationOf h s r.lhs.vars).bind fun _ _ _ hf => .pure hf.ranked _

theorem reads_matchesIn (h : Models c g) (r : Rule) :
    Reads (matchesIn r) c (r.matchesIn g) :=
  (reads_search h r.lhs).after fun _ hf =>
    .mapM hf.ranked fun place _ _ hf' =>
      reads_matchAt ((h.look hf).look hf') r place.1 place.2

/-- No guard of an instance fails, so that it does not matter whether all instances
are collected before the first guard is asked. -/
theorem reads_applications (h : Models c g) (equations : List Equation) :
    Reads (applications equations) c (g.applications equations) := by
  rw [Rule.applications_eq h.wellFormed, List.filter_flatMap]
  refine .gather h.ranked fun eqn heqn f hf =>
    (reads_search (h.look hf) eqn.lhs).after fun f' hf' => ?_
  -- the maps put an instance into the list as soon as its guard has been asked
  have hkept (apps : List Application) : apps.filter (Rule.passes g) =
      apps.flatMap fun app => if Rule.passes g app then [app] else [] := by
    induction apps with
    | nil => rfl
    | cons app rest ih => cases hp : Rule.passes g app <;> simp [hp, ih]
  rw [hkept, EGraph.candidates]
  have hm := (h.look hf).look hf'
  refine .gather hf'.ranked fun app happ _ hf₁ => ?_
  have hguard := reads_guard (hm.look hf₁) app.equation app.subst
  rw [Rule.guard_of_mem_candidates h.wellFormed
    (List.mem_flatMap.2 ⟨eqn, heqn, happ⟩)] at hguard
  obtain ⟨found, -, hmem⟩ := List.mem_flatMap.1 happ
  obtain ⟨s, -, rfl⟩ := List.mem_map.1 hmem
  exact hguard.after fun _ hf₂ => .pure hf₂.ranked _

end Datapath.Concrete

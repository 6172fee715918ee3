import Datapath.Proofs.Passes
import Datapath.Proofs.Upkeep

/-!
# Datapath.Proofs.Canonical

The shape of a graph after a rebuild.

`Operation` lists what a caller can do to a graph and `Reached` the graphs that come
of it without an error. Every one of them is well formed, tidy and without empty
classes. A rebuild leaves nothing pending, and in a tidy graph with nothing pending
nothing is stale: this is `Canonical`.
-/

namespace Datapath.EGraph

variable {g g' : EGraph} {id : ClassId} {key k node : Node ClassId} {e e' : Entry}

/-! ## Classes -/

/-- The classes that a graph lists are the roots among its numbers. -/
theorem mem_classIds (h : g.WellFormed) :
    id ∈ g.classIds ↔ id < g.issued ∧ g.root id = id := by
  rw [classIds, UnionFind.roots_eq_eraseDups, List.mem_eraseDups, List.mem_map]
  constructor
  · intro hmem
    obtain ⟨x, hx, rfl⟩ := hmem
    rw [List.mem_range] at hx
    exact ⟨h.root_lt hx, h.root_root x⟩
  · intro hmem
    obtain ⟨hlt, hroot⟩ := hmem
    exact ⟨id, List.mem_range.2 hlt, hroot⟩

theorem WellFormed.root_mem_classIds (h : g.WellFormed) (hid : id < g.issued) :
    g.root id ∈ g.classIds :=
  (mem_classIds h).2 ⟨h.root_lt hid, h.root_root id⟩

/-- Every class has a node. -/
def Populated (g : EGraph) : Prop := ∀ i < g.issued, ∃ node, g.Represents node i

/-- No node is lost, so where no number is new there is nothing to show. -/
theorem Populated.of_extends (hp : g.Populated) (hext : Extends g g')
    (hissued : g'.issued = g.issued) : g'.Populated := by
  intro i hi
  rw [hissued] at hi
  obtain ⟨node, hnode⟩ := hp i hi
  exact ⟨node, hext.represents hnode⟩

/-- A new number is that of the node it was issued for. -/
theorem Populated.issue (h : g.WellFormed) (hp : g.Populated)
    (hnew : g.table.get? node.key = none) : (g.issue node).Populated := by
  intro i hi
  rw [issued_issue] at hi
  rcases Nat.lt_succ_iff_lt_or_eq.1 hi with hlt | rfl
  · obtain ⟨m, hm⟩ := hp i hlt
    exact ⟨m, (h.extends_issue hnew).represents hm⟩
  · exact ⟨node, represents_issue g node⟩

/-- The only step with a new number is the one that gives it to a literal. -/
theorem Step.populated (h : g.WellFormed) (hp : g.Populated) (s : Step g g') :
    g'.Populated := by
  rcases s.issued_cases h with hissued | ⟨v, rfl, hnew, -⟩
  · exact hp.of_extends (s.extends h) hissued
  · exact hp.issue h hnew

theorem Steps.populated (h : g.WellFormed) (hp : g.Populated) (s : Steps g g') :
    g'.Populated := by
  induction s with
  | refl => exact hp
  | tail s₁ s₂ ih => exact s₂.populated (Steps.wellFormed h s₁) ih

/-- Every class has a node after a call, as the numbers that it issues are those of
the node it adds and of literals. -/
theorem Call.populated (h : g.WellFormed) (hp : g.Populated) (c : Call g g') :
    g'.Populated := by
  cases c with
  | intern children run =>
      have hc := fun c hc => (children c hc).1
      rcases intern_steps h hc run with ⟨-, -, -, rfl⟩ | ⟨hnew, steps, -⟩
      · exact hp
      · exact Steps.populated (h.issue hnew hc) (hp.issue h hnew) steps
  | unite left right run =>
      exact hp.of_extends (h.extends_unite left right run)
        (issued_unite h left right run)
  | rebuild run => exact Steps.populated h hp (rebuild_steps h run)

theorem Calls.populated (h : g.WellFormed) (hp : g.Populated) (c : Calls g g') :
    g'.Populated := by
  induction c with
  | refl => exact hp
  | tail c₁ c₂ ih => exact c₂.populated (Calls.wellFormed h c₁) ih

/-! ## Reachable graphs -/

/-- What a caller can do to a graph. -/
inductive Operation
  | add (node : Node Int)
  | addTerm (term : Pattern)
  | addText (text : String)
  | merge (a b : Int)
  | rebuild
  | applyOnce (eqn : Equation)
  | saturate (equations : List Equation) (o : Options)

/-- The operation turns the first graph into the second without an error. -/
def Operation.Runs (g g' : EGraph) : Operation → Prop
  | add node => ∃ a, EGraph.add node g = .ok a g'
  | addTerm term => ∃ a, EGraph.addGround term g = .ok a g'
  | addText text => ∃ a, EGraph.load text g = .ok a g'
  | merge a b => ∃ r, EGraph.merge a b g = .ok r g'
  | rebuild => EGraph.rebuild g = .ok () g'
  | applyOnce eqn => ∃ n, EGraph.applyOnce eqn g = .ok n g'
  | saturate equations o => ∃ stats, EGraph.saturate equations o g = .ok stats g'

/-- The operations whose last change is a rebuild. -/
def Operation.Rebuilds : Operation → Prop
  | rebuild | applyOnce _ | saturate .. => True
  | _ => False

/-- The graphs that operations without an error lead to. -/
inductive Reached : EGraph → Prop
  | empty : Reached .empty
  | run {g g' : EGraph} (op : Operation) (start : Reached g)
      (runs : op.Runs g g') : Reached g'

/-- Whatever a caller does to a graph, it is a sequence of calls. -/
theorem Operation.calls (h : g.WellFormed) {op : Operation} (hrun : op.Runs g g') :
    Calls g g' := by
  cases op with
  | add node =>
      obtain ⟨a, ha⟩ := hrun
      exact .single (add_call h ha)
  | addTerm term =>
      obtain ⟨a, ha⟩ := hrun
      exact addGround_calls h ha
  | addText text =>
      obtain ⟨a, ha⟩ := hrun
      obtain ⟨t, -, ht⟩ := load_inv ha
      exact addGround_calls h ht
  | merge a b =>
      obtain ⟨r, hr⟩ := hrun
      exact .single (merge_call h hr)
  | rebuild => exact .single (.rebuild hrun)
  | applyOnce eqn =>
      obtain ⟨n, hn⟩ := hrun
      exact applyOnce_calls h hn
  | saturate equations o =>
      obtain ⟨stats, hs⟩ := hrun
      exact saturate_calls h hs

theorem Reached.calls (h : Reached g) : Calls .empty g := by
  induction h with
  | empty => exact .refl
  | run op _ runs ih =>
      exact ih.trans (op.calls (Calls.wellFormed wellFormed_empty ih) runs)

/-! ## After a rebuild -/

/-- Nothing waits for repair, and forest, records, table and parent lists agree. -/
structure Canonical (g : EGraph) : Prop where
  pending : g.pending = #[]
  /-- The nodes of a class are stored under their own keys, with canonical
  children. -/
  stored : ∀ {r key}, r ∈ g.classIds → key ∈ (g.record r).nodes →
    ∃ e, g.table.get? key = some e ∧ e.node.key = key ∧ ∀ c ∈ e.node.children,
      c ∈ g.classIds
  /-- A stored key belongs to one class, that of its owner. -/
  owner : ∀ {key e}, g.table.get? key = some e → ∃ r ∈ g.classIds,
    g.find e.owner = .ok r ∧ ∀ s ∈ g.classIds, key ∈ (g.record s).nodes ↔ s = r
  /-- Every class has a node. -/
  populated : ∀ r ∈ g.classIds, ∃ key, key ∈ (g.record r).nodes
  /-- A stored node is a parent of the classes of its children. -/
  listed : ∀ {key e}, g.table.get? key = some e → ∀ c ∈ e.node.children,
    key ∈ (g.record (g.root c)).parents
  /-- Nodes with the same canonical form are one node of one class. -/
  congruent : ∀ {r s key k}, r ∈ g.classIds → s ∈ g.classIds →
    key ∈ (g.record r).nodes →
    k ∈ (g.record s).nodes → (g.canonical key).key = (g.canonical k).key →
    r = s ∧ key = k

theorem not_due (hp : g.pending = #[]) (c : ClassId) : ¬ Due [] g c := by
  intro hdue
  rcases hdue with ⟨p, hp' | hp', -⟩
  · exact List.not_mem_nil hp'
  · rw [hp] at hp'
    simp at hp'

/-- With nothing pending, the children of a stored node are roots. -/
theorem Attended.root_child {L : List (Node ClassId)} (ha : Attended L [] g)
    (hp : g.pending = #[]) (he : g.table.get? key = some e) (hkey : key ∉ L)
    {c : ClassId} (hc : c ∈ key.children) :
    g.root c = c :=
  ((ha key e he hkey).current c hc).resolve_right (not_due hp c)

theorem Tidy.root_child (ht : Tidy [] [] g) (hp : g.pending = #[])
    (he : g.table.get? key = some e) {c : ClassId} (hc : c ∈ key.children) :
    g.root c = c :=
  ht.attended.root_child hp he List.not_mem_nil hc

/-- In a tidy graph that has nothing left to repair, nothing is stale. Stored keys
have roots as children, so each is its own canonical form, and the entry of a key
says to which class it belongs; with this every clause is one of well-formedness. -/
theorem Tidy.canonical (h : g.WellFormed) (ht : Tidy [] [] g) (hpop : g.Populated)
    (hp : g.pending = #[]) : g.Canonical := by
  have hchild {key : Node ClassId} {e : Entry}
      (he : g.table.get? key = some e) {c : ClassId}
      (hc : c ∈ e.node.children) : c ∈ key.children := by
    rwa [← WellFormed.key_eq he, Entry.key, Node.children_key]
  -- a stored key is its own canonical form
  have hform {key : Node ClassId} {e : Entry} (he : g.table.get? key = some e) :
      (g.canonical key).key = key := by
    rw [EGraph.canonical, Node.map_id_of fun c hc =>
      ht.root_child hp he hc, ← WellFormed.key_eq he,
      Entry.key, Node.key_key]
  constructor
  case pending => exact hp
  case stored =>
    intro r key hr hk
    rw [mem_classIds h] at hr
    obtain ⟨e, he, -⟩ := h.stored hr.2 hk
    refine ⟨e, he, WellFormed.key_eq he, fun c hc => ?_⟩
    rw [mem_classIds h]
    exact ⟨h.child_lt he c (hchild he hc), ht.root_child hp he (hchild he hc)⟩
  case owner =>
    intro key e he
    have howner := h.owner_lt he
    refine ⟨g.root e.owner,
      (mem_classIds h).2 ⟨h.root_lt howner, h.root_root _⟩, ?_, ?_⟩
    · exact if_pos howner
    · intro s hs
      rw [mem_classIds h] at hs
      constructor
      · intro hk
        obtain ⟨e', he', hroot⟩ := h.stored hs.2 hk
        rw [he] at he'
        cases he'
        exact hroot.symm
      · intro heq
        subst heq
        exact h.mem_nodes he
  case populated =>
    intro r hr
    rw [mem_classIds h] at hr
    obtain ⟨node, key, e, he, -, ho⟩ := hpop r hr.1
    refine ⟨key, ?_⟩
    rw [← hr.2, ← ho]
    exact h.mem_nodes he
  case listed =>
    intro key e he c hc
    exact (ht key e he List.not_mem_nil).1.listed c (hchild he hc)
  -- canonical forms of stored keys are the keys themselves, and a key has one entry
  case congruent =>
    intro r s key k hr hs hkr hks heq
    rw [mem_classIds h] at hr hs
    obtain ⟨e, he, ho⟩ := h.stored hr.2 hkr
    obtain ⟨e', he', ho'⟩ := h.stored hs.2 hks
    rw [hform he, hform he'] at heq
    subst heq
    rw [he] at he'
    cases he'
    exact ⟨ho.symm.trans ho', rfl⟩

/-- The last change that these operations make is a rebuild. For saturation this is
an invariant of the rounds, since each of them ends with one and so does the
start. -/
theorem Operation.Rebuilds.last {op : Operation} (hop : op.Rebuilds)
    (h : g.WellFormed) (hrun : op.Runs g g') :
    ∃ g₁, Calls g g₁ ∧ EGraph.rebuild g₁ = .ok () g' := by
  cases op with
  | add | addTerm | addText | merge => exact hop.elim
  | rebuild => exact ⟨g, .refl, hrun⟩
  | applyOnce eqn =>
      obtain ⟨n, hn⟩ := hrun
      obtain ⟨g₁, apps, hfirst, -, hall⟩ := applyOnce_inv hn
      obtain ⟨g₂, heach, hlast⟩ := applyAll_inv hall
      have c : Call g g₁ := .rebuild hfirst
      exact ⟨g₂, .head c (applyEach_calls (c.wellFormed h) heach), hlast⟩
  | saturate equations o =>
      obtain ⟨stats, hs⟩ := hrun
      obtain ⟨g₁, p, hfirst, hrounds⟩ := saturate_inv hs
      refine saturateRounds_induction
        (P := fun t => ∃ t₁, Calls g t₁ ∧ EGraph.rebuild t₁ = .ok () t) ?_
          ⟨g, .refl, hfirst⟩ hrounds
      intro s t apps n hinv _ hall
      obtain ⟨s₁, c, hlast⟩ := hinv
      obtain ⟨t₁, heach, hlast'⟩ := applyAll_inv hall
      have c' := c.tail (.rebuild hlast)
      exact ⟨t₁, c'.trans (applyEach_calls (Calls.wellFormed h c') heach), hlast'⟩

/-- Whatever was done to a graph before, an operation that ends with a rebuild leaves
it canonical. -/
theorem canonical_of_rebuilds (op : Operation) (hg : Reached g) (hop : op.Rebuilds)
    (hrun : op.Runs g g') : g'.Canonical := by
  have h := Calls.wellFormed wellFormed_empty hg.calls
  obtain ⟨g₁, c, hlast⟩ := hop.last h hrun
  have c₁ : Calls empty g₁ := hg.calls.trans c
  have c' : Calls empty g' := c₁.tail (.rebuild hlast)
  -- the calls up to the last rebuild give all but the empty list of pending classes
  refine Tidy.canonical (Calls.wellFormed wellFormed_empty c')
    (Calls.tidy wellFormed_empty tidy_empty c')
    (Calls.populated wellFormed_empty ?_ c') ?_
  · intro i hi
    exact absurd hi (Nat.not_lt_zero i)
  · exact rebuild_pending (Calls.wellFormed wellFormed_empty c₁) hlast

/-- Uniting `a` and `b` makes `(max+1 a a)` and `(max+1 b b)` congruent, which a
rebuild settles. -/
theorem canonical_of_rebuilds_merge :
    ∃ g g', Reached g ∧ Operation.rebuild.Runs g g' ∧
    g.size = 3 ∧ g'.size = 2 ∧ g'.Canonical := by
  have hrun : (fromEmpty (ε := GraphError) do
      let _ ← EGraph.add (.symbol "a")
      let _ ← EGraph.add (.symbol "b")
      let _ ← EGraph.add (.derived .sum 0 0)
      let _ ← EGraph.add (.derived .sum 1 1)
      let _ ← EGraph.merge 0 1
      let before ← get
      EGraph.rebuild
      let after ← get
      return (before.size, after.size)).toOption.map (·.1) = some (3, 2) := by
    decide +kernel
  obtain ⟨⟨sizes, g'⟩, hok, hsizes⟩ := Option.map_eq_some_iff.1 hrun
  obtain ⟨a₁, g₁, h₁, hok⟩ := bind_inv (fromEmpty_inv (toOption_inv hok))
  obtain ⟨a₂, g₂, h₂, hok⟩ := bind_inv hok
  obtain ⟨a₃, g₃, h₃, hok⟩ := bind_inv hok
  obtain ⟨a₄, g₄, h₄, hok⟩ := bind_inv hok
  obtain ⟨a₅, g₅, h₅, hok⟩ := bind_inv hok
  rw [get_bind] at hok
  obtain ⟨⟨⟩, g₆, h₆, hok⟩ := bind_inv hok
  rw [get_bind] at hok
  obtain ⟨rfl, rfl⟩ := pure_inv hok
  have hreached : Reached g₅ :=
    .run (.merge 0 1)
      (.run (.add _) (.run (.add _) (.run (.add _) (.run (.add _) .empty
      ⟨a₁, h₁⟩) ⟨a₂, h₂⟩) ⟨a₃, h₃⟩) ⟨a₄, h₄⟩) ⟨a₅, h₅⟩
  exact ⟨g₅, g₆, hreached, h₆, congrArg Prod.fst hsizes, congrArg Prod.snd hsizes,
    canonical_of_rebuilds .rebuild hreached trivial h₆⟩

end Datapath.EGraph

import Datapath.Proofs.Closure

/-!
# Datapath.Proofs.Instances

What adding an instance of a pattern leaves behind, and what a match finds.

`EGraph.instantiate` adds the layers of a pattern one by one, each after its slots.
So an invariant of graphs is kept if adding a single layer keeps it
(`instantiate_induction`), where the layer's children are classes that already hold
the instances of its slots. That a class holds an instance (`Realizes`) is said
without regard to which numbers stand for classes, so it lasts.

Matching is the converse of adding: where a pattern matches, the class already holds
the instance (`realizes_of_mem_matchIn`). This much is true of every well-formed
graph, repaired or not.
-/

namespace Datapath

namespace EGraph

variable {g g' : EGraph} {s s' : Subst} {p : Pattern} {ref : Int} {id : ClassId}
  {node : Node ClassId}

/-! ## Instances -/

/-- A reference to a number that has been issued. -/
def Issued (g : EGraph) (ref : Int) : Prop := 0 ≤ ref ∧ ref.toNat < g.issued

/-- The classes that a substitution binds variables to have been issued. -/
def BoundIn (g : EGraph) (s : Subst) : Prop :=
  ∀ name ref, s.get? name = some ref → g.Issued ref

theorem find_of_issued (h : g.Issued ref) : g.find ref = .ok (g.root ref.toNat) := by
  obtain ⟨n, rfl⟩ := Int.eq_ofNat_of_zero_le h.1
  exact find_natCast h.2

theorem Issued.of_extends (h : g.Issued ref) (hext : Extends g g') : g'.Issued ref :=
  ⟨h.1, Nat.lt_of_lt_of_le h.2 hext.issued_le⟩

theorem BoundIn.of_extends (h : g.BoundIn s) (hext : Extends g g') : g'.BoundIn s :=
  fun name ref hs => (h name ref hs).of_extends hext

theorem boundIn_nil (g : EGraph) : g.BoundIn [] := fun _ _ h => by cases h

/-- The class of `id` holds the instance of a pattern under a substitution. -/
def Realizes (g : EGraph) (s : Subst) : Pattern → ClassId → Prop :=
  Pattern.Occurs (fun name id => ∃ ref, s.get? name = some ref ∧
    g.root ref.toNat = g.root id) g.Represents

/-- An instance that a class holds it holds from then on. -/
theorem Realizes.of_extends (h : g.Realizes s p id) (hext : Extends g g') :
    g'.Realizes s p id := by
  refine h.imp (A := fun _ => True)
    (fun _ _ _ _ => trivial) (fun {name k} _ hbound => ?_)
    (fun _ hrep => hext.represents hrep) trivial
  obtain ⟨ref, hs, hroot⟩ := hbound
  exact ⟨ref, hs, hext.root_eq hroot⟩

/-- All numbers of a class hold the same instances. -/
theorem Realizes.congr {x : ClassId} (h : g.Realizes s p id)
    (hroot : g.root id = g.root x) : g.Realizes s p x := by
  induction p using Pattern.layers with
  | var name =>
      obtain ⟨ref, hs, hid⟩ := h
      exact ⟨ref, hs, hid.trans hroot⟩
  | node n _ =>
      obtain ⟨m, hrel, hm⟩ := Pattern.occurs_ofNode.1 h
      exact Pattern.occurs_ofNode.2 ⟨m, hrel, hm.congr rfl hroot⟩

/-- Each part of an instance is an instance, in some class. -/
theorem Realizes.part {q : Pattern} (h : g.Realizes s p id) (hq : q ∈ p.parts) :
    ∃ y, g.Realizes s q y := by
  induction p using Pattern.layers generalizing id with
  | var name =>
      obtain rfl := List.mem_singleton.1 hq
      exact ⟨id, h⟩
  | node l ih =>
      rcases Pattern.mem_parts_ofNode.1 hq with rfl | ⟨c, hc, hq⟩
      · exact ⟨id, h⟩
      · obtain ⟨m, hrel, -⟩ := Pattern.occurs_ofNode.1 h
        obtain ⟨y, -, hy⟩ := hrel.exists_right hc
        exact ih c hc hy hq

/-- A reference means a class that holds the instance of a pattern. -/
def Refers (g : EGraph) (s : Subst) (p : Pattern) (ref : Int) : Prop :=
  g.Issued ref ∧ g.Realizes s p ref.toNat

theorem Refers.of_extends (h : g.Refers s p ref) (hext : Extends g g') :
    g'.Refers s p ref :=
  ⟨h.1.of_extends hext, h.2.of_extends hext⟩

/-- Adding a node answers with an issued number. -/
theorem issued_of_add (h : g.WellFormed) {node : Node Int}
    (ha : add node g = .ok id g') : g'.Issued id := by
  refine ⟨Int.natCast_nonneg id, ?_⟩
  rw [Int.toNat_natCast]
  obtain ⟨hc, hi⟩ := add_inv ha
  have hcanon := canonical_children h (children_toNat_lt hc)
  rcases intern_steps h (fun c hmem => (hcanon c hmem).1) hi with
    ⟨e, he, rfl, rfl⟩ | ⟨hnew, steps, rfl⟩
  · exact h.root_lt (h.owner_lt he)
  · have hw := h.issue hnew fun c hmem => (hcanon c hmem).1
    refine (Steps.wellFormed hw steps).root_lt
      (Nat.lt_of_lt_of_le ?_ (Steps.extends hw steps).issued_le)
    exact issued_lt_issue _ _

/-- An added layer is an instance if its children are instances of its slots. -/
theorem refers_add (h : g.WellFormed) {n : Node Pattern} {m : Node Int}
    (hrel : n.Rel (g.Refers s) m) (ha : add m g = .ok id g') :
    g'.Refers s (.ofNode n) id := by
  have hext := (add_call h ha).extends h
  refine ⟨issued_of_add h ha, Pattern.occurs_ofNode.2 ⟨m.map Int.toNat, ?_, ?_⟩⟩
  · exact Node.Rel.map_right.2 (hrel.imp fun q _ r _ hr => (hr.of_extends hext).2)
  · exact (represents_add h ha).1

/-- Once the slots of a layer have been added, the layer stands above their
instances. An instance that was added first is still there after the others, as
nothing is taken back. -/
theorem refers_slots {P : EGraph → Prop} {n : Node Pattern} {refs : List Int}
    (hslots : ∀ q ∈ n.children, ∀ g r g', g.WellFormed → g.BoundIn s → P g →
      instantiate s q g = .ok r g' → P g' ∧ g'.Refers s q r)
    (h : g.WellFormed) (hs : g.BoundIn s) (h0 : P g)
    (hrefs : n.children.mapM (instantiate s) g = .ok refs g') :
    g'.WellFormed ∧ P g' ∧
    n.Rel (g'.Refers s) ((n.map fun _ => 0).withChildren refs) := by
  obtain ⟨⟨h', -, hp'⟩, hall, -⟩ := mapM_inv
    (I := fun t => t.WellFormed ∧ t.BoundIn s ∧ P t)
    (P := fun q r t => t.Refers s q r)
    (fun q hq t r t' ht hrun => by
      obtain ⟨hw, hb, hp⟩ := ht
      have hcalls := instantiate_calls hw hrun
      have hext := Calls.extends hw hcalls
      obtain ⟨hp', hr⟩ := hslots q hq t r t' hw hb hp hrun
      exact ⟨⟨Calls.wellFormed hw hcalls, hb.of_extends hext, hp'⟩, hr,
        fun hold => hold.of_extends hext⟩)
    ⟨h, hs, h0⟩ hrefs
  obtain ⟨hchildren, hhead⟩ := Node.children_withChildren hall.length_eq (0 : Int)
  exact ⟨h', hp', hhead.symm, by rw [hchildren]; exact hall⟩

/-- What is kept by adding a layer above instances of its slots is kept by adding a
pattern, and the class of the result holds the instance. Every invariant of added
patterns is proved by this induction, which says what is known at each layer: where
its children are, and that they are instances of its slots. -/
theorem instantiate_induction {P : EGraph → Prop}
    (hadd : ∀ n, .ofNode n ∈ p.parts → ∀ g m g' id, g.WellFormed → P g →
      n.Rel (g.Refers s) m → add m g = .ok id g' → P g')
    (h : g.WellFormed) (hs : g.BoundIn s) (h0 : P g)
    (hi : instantiate s p g = .ok ref g') :
    P g' ∧ g'.Refers s p ref := by
  induction p using Pattern.layers generalizing g g' ref with
  | var name =>
      unfold instantiate at hi
      cases hget : s.get? name with
      | some r =>
          rw [hget] at hi
          obtain ⟨rfl, rfl⟩ := pure_inv hi
          exact ⟨h0, hs name r hget, r, hget, rfl⟩
      | none => rw [hget] at hi; cases hi
  | node n ih =>
      rw [instantiate_ofNode] at hi
      obtain ⟨refs, g₁, hrefs, hlast⟩ := bind_inv hi
      obtain ⟨id, ha, rfl⟩ := map_inv hlast
      obtain ⟨h₁, hp₁, hrel⟩ := refers_slots (fun q hq g r g' hw hb hp hrun =>
        ih q hq (fun k hk => hadd k
          (Pattern.mem_parts_trans (Pattern.mem_parts_child hq) hk)) hw hb hp hrun)
        h hs h0 hrefs
      exact ⟨hadd n (Pattern.mem_parts_self _) g₁ _ g' id h₁ hp₁ hrel ha,
        refers_add h₁ hrel ha⟩

/-- The class of an added pattern holds its instance. -/
theorem refers_of_instantiate (h : g.WellFormed) (hs : g.BoundIn s)
    (hi : instantiate s p g = .ok ref g') : g'.Refers s p ref :=
  (instantiate_induction (P := fun _ => True) (fun _ _ _ _ _ _ _ _ _ _ => trivial) h
    hs trivial hi).2

/-! ## Matches -/

/-- The nodes that a class lists are represented in it, and their children have been
issued. -/
theorem represents_of_mem_nodes (hw : g.WellFormed) (hm : node ∈ g.nodes id) :
    g.Represents node id ∧ ∀ c ∈ node.children, c < g.issued := by
  obtain ⟨key, hkey, hnode⟩ := List.mem_filterMap.1 hm
  obtain ⟨e, he, rfl⟩ := Option.map_eq_some_iff.1 hnode
  obtain ⟨e', he', ho⟩ := hw.stored (hw.root_root id) hkey
  obtain rfl := Option.some.inj (he.symm.trans he')
  have hlt := hw.child_lt he
  rw [← WellFormed.key_eq he, Entry.key, Node.children_key] at hlt
  -- the node that is listed is the stored one up to the roots of its children
  refine ⟨(represents_of_get? he).congr ?_ ho, fun c hc =>
    (canonical_children hw hlt c hc).1⟩
  rw [canonical, Node.key_map, hw.map_root fun heq => heq, ← WellFormed.key_eq he,
    Entry.key, Node.key_key]

/-- Matches patterns in classes one after the other. -/
def matchAll (g : EGraph) : List (Pattern × ClassId) → Subst → List Subst
  | [], s => [s]
  | (p, id) :: rest, s => (g.matchIn p id s).flatMap (g.matchAll rest)

/-- A layer matches the nodes with the same head whose children match its slots. The
exception are literals that are NaN, which match nothing. -/
theorem matchIn_ofNode (g : EGraph) {n : Node Pattern}
    (hn : ∀ v, n = .literal v → v.level ≠ none) (id : ClassId) (s : Subst) :
    g.matchIn (.ofNode n) id s = (g.nodes id).flatMap fun m =>
      if n.key.map (fun _ => ()) = m.key.map (fun _ => ()) then
        g.matchAll (n.children.zip m.children) s
      else [] := by
  cases n with
  | literal v =>
      refine congrArg (List.flatMap · _) (funext fun m => ?_)
      cases m with
      | literal u =>
          have hiff : u.numEq v = true ↔ v.withoutMinusZero = u.withoutMinusZero :=
            (Binary64.numEq_iff (hn v rfl)).trans eq_comm
          simp [Node.key, Node.map, Node.children, matchAll, hiff]
      | sign | symbol | derived | binary => simp [Node.key, Node.map]
  | sign t =>
      refine congrArg (List.flatMap · _) (funext fun m => ?_)
      cases m <;> simp [Node.key, Node.map, Node.children, matchAll, eq_comm]
  | symbol x =>
      refine congrArg (List.flatMap · _) (funext fun m => ?_)
      cases m <;> simp [Node.key, Node.map, Node.children, matchAll, eq_comm]
  | derived fn left right =>
      refine congrArg (List.flatMap · _) (funext fun m => ?_)
      cases m <;> simp [Node.key, Node.map, Node.children, matchAll, eq_comm]
  | binary op w wa sa a wb sb b =>
      refine congrArg (List.flatMap · _) (funext fun m => ?_)
      cases m <;> simp [Node.key, Node.map, Node.children, matchAll, eq_comm]

/-- What matches a layer matches its slots with the children of a node that has the
same head. -/
theorem exists_of_mem_matchIn {n : Node Pattern}
    (h : s' ∈ g.matchIn (.ofNode n) id s) :
    ∃ m ∈ g.nodes id, n.key.map (fun _ => ()) = m.key.map (fun _ => ()) ∧
      s' ∈ g.matchAll (n.children.zip m.children) s := by
  by_cases hn : ∀ v, n = .literal v → v.level ≠ none
  · rw [matchIn_ofNode g hn] at h
    obtain ⟨m, hm, hs⟩ := List.mem_flatMap.1 h
    split at hs
    · next hhead => exact ⟨m, hm, hhead, hs⟩
    · exact absurd hs List.not_mem_nil
  · -- NaN equals nothing, not even itself
    push Not at hn
    obtain ⟨v, rfl, hv⟩ := hn
    obtain ⟨m, -, hs⟩ := List.mem_flatMap.1 h
    cases m <;> simp [Binary64.numEq, Binary64.compares, hv] at hs

/-- The second substitution keeps the bindings of the first and binds more variables
to issued numbers. -/
structure Prolongs (g : EGraph) (s s' : Subst) : Prop where
  keeps : ∀ name ref, s.get? name = some ref → s'.get? name = some ref
  issued : ∀ name ref, s'.get? name = some ref →
    s.get? name = some ref ∨ g.Issued ref

namespace Prolongs

theorem refl (g : EGraph) (s : Subst) : Prolongs g s s :=
  ⟨fun _ _ h => h, fun _ _ h => Or.inl h⟩

/-- What was bound on the way was bound to issued numbers. -/
theorem trans {s'' : Subst} (h : Prolongs g s s') (h' : Prolongs g s' s'') :
    Prolongs g s s'' where
  keeps name ref hs := h'.keeps name ref (h.keeps name ref hs)
  issued name ref hs := by
    rcases h'.issued name ref hs with hs | hissued
    · exact h.issued name ref hs
    · exact Or.inr hissued

theorem boundIn (h : Prolongs g s s') (hs : g.BoundIn s) : g.BoundIn s' := by
  intro name ref hget
  rcases h.issued name ref hget with hold | hissued
  · exact hs name ref hold
  · exact hissued

/-- An instance stays one when more variables are bound. -/
theorem realizes (h : Prolongs g s s') (hp : g.Realizes s p id) :
    g.Realizes s' p id := by
  refine hp.imp (A := fun _ => True)
    (fun _ _ _ _ => trivial) (fun {name k} _ hbound => ?_)
    (fun _ hrep => hrep) trivial
  obtain ⟨ref, hs, hroot⟩ := hbound
  exact ⟨ref, h.keeps name ref hs, hroot⟩

end Prolongs

/-- A variable that matches is bound to the class, whether it was before or not. -/
theorem realizes_of_mem_bindVar (hw : g.WellFormed) {name : String}
    (hid : id < g.issued) (hmem : s' ∈ bindVar name (g.root id) s) :
    Prolongs g s s' ∧ g.Realizes s' (.var name) id := by
  unfold bindVar at hmem
  cases hs : s.get? name with
  | some bound =>
      rw [hs] at hmem
      dsimp only at hmem
      split at hmem
      · next hbound =>
        obtain rfl := List.mem_singleton.1 hmem
        exact ⟨.refl g s', bound,
          hs, by rw [hbound, Int.toNat_natCast, hw.root_root]⟩
      · exact absurd hmem List.not_mem_nil
  | none =>
      rw [hs] at hmem
      obtain rfl := List.mem_singleton.1 hmem
      refine ⟨⟨fun n ref hn => ?_, fun n ref hn => ?_⟩, g.root id, ?_, ?_⟩
      · have hne : n ≠ name := fun heq => by
          rw [heq, hs] at hn
          cases hn
        rw [Bindings.get?_set, if_neg hne, hn]
      · rw [Bindings.get?_set] at hn
        split at hn
        · cases hn
          exact Or.inr ⟨Int.natCast_nonneg _, hw.root_lt hid⟩
        · exact Or.inl hn
      · rw [Bindings.get?_set, if_pos rfl]
      · rw [Int.toNat_natCast, hw.root_root]

/-- Patterns that match one after the other match under the final substitution, since
what the earlier ones have bound is kept. -/
theorem realizes_of_mem_matchAll {pairs : List (Pattern × ClassId)}
    (hpairs : ∀ q ∈ pairs, ∀ {s s'}, s' ∈ g.matchIn q.1 q.2 s →
      Prolongs g s s' ∧ g.Realizes s' q.1 q.2)
    (hmem : s' ∈ g.matchAll pairs s) :
    Prolongs g s s' ∧ ∀ q ∈ pairs, g.Realizes s' q.1 q.2 := by
  induction pairs generalizing s with
  | nil =>
      obtain rfl := List.mem_singleton.1 hmem
      exact ⟨.refl g s', by simp⟩
  | cons q rest ih =>
      obtain ⟨s₁, hfirst, hrest⟩ := List.mem_flatMap.1 hmem
      obtain ⟨h₁, hq⟩ := hpairs q List.mem_cons_self hfirst
      obtain ⟨h₂, hall⟩ :=
        ih (fun r hr => hpairs r (List.mem_cons_of_mem _ hr)) hrest
      exact ⟨h₁.trans h₂, List.forall_mem_cons.2 ⟨h₂.realizes hq, hall⟩⟩

/-- Where a pattern matches, the class holds its instance under every substitution
found. By induction on the pattern: the node that a layer was matched with is
represented in the class, and its children hold the instances of the slots. -/
theorem realizes_of_mem_matchIn (hw : g.WellFormed) (hid : id < g.issued)
    (hmem : s' ∈ g.matchIn p id s) : Prolongs g s s' ∧ g.Realizes s' p id := by
  induction p using Pattern.layers generalizing id s s' with
  | var name => exact realizes_of_mem_bindVar hw hid hmem
  | node n ih =>
      obtain ⟨m, hm, hhead, hslots⟩ := exists_of_mem_matchIn hmem
      obtain ⟨hrep, hlt⟩ := represents_of_mem_nodes hw hm
      obtain ⟨hprolongs, hall⟩ := realizes_of_mem_matchAll (fun q hq _ _ => by
        obtain ⟨hslot, hchild⟩ := List.of_mem_zip hq
        exact ih q.1 hslot (hlt q.2 hchild)) hslots
      have hlen : n.children.length = m.children.length := by
        have hchildren := congrArg (fun k : Node Unit => k.children.length) hhead
        simpa using hchildren
      have hrel : n.key.Rel (g.Realizes s') m.key := by
        rw [Node.Rel, Node.children_key, Node.children_key, List.forall₂_iff_zip]
        exact ⟨hhead, hlen, fun hq => hall _ hq⟩
      exact ⟨hprolongs, (Pattern.occurs_ofNode_key represents_key).2
        ⟨m.key, hrel, represents_key.2 hrep⟩⟩

end EGraph

end Datapath

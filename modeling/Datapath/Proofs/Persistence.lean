import Datapath.Proofs.Steps

/-!
# Datapath.Proofs.Persistence

What is never lost.

A node is *represented* in the class of a number if, after its children have been
replaced by their roots, it is the canonical form of a node that this class owns.
`Extends` says that one graph knows at least what another does: classes that are
equal stay equal, constants stay known up to the sign of a zero, and represented
nodes stay represented although their keys come and go.

Every change extends the graph it starts from, and so does every sequence of steps
(`Steps.extends`).
-/

namespace Datapath.EGraph

variable {g g' g'' : EGraph} {id w l x y : ClassId} {key k node : Node ClassId}
  {e e' : Entry}

/-- A class owns a node with the same canonical form. -/
def Represents (g : EGraph) (node : Node ClassId) (id : ClassId) : Prop :=
  ∃ key e, g.table.get? key = some e ∧ key.map g.root = node.key.map g.root ∧
    g.root e.owner = g.root id

/-- The second graph knows what the first does. -/
structure Extends (g g' : EGraph) : Prop where
  issued_le : g.issued ≤ g'.issued
  root_eq : ∀ {x y}, g.root x = g.root y → g'.root x = g'.root y
  constant : ∀ {x c}, x < g.issued → g.constant? x = some c →
    ∃ d, g'.constant? x = some d ∧ d.withoutMinusZero = c.withoutMinusZero
  represents : ∀ {node id}, g.Represents node id → g'.Represents node id

namespace Extends

theorem refl (g : EGraph) : Extends g g :=
  ⟨le_rfl, id, fun _ hc => ⟨_, hc, rfl⟩, id⟩

theorem trans (h : Extends g g') (h' : Extends g' g'') : Extends g g'' where
  issued_le := h.issued_le.trans h'.issued_le
  root_eq heq := h'.root_eq (h.root_eq heq)
  constant hx hc := by
    obtain ⟨d, hd, hdc⟩ := h.constant hx hc
    obtain ⟨b, hb, hbd⟩ := h'.constant (Nat.lt_of_lt_of_le hx h.issued_le) hd
    exact ⟨b, hb, hbd.trans hdc⟩
  represents hr := h'.represents (h.represents hr)

theorem of_sameContent (hs : SameContent g g') : Extends g g' where
  issued_le := by rw [hs.issued]
  root_eq heq := by rw [hs.root, hs.root, heq]
  constant _ hc := ⟨_, by rw [hs.constant?, hc], rfl⟩
  represents := by
    intro node id hrep
    obtain ⟨key, e, he, hkey, ho⟩ := hrep
    have hroot : g'.root = g.root := funext hs.root
    exact ⟨key, e, by rw [hs.table, he], by rw [hroot, hkey], by rw [hroot, ho]⟩

end Extends

theorem represents_key : g.Represents node.key id ↔ g.Represents node id := by
  rw [Represents, Represents, Node.key_key]

theorem represents_of_get? (h : g.table.get? key = some e) :
    g.Represents key e.owner := by
  refine ⟨key, e, h, ?_, rfl⟩
  rw [← WellFormed.key_eq h, Entry.key, Node.key_key]

theorem represents_issue (g : EGraph) (node : Node ClassId) :
    (g.issue node).Represents node g.issued :=
  ⟨node.key, ⟨node, g.issued⟩, get?_issue_new g node, rfl, rfl⟩

/-- The children of all stored nodes are roots. -/
def Settled (g : EGraph) : Prop :=
  ∀ ⦃key e⦄, g.table.get? key = some e → ∀ c ∈ key.children, g.root c = c

namespace Settled

/-- A represented node is stored under its canonical form. -/
theorem get?_of_represents (h : g.Settled) (hm : g.Represents node x) :
    ∃ e, g.table.get? (node.key.map g.root) = some e ∧
      g.root e.owner = g.root x := by
  obtain ⟨key, e, he, hkey, ho⟩ := hm
  refine ⟨e, ?_, ho⟩
  rw [← hkey, Node.map_id_of fun c hc => h he c hc]
  exact he

/-- Nodes with one canonical form are represented in one class. -/
theorem root_eq (h : g.Settled) {m n : Node ClassId} (hm : g.Represents m x)
    (hn : g.Represents n y) (heq : m.key.map g.root = n.key.map g.root) :
    g.root x = g.root y := by
  obtain ⟨e, he, ho⟩ := h.get?_of_represents hm
  obtain ⟨e', he', ho'⟩ := h.get?_of_represents hn
  rw [heq, he'] at he
  cases he
  exact ho.symm.trans ho'

end Settled

/-- Which node of a class is meant does not matter, nor which number of it. -/
theorem Represents.congr (h : g.Represents node id) {m : Node ClassId} {j : ClassId}
    (hnode : node.key.map g.root = m.key.map g.root) (hid : g.root id = g.root j) :
    g.Represents m j := by
  obtain ⟨key, e, he, hkey, ho⟩ := h
  exact ⟨key, e, he, hkey.trans hnode, ho.trans hid⟩

namespace WellFormed

/-- A class of its own for a new node. -/
theorem extends_issue (h : g.WellFormed) (hnew : g.table.get? node.key = none) :
    Extends g (g.issue node) where
  issued_le := by rw [issued_issue]; exact Nat.le_succ _
  root_eq heq := by rw [root_issue h.ranked, root_issue h.ranked, heq]
  constant hx hc := ⟨_, by rw [h.constant?_issue _ hx, hc], rfl⟩
  represents := by
    intro m id hrep
    obtain ⟨key, e, he, hkey, ho⟩ := hrep
    have hroot : (g.issue node).root = g.root := funext (root_issue h.ranked node)
    have hne : key ≠ node.key := fun heq => by
      rw [heq, hnew] at he
      cases he
    exact ⟨key, e, by rw [get?_issue, if_neg hne, he], by rw [hroot, hkey], by
      rw [hroot, ho]⟩

/-- A union takes no class apart: its roots are those of before, with the winner in
the place of the loser. -/
theorem extends_absorb (h : g.WellFormed) (hj : Joinable g w l) :
    Extends g (g.absorb w l) where
  issued_le := by rw [issued_absorb]
  root_eq heq := by rw [hj.root h, hj.root h, heq]
  constant _ hc := hj.constant?_absorb h hc
  represents := by
    intro m id hrep
    obtain ⟨key, e, he, hkey, ho⟩ := hrep
    -- the new roots are a function of the old ones
    have hroot : (g.absorb w l).root = (fun r => if r = l then w else r) ∘ g.root :=
      funext (hj.root h)
    refine ⟨key, e, he, ?_, ?_⟩
    · rw [hroot, ← Node.map_map, ← Node.map_map, hkey]
    · rw [hj.root h, hj.root h, ho]

theorem extends_unite (h : g.WellFormed) {r : ClassId} (hx : x < g.issued)
    (hy : y < g.issued) (hu : EGraph.unite x y g = .ok r g') : Extends g g' := by
  rcases unite_cases h hx hy hu with ⟨-, rfl, -⟩ | ⟨w, l, hj, rfl, -⟩
  · exact .refl g'
  · exact h.extends_absorb hj

/-- Roots of a graph in which equal classes stay equal absorb the old roots. -/
theorem map_root (h : g.WellFormed)
    (hroot : ∀ {x y}, g.root x = g.root y → g'.root x = g'.root y)
    (node : Node ClassId) : (node.map g.root).map g'.root = node.map g'.root := by
  rw [Node.map_map]
  exact Node.map_congr fun c _ => hroot (h.root_root c)

/-- A node that is stored anew is still represented. -/
theorem extends_restore (h : g.WellFormed) (he : g.table.get? e.key = some e)
    (hfree : g.congruent? e (g.canonical e.node) = none) :
    Extends g (g.restore e (g.canonical e.node) (g.root e.owner)) := by
  have hframe := restore_sameFrame g e (g.canonical e.node) (g.root e.owner)
  have hroot : (g.restore e (g.canonical e.node) (g.root e.owner)).root = g.root :=
    funext hframe.root
  constructor
  case issued_le => rw [hframe.issued]
  case root_eq =>
    intro x y heq
    rw [hroot, heq]
  case constant =>
    intro x c _ hc
    exact ⟨c, by rw [hframe.constant?, hc], rfl⟩
  case represents =>
    intro m id hrep
    obtain ⟨key, e', he', hkey, ho⟩ := hrep
    by_cases hmoved : key = e.key
    · -- the node that moved is found under its canonical key
      subst hmoved
      rw [he] at he'
      cases he'
      refine ⟨(g.canonical e.node).key, ⟨g.canonical e.node, g.root e.owner⟩,
        by rw [get?_restore he, if_pos rfl], ?_, ?_⟩
      · rw [hroot, canonical, Node.key_map,
          h.map_root (fun heq => heq), ← Entry.key, hkey]
      · rw [hroot, h.root_root, ho]
    · -- an entry under another key is not overwritten, since the canonical key is
      -- free
      have hne : key ≠ (g.canonical e.node).key := fun heq => by
        rcases congruent?_eq_none hfree with hsame | hnone
        · exact hmoved (heq.trans hsame)
        · rw [heq, hnone] at he'
          cases he'
      exact ⟨key, e', by rw [get?_restore he, if_neg hne, if_neg hmoved, he'],
        by rw [hroot, hkey], by rw [hroot, ho]⟩

/-- A node that is dropped because another one has its canonical key is represented
by that one. -/
theorem extends_fuse (h : g.WellFormed) {z : ClassId}
    (he : g.table.get? e.key = some e)
    (hcong : g.congruent? e (g.canonical e.node) = some e')
    (hu : EGraph.unite (g.root e.owner) e'.owner
      (g.dropKey e.key (g.root e.owner)) = .ok z g') :
    Extends g g' := by
  obtain ⟨hne, he'⟩ := congruent?_inv hcong
  have hd := h.dropKey he
  have howner := h.root_lt (h.owner_lt he)
  have hext := hd.extends_unite howner (h.owner_lt he') hu
  obtain ⟨htable, hjoined, -⟩ := unite_joins hd howner (h.owner_lt he') hu
  -- dropping the key changes no root, so what is equal in `g` is equal in `g'`
  have hroot {x y : ClassId} (heq : g.root x = g.root y) : g'.root x = g'.root y :=
    hext.root_eq (show (g.dropKey e.key (g.root e.owner)).root x = _ from heq)
  constructor
  case issued_le => exact hext.issued_le
  case root_eq => exact hroot
  case constant =>
    intro x c hx hc
    exact hext.constant hx (((dropKey_sameFrame g e.key _).constant? _).trans hc)
  case represents =>
    intro m id hrep
    obtain ⟨key, e₁, he₁, hkey, ho⟩ := hrep
    by_cases hdropped : key = e.key
    · -- the node that was dropped is represented by the entry that has its canonical
      -- key
      subst hdropped
      rw [he] at he₁
      cases he₁
      have hstored : g'.table.get? (g.canonical e.node).key = some e' := by
        rw [htable, get?_dropKey, if_neg hne]
        exact he'
      refine (represents_of_get? hstored).congr ?_ ?_
      · rw [Node.key_key, canonical, Node.key_map, ← Entry.key, hkey,
          h.map_root hroot]
      · rw [← hjoined]
        exact hroot ((h.root_root _).trans ho)
    · refine hext.represents ⟨key, e₁, ?_, hkey, ho⟩
      rw [get?_dropKey, if_neg hdropped]
      exact he₁

end WellFormed

/-- No step of a repair forgets anything. -/
theorem Step.extends (h : g.WellFormed) (s : Step g g') : Extends g g' := by
  cases s with
  | literal _ _ _ fresh => exact h.extends_issue fresh
  | fold stored _ _ value hx hy union =>
      exact h.extends_unite (lt_of_root_eq h (h.owner_lt value) hx)
        (lt_of_root_eq h (h.owner_lt stored) hy) union
  | move stored free => exact h.extends_restore stored free
  | fuse stored congruent union => exact h.extends_fuse stored congruent union
  | note same _ => exact .of_sameContent same

theorem Steps.extends (h : g.WellFormed) (s : Steps g g') : Extends g g' := by
  induction s with
  | refl => exact .refl g
  | tail s₁ s₂ ih => exact ih.trans (s₂.extends (Steps.wellFormed h s₁))

theorem lt_of_rekey (h : g.WellFormed) (he : g.table.get? e.key = some e) {u : Unit}
    (hr : rekey e (g.canonical e.node) (g.root e.owner) g = .ok u g')
    (hid : id < g.issued) : id < g'.issued :=
  Nat.lt_of_lt_of_le hid ((rekey_steps h he hr).1.extends h).issued_le

end Datapath.EGraph

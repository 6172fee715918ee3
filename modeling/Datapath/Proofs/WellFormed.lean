import Datapath.Proofs.Content

/-!
# Datapath.Proofs.WellFormed

The structural invariant of graphs, and that every change keeps it.

`WellFormed` ties together the forest, the records and the table: every stored node
is a node of exactly one class, that of its owner, and a class with a node that is a
number knows this number. The invariant says nothing about parent lists, nor that
stored nodes have canonical children; both fail while classes wait for repair.

There is one lemma for each change: `issue`, `absorb` (through `unite`), `dropKey`
and `restore`. Changes that keep the content are covered by
`WellFormed.of_sameContent`.
-/

namespace Datapath

/-- The number that a node is by itself. -/
def Node.value? {α : Type} : Node α → Option Binary64
  | literal value => some value
  | sign s => some (.ofNat s.code)
  | _ => none

namespace EGraph

variable {g g' : EGraph} {id w l : ClassId} {key k node : Node ClassId} {e : Entry}

/-- Forest, records and table belong together. -/
structure WellFormed (g : EGraph) : Prop where
  ranked : g.sets.Ranked
  classes_size : g.classes.size = g.issued
  /-- The record of a number bears this number. -/
  id_eq : ∀ {id}, id < g.issued → (g.record id).id = id
  owner_lt : ∀ {key e}, g.table.get? key = some e → e.owner < g.issued
  child_lt : ∀ {key e}, g.table.get? key = some e → ∀ c ∈ key.children, c < g.issued
  /-- A stored node is a node of its owner's class. -/
  mem_nodes : ∀ {key e}, g.table.get? key = some e →
    key ∈ (g.record (g.root e.owner)).nodes
  /-- The nodes of a class are stored, and the class owns them. -/
  stored : ∀ {r key}, g.root r = r → key ∈ (g.record r).nodes →
    ∃ e, g.table.get? key = some e ∧ g.root e.owner = r
  /-- A class with a number among its nodes knows it, up to the sign of a zero. -/
  known : ∀ {key e v}, g.table.get? key = some e → key.value? = some v →
    ∃ c, g.constant? e.owner = some c ∧ c.withoutMinusZero = v.withoutMinusZero
  pending_lt : ∀ p ∈ g.pending, p < g.issued

theorem wellFormed_empty : empty.WellFormed where
  ranked := UnionFind.ranked_empty
  classes_size := rfl
  id_eq h := absurd h (Nat.not_lt_zero _)
  owner_lt h := by simp [empty] at h
  child_lt h := by simp [empty] at h
  mem_nodes h := by simp [empty] at h
  stored _ h := by
    rw [record_of_size_le (Nat.zero_le _)] at h
    exact absurd h not_mem_nodes_default
  known h := by simp [empty] at h
  pending_lt p h := by simp [empty] at h

namespace WellFormed

theorem root_root (h : g.WellFormed) (id : ClassId) :
    g.root (g.root id) = g.root id :=
  UnionFind.root_root h.ranked id

theorem root_lt (h : g.WellFormed) (hid : id < g.issued) : g.root id < g.issued :=
  UnionFind.root_lt h.ranked hid

theorem root_of_le (h : g.WellFormed) (hid : g.issued ≤ id) : g.root id = id :=
  UnionFind.root_of_size_le h.ranked hid

theorem root_ne_issued (h : g.WellFormed) (hid : id < g.issued) :
    g.root id ≠ g.issued :=
  Nat.ne_of_lt (h.root_lt hid)

theorem constant?_root (h : g.WellFormed) (id : ClassId) :
    g.constant? (g.root id) = g.constant? id := by
  rw [constant?, constant?, h.root_root]

theorem key_eq (h : g.table.get? key = some e) : e.key = key :=
  NodeTable.key_of_get? h

theorem root_lt_size (h : g.WellFormed) (hid : id < g.issued) :
    g.root id < g.classes.size := by
  rw [h.classes_size]
  exact h.root_lt hid

/-- Parent lists can change freely, and so can what is pending. -/
theorem of_sameContent (h : g.WellFormed) (hs : SameContent g g')
    (hp : ∀ p ∈ g'.pending, p < g'.issued) : g'.WellFormed where
  ranked := by rw [hs.sets]; exact h.ranked
  classes_size := by rw [hs.classes_size, hs.issued]; exact h.classes_size
  id_eq hid := by rw [hs.issued] at hid; rw [hs.ids]; exact h.id_eq hid
  owner_lt he := by rw [hs.table] at he; rw [hs.issued]; exact h.owner_lt he
  child_lt he := by rw [hs.table] at he; rw [hs.issued]; exact h.child_lt he
  mem_nodes he := by rw [hs.table] at he; rw [hs.root, hs.nodes]; exact h.mem_nodes he
  stored hr hk := by
    rw [hs.root] at hr
    rw [hs.nodes] at hk
    obtain ⟨e, he, ho⟩ := h.stored hr hk
    exact ⟨e, by rw [hs.table]; exact he, by rw [hs.root]; exact ho⟩
  known he hv := by rw [hs.table] at he; rw [hs.constant?]; exact h.known he hv
  pending_lt := hp

theorem of_enlists (h : g.WellFormed) (hs : Enlists g g') : g'.WellFormed :=
  h.of_sameContent hs.toSameContent fun p hp => by
    rw [hs.pending] at hp
    rw [hs.issued]
    exact h.pending_lt p hp

/-! ## A new class -/

theorem constant?_issue (h : g.WellFormed) (node : Node ClassId)
    (hid : id < g.issued) : (g.issue node).constant? id = g.constant? id := by
  rw [constant?, root_issue h.ranked, constant_issue h.classes_size,
    if_neg (h.root_ne_issued hid), constant?]

theorem constant?_issue_new (h : g.WellFormed) (node : Node ClassId) :
    (g.issue node).constant? g.issued = g.fold node := by
  rw [constant?, root_issue h.ranked, h.root_of_le le_rfl,
    constant_issue h.classes_size, if_pos rfl]

/-- A constant was known before, or it is what the new node folds to. -/
theorem constant?_issue_cases (h : g.WellFormed) {c : Binary64}
    (hid : id < (g.issue node).issued) (hc : (g.issue node).constant? id = some c) :
    (id < g.issued ∧ g.constant? id = some c) ∨
    (id = g.issued ∧ g.fold node = some c) := by
  rw [issued_issue] at hid
  rcases Nat.lt_succ_iff_lt_or_eq.1 hid with hlt | rfl
  · rw [h.constant?_issue _ hlt] at hc
    exact Or.inl ⟨hlt, hc⟩
  · rw [h.constant?_issue_new] at hc
    exact Or.inr ⟨rfl, hc⟩

/-- A number folds to itself, up to the sign of a zero. -/
theorem fold_of_value? (g : EGraph) {v : Binary64} (hv : node.key.value? = some v) :
    ∃ c, g.fold node = some c ∧ c.withoutMinusZero = v.withoutMinusZero := by
  cases node with
  | literal value =>
      cases hv
      exact ⟨value, rfl, (Binary64.withoutMinusZero_idem value).symm⟩
  | sign s =>
      have hvs : Binary64.ofNat s.code = v := Option.some.inj hv
      exact ⟨.ofNat s.code, rfl, by rw [hvs]⟩
  | symbol | derived | binary => cases hv

/-- A node that is not stored yet gets a class of its own. -/
theorem issue (h : g.WellFormed) (hnew : g.table.get? node.key = none)
    (hc : ∀ c ∈ node.children, c < g.issued) : (g.issue node).WellFormed where
  ranked := by
    rw [(issue_enlists g node).sets]
    exact UnionFind.ranked_push h.ranked
  classes_size := by
    rw [(issue_enlists g node).classes_size, issued_issue, ← h.classes_size]
    exact Array.size_push _
  id_eq {id} hid := by
    rw [issued_issue] at hid
    rw [id_issue h.classes_size]
    split
    · next hnew => exact hnew.symm
    · next hold => exact h.id_eq (Nat.lt_of_le_of_ne (Nat.le_of_lt_succ hid) hold)
  owner_lt {key e} he := by
    rw [issued_issue]
    rcases get?_issue_inv he with ⟨-, rfl⟩ | he
    · exact Nat.lt_succ_self _
    · exact Nat.lt_succ_of_lt (h.owner_lt he)
  child_lt {key e} he c hmem := by
    rw [issued_issue]
    rcases get?_issue_inv he with ⟨rfl, -⟩ | he
    · rw [Node.children_key] at hmem
      exact Nat.lt_succ_of_lt (hc c hmem)
    · exact Nat.lt_succ_of_lt (h.child_lt he c hmem)
  mem_nodes {key e} he := by
    rw [root_issue h.ranked, nodes_issue h.classes_size]
    rcases get?_issue_inv he with ⟨rfl, rfl⟩ | he
    · rw [if_pos (h.root_of_le le_rfl), KeySet.mem_iff, KeySet.toList_single]
      exact List.mem_singleton_self _
    · rw [if_neg (h.root_ne_issued (h.owner_lt he))]
      exact h.mem_nodes he
  stored {r key} hr hk := by
    rw [root_issue h.ranked] at hr
    rw [nodes_issue h.classes_size] at hk
    split at hk
    · next hri =>
      rw [KeySet.mem_iff, KeySet.toList_single, List.mem_singleton] at hk
      refine ⟨⟨node, g.issued⟩, hk ▸ get?_issue_new g node, ?_⟩
      rw [root_issue h.ranked, ← hri, hr]
    · obtain ⟨e, he, ho⟩ := h.stored hr hk
      -- a node that is stored has another key than the new one
      have hne : key ≠ node.key := fun heq => by
        rw [heq, hnew] at he
        exact absurd he (by simp)
      exact ⟨e, by rw [get?_issue, if_neg hne, he], by rw [root_issue h.ranked, ho]⟩
  known {key e v} he hv := by
    rcases get?_issue_inv he with ⟨rfl, rfl⟩ | he
    · rw [h.constant?_issue_new]
      exact fold_of_value? g hv
    · obtain ⟨c, hc, hcv⟩ := h.known he hv
      exact ⟨c, by rw [h.constant?_issue _ (h.owner_lt he), hc], hcv⟩
  pending_lt p hp := by
    rw [pending_issue] at hp
    exact lt_issue (h.pending_lt p hp) _

/-! ## A union -/

end WellFormed

/-- Two different classes, by their roots, that may be united so that `w` stays a
root. -/
structure Joinable (g : EGraph) (w l : ClassId) : Prop where
  winner_lt : w < g.issued
  loser_lt : l < g.issued
  winner_root : g.root w = w
  loser_root : g.root l = l
  ne : w ≠ l
  rank_le : g.sets.rank l ≤ g.sets.rank w
  agree : g.conflict? w l = none

namespace Joinable

/-- Where both classes know a number it is the same, up to the sign of a zero. -/
theorem constants (hj : Joinable g w l) {a b : Binary64}
    (ha : (g.record w).constant = some a) (hb : (g.record l).constant = some b) :
    a.withoutMinusZero = b.withoutMinusZero := by
  have h := hj.agree
  rw [conflict?, ha, hb] at h
  dsimp only at h
  split at h
  · next heq => exact Binary64.withoutMinusZero_eq_of_numEq heq
  · cases h

theorem ranked (h : g.WellFormed) (hj : Joinable g w l) : (g.sets.link w l).Ranked :=
  UnionFind.ranked_link h.ranked hj.winner_lt hj.loser_lt hj.ne
    (UnionFind.parent_of_root_eq h.ranked hj.winner_root) hj.rank_le

/-- The members of the loser's class get the winner as their root. -/
theorem root (h : g.WellFormed) (hj : Joinable g w l) (id : ClassId) :
    (g.absorb w l).root id = if g.root id = l then w else g.root id :=
  UnionFind.root_link h.ranked hj.loser_lt hj.ne
    (UnionFind.parent_of_root_eq h.ranked hj.winner_root)
    (UnionFind.parent_of_root_eq h.ranked hj.loser_root) (hj.ranked h) id

theorem root_of_ne (h : g.WellFormed) (hj : Joinable g w l) (hid : g.root id ≠ l) :
    (g.absorb w l).root id = g.root id := by
  rw [hj.root h, if_neg hid]

theorem root_winner (h : g.WellFormed) (hj : Joinable g w l) :
    (g.absorb w l).root w = w := by
  rw [hj.root_of_ne h (by rw [hj.winner_root]; exact hj.ne), hj.winner_root]

/-- A root after the union was one before, and not the loser. -/
theorem root_before (h : g.WellFormed) (hj : Joinable g w l) {r : ClassId}
    (hr : (g.absorb w l).root r = r) : g.root r = r ∧ r ≠ l := by
  rw [hj.root h] at hr
  split at hr
  · next hrl =>
    subst hr
    exact absurd (hrl.symm.trans hj.winner_root) hj.ne.symm
  · next hrl => exact ⟨hr, fun heq => hrl (hr.trans heq)⟩

theorem winner_lt_size (h : g.WellFormed) (hj : Joinable g w l) :
    w < g.classes.size := by
  rw [h.classes_size]
  exact hj.winner_lt

theorem constant?_winner (h : g.WellFormed) (hj : Joinable g w l) :
    (g.absorb w l).constant? w = (g.record w).constant.or (g.record l).constant := by
  rw [constant?, hj.root_winner h, record_absorb (hj.winner_lt_size h), if_pos rfl]

/-- Classes that take no part in a union keep their constants. -/
theorem constant?_of_ne (h : g.WellFormed) (hj : Joinable g w l) (hw : g.root id ≠ w)
    (hl : g.root id ≠ l) : (g.absorb w l).constant? id = g.constant? id := by
  rw [constant?, hj.root_of_ne h hl, record_absorb (hj.winner_lt_size h),
    if_neg hw, constant?]

/-- What a class knows it still knows after a union, up to the sign of a zero. -/
theorem constant?_absorb (h : g.WellFormed) (hj : Joinable g w l) {c : Binary64}
    (hc : g.constant? id = some c) :
    ∃ d, (g.absorb w l).constant? id = some d ∧
      d.withoutMinusZero = c.withoutMinusZero := by
  by_cases hw : g.root id = w
  · have hcw : (g.record w).constant = some c := by rw [← hw]; exact hc
    refine ⟨c, ?_, rfl⟩
    rw [constant?, hj.root_of_ne h (by rw [hw]; exact hj.ne), hw,
      record_absorb (hj.winner_lt_size h), if_pos rfl, hcw]
    rfl
  · by_cases hl : g.root id = l
    · have hcl : (g.record l).constant = some c := by rw [← hl]; exact hc
      have hroot : (g.absorb w l).root id = (g.absorb w l).root w := by
        rw [hj.root_winner h, hj.root h, if_pos hl]
      rw [constant?, hroot, ← constant?, hj.constant?_winner h, hcl]
      -- the winner's own constant, if it has one, is the same number
      cases hcw : (g.record w).constant with
      | none => exact ⟨c, rfl, rfl⟩
      | some a => exact ⟨a, rfl, hj.constants hcw hcl⟩
    · exact ⟨c, by rw [hj.constant?_of_ne h hw hl, hc], rfl⟩

end Joinable

/-- What a successful union does: nothing if the classes are the same, and otherwise
one absorbs the other. -/
theorem unite_cases (h : g.WellFormed) {a b r : ClassId} (ha : a < g.issued)
    (hb : b < g.issued) (hu : unite a b g = .ok r g') :
    (g.root a = g.root b ∧ g' = g ∧ r = g.root a) ∨
      ∃ w l, Joinable g w l ∧ g' = g.absorb w l ∧ r = w ∧
        ((g.root a = w ∧ g.root b = l) ∨ (g.root a = l ∧ g.root b = w)) := by
  unfold unite at hu
  dsimp only at hu
  by_cases hroots : g.root a = g.root b
  · rw [if_pos hroots] at hu
    cases hu
    exact Or.inl ⟨hroots, rfl, rfl⟩
  · rw [if_neg hroots] at hu
    right
    rcases UnionFind.order_cases g.sets (g.root a) (g.root b) with
      ⟨ho, hrank⟩ | ⟨ho, hrank⟩
    · rw [ho] at hu
      dsimp only at hu
      split at hu
      · cases hu
      · next hnone =>
        cases hu
        exact ⟨_, _, ⟨h.root_lt ha, h.root_lt hb, h.root_root a, h.root_root b,
          hroots, hrank, hnone⟩, rfl, rfl, Or.inl ⟨rfl, rfl⟩⟩
    · rw [ho] at hu
      dsimp only at hu
      split at hu
      · cases hu
      · next hnone =>
        cases hu
        exact ⟨_, _, ⟨h.root_lt hb, h.root_lt ha, h.root_root b, h.root_root a,
          Ne.symm hroots, hrank, hnone⟩, rfl, rfl, Or.inr ⟨rfl, rfl⟩⟩

namespace WellFormed

/-- A union of two classes that agree keeps a graph well-formed: the nodes of the
loser, and its constant, go over to the winner. -/
theorem absorb (h : g.WellFormed) (hj : Joinable g w l) :
    (g.absorb w l).WellFormed where
  ranked := by
    rw [sets_absorb]
    exact hj.ranked h
  classes_size := by rw [classes_size_absorb, issued_absorb, h.classes_size]
  id_eq {id} hid := by
    rw [issued_absorb] at hid
    rw [record_absorb (hj.winner_lt_size h)]
    split
    · next hw =>
      rw [hw]
      exact h.id_eq hj.winner_lt
    · exact h.id_eq hid
  owner_lt he := by
    rw [issued_absorb]
    exact h.owner_lt he
  child_lt he c hc := by
    rw [issued_absorb]
    exact h.child_lt he c hc
  mem_nodes {key e} he := by
    have hmem := h.mem_nodes he
    rw [record_absorb (hj.winner_lt_size h), hj.root h]
    by_cases hl : g.root e.owner = l
    · rw [if_pos hl, if_pos rfl, KeySet.mem_union]
      exact Or.inr (by rw [← hl]; exact hmem)
    · rw [if_neg hl]
      by_cases hw : g.root e.owner = w
      · rw [if_pos hw, KeySet.mem_union]
        exact Or.inl (by rw [← hw]; exact hmem)
      · rw [if_neg hw]
        exact hmem
  stored {r key} hr hk := by
    obtain ⟨hr0, hrl⟩ := hj.root_before h hr
    rw [record_absorb (hj.winner_lt_size h)] at hk
    split at hk
    · next hrw =>
      rcases KeySet.mem_union.1 hk with hk | hk
      · obtain ⟨e, he, ho⟩ := h.stored hj.winner_root hk
        exact ⟨e, he, by rw [hj.root_of_ne h (by rw [ho]; exact hj.ne), ho, hrw]⟩
      · obtain ⟨e, he, ho⟩ := h.stored hj.loser_root hk
        exact ⟨e, he, by rw [hj.root h, if_pos ho, hrw]⟩
    · obtain ⟨e, he, ho⟩ := h.stored hr0 hk
      exact ⟨e, he, by rw [hj.root_of_ne h (by rw [ho]; exact hrl), ho]⟩
  known he hv := by
    obtain ⟨c, hc, hcv⟩ := h.known he hv
    obtain ⟨d, hd, hdc⟩ := hj.constant?_absorb h hc
    exact ⟨d, hd, hdc.trans hcv⟩
  pending_lt p hp := by
    rw [pending_absorb] at hp
    rw [issued_absorb]
    rcases Array.mem_push.1 hp with hp | rfl
    · exact h.pending_lt p hp
    · exact hj.winner_lt

theorem unite (h : g.WellFormed) {a b r : ClassId} (ha : a < g.issued)
    (hb : b < g.issued) (hu : unite a b g = .ok r g') : g'.WellFormed := by
  rcases unite_cases h ha hb hu with ⟨-, rfl, -⟩ | ⟨w, l, hj, rfl, -⟩
  · exact h
  · exact h.absorb hj

/-! ## A stored node that goes or is stored anew -/

/-- A key is among the nodes of no class but its owner's. -/
theorem ne_of_mem_nodes (h : g.WellFormed)
    (he : g.table.get? e.key = some e) {r : ClassId}
    (hr : g.root r = r) (hne : r ≠ g.root e.owner) (hk : k ∈ (g.record r).nodes) :
    k ≠ e.key := by
  intro heq
  obtain ⟨e', he', ho⟩ := h.stored hr hk
  rw [heq, he] at he'
  cases he'
  exact hne ho.symm

/-- A stored node can be dropped from the table and its class. -/
theorem dropKey (h : g.WellFormed) (he : g.table.get? e.key = some e) :
    (g.dropKey e.key (g.root e.owner)).WellFormed where
  ranked := h.ranked
  classes_size := (dropKey_sameFrame g e.key _).classes_size.trans h.classes_size
  id_eq hid := ((dropKey_sameFrame g e.key _).ids _).trans (h.id_eq hid)
  owner_lt he' := h.owner_lt (get?_dropKey_inv he').2
  child_lt he' := h.child_lt (get?_dropKey_inv he').2
  mem_nodes {k e'} he' := by
    obtain ⟨hk, he'⟩ := get?_dropKey_inv he'
    exact (mem_nodes_dropKey (h.root_lt_size (h.owner_lt he)) _ _ _).2
      ⟨h.mem_nodes he', fun _ => hk⟩
  stored {r k} hr hk := by
    have hr0 : g.root r = r := hr
    rw [mem_nodes_dropKey (h.root_lt_size (h.owner_lt he))] at hk
    have hne : k ≠ e.key := by
      by_cases hroot : r = g.root e.owner
      · exact hk.2 hroot
      · exact h.ne_of_mem_nodes he hr0 hroot hk.1
    obtain ⟨e', he', ho⟩ := h.stored hr0 hk.1
    exact ⟨e', by rw [get?_dropKey, if_neg hne, he'], ho⟩
  known {k e' v} he' hv := by
    obtain ⟨c, hc, hcv⟩ := h.known (get?_dropKey_inv he').2 hv
    exact ⟨c, ((dropKey_sameFrame g e.key _).constant? _).trans hc, hcv⟩
  pending_lt := h.pending_lt

/-- A node that is stored again is listed under its new key, and nothing else
changes. -/
theorem mem_nodes_restore_iff (h : g.WellFormed) (he : g.table.get? e.key = some e)
    (hfree : g.congruent? e node = none) {r : ClassId} (hr : g.root r = r) :
    k ∈ ((g.restore e node (g.root e.owner)).record r).nodes ↔
      (k = node.key ∧ r = g.root e.owner) ∨
        (k ≠ node.key ∧ k ≠ e.key ∧ k ∈ (g.record r).nodes) := by
  rw [mem_nodes_restore (h.root_lt_size (h.owner_lt he)) (h.mem_nodes he)]
  by_cases hro : r = g.root e.owner
  · rw [if_pos hro, ← hro]
    by_cases hk : k = node.key <;> simp [hk, and_comm]
  · rw [if_neg hro]
    constructor
    · intro hk
      have hne : k ≠ e.key := h.ne_of_mem_nodes he hr hro hk
      obtain ⟨e', he', -⟩ := h.stored hr hk
      refine Or.inr ⟨fun heq => ?_, hne, hk⟩
      -- the new key is free unless it is the old one
      rcases congruent?_eq_none hfree with hsame | hnone
      · exact hne (heq.trans hsame)
      · rw [heq, hnone] at he'
        cases he'
    · rintro (⟨-, hr'⟩ | ⟨-, -, hk⟩)
      · exact absurd hr' hro
      · exact hk

theorem value?_canonical (g : EGraph) (node : Node ClassId) :
    (g.canonical node).key.value? = node.key.value? := by
  rw [canonical, Node.key_map]
  cases node.key <;> rfl

/-- A stored node can be stored again with canonical children, by the root of its
owner, unless the new key is that of another stored node. -/
theorem restore (h : g.WellFormed) (he : g.table.get? e.key = some e)
    (hfree : g.congruent? e (g.canonical e.node) = none) :
    (g.restore e (g.canonical e.node) (g.root e.owner)).WellFormed := by
  have howner := h.owner_lt he
  have hframe := restore_sameFrame g e (g.canonical e.node) (g.root e.owner)
  constructor
  case ranked => rw [hframe.sets]; exact h.ranked
  case classes_size => rw [hframe.classes_size, hframe.issued]; exact h.classes_size
  case id_eq =>
    intro id hid
    rw [hframe.issued] at hid
    rw [hframe.ids]
    exact h.id_eq hid
  case owner_lt =>
    intro k e' he'
    rw [hframe.issued]
    rcases get?_restore_inv he he' with ⟨-, rfl⟩ | ⟨-, -, he'⟩
    · exact h.root_lt howner
    · exact h.owner_lt he'
  case child_lt =>
    intro k e' he' c hc
    rw [hframe.issued]
    rcases get?_restore_inv he he' with ⟨rfl, -⟩ | ⟨-, -, he'⟩
    · rw [Node.children_key, canonical, Node.children_map] at hc
      obtain ⟨d, hd, rfl⟩ := List.mem_map.1 hc
      rw [← Node.children_key, ← Entry.key] at hd
      exact h.root_lt (h.child_lt he d hd)
    · exact h.child_lt he' c hc
  case mem_nodes =>
    intro k e' he'
    rw [hframe.root, h.mem_nodes_restore_iff he hfree (h.root_root _)]
    rcases get?_restore_inv he he' with ⟨rfl, rfl⟩ | ⟨hnew, hold, he'⟩
    · exact Or.inl ⟨rfl, h.root_root _⟩
    · exact Or.inr ⟨hnew, hold, h.mem_nodes he'⟩
  case stored =>
    intro r k hr hk
    rw [hframe.root] at hr
    rcases (h.mem_nodes_restore_iff he hfree hr).1 hk with
      ⟨rfl, rfl⟩ | ⟨hnew, hold, hk⟩
    · refine ⟨⟨g.canonical e.node, g.root e.owner⟩,
        by rw [get?_restore he, if_pos rfl], ?_⟩
      rw [hframe.root, h.root_root]
    · obtain ⟨e', he', ho⟩ := h.stored hr hk
      refine ⟨e', ?_, by rw [hframe.root, ho]⟩
      rw [get?_restore he, if_neg hnew, if_neg hold, he']
  case known =>
    intro k e' v he' hv
    rw [hframe.constant?]
    rcases get?_restore_inv he he' with ⟨rfl, rfl⟩ | ⟨-, -, he'⟩
    · rw [value?_canonical] at hv
      obtain ⟨c, hc, hcv⟩ := h.known he hv
      exact ⟨c, by rw [h.constant?_root, hc], hcv⟩
    · exact h.known he' hv
  case pending_lt =>
    rw [hframe.pending, hframe.issued]
    exact h.pending_lt

end WellFormed

end EGraph

end Datapath

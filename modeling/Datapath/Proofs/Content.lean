import Datapath.Graph.Rebuild
import Datapath.Proofs.Forest

/-!
# Datapath.Proofs.Content

What each change of a graph does to what can be read off it.

A graph is read through `root`, `record`, the look-up in its table, and the list of
pending classes. This module says for every change (`enlist`, `issue`, `absorb`,
`dropKey`, `restore`) how these views look afterwards, so that later proofs open no
definition of a change again.

Most changes of the parent lists alter nothing else. `SameContent` says that two
graphs differ at most in their parent lists and in what is pending.
-/

namespace Datapath

/-! ## Keys -/

namespace Binary64

@[simp] theorem withoutMinusZero_idem (x : Binary64) :
    x.withoutMinusZero.withoutMinusZero = x.withoutMinusZero := by
  unfold withoutMinusZero
  split
  · decide +kernel
  · rfl

theorem withoutMinusZero_of_ne {x : Binary64} (h : x ≠ zero true) :
    x.withoutMinusZero = x :=
  if_neg h

theorem withoutMinusZero_finite_zero (s : Bool) (h : Fits 0) :
    (finite s 0 h).withoutMinusZero = zero false := by
  cases s with
  | false => exact withoutMinusZero_of_ne (by simp [zero])
  | true => exact if_pos rfl

/-- A finite value lies below the bound of the format. -/
theorem level_finite_ne_infinity (s t : Bool) {a : Nat} (ha : Fits a) :
    (finite s a ha).level ≠ (infinity t).level := by
  intro h
  have hlt : (a : Int) < limit := Int.ofNat_lt.2 ha.1
  have hlevel : (if s then -(a : Int) else a) =
      if t then -(limit : Int) else limit :=
    Option.some.inj h
  generalize (limit : Int) = l at hlt hlevel
  split at hlevel <;> split at hlevel <;> omega

/-- A level determines a value up to the sign of a zero. The three kinds of values
have different levels; within each kind the level is a signed number, from which sign
and size can be read unless it is zero. -/
theorem withoutMinusZero_eq_of_level {x y : Binary64} (h : x.level = y.level) :
    x.withoutMinusZero = y.withoutMinusZero := by
  cases x with
  | nan =>
      cases y with
      | nan => rfl
      | infinity | finite => cases h
  | infinity s =>
      cases y with
      | nan => cases h
      | infinity t =>
          have hlim : (0 : Int) < limit := Int.natCast_pos.2 limit_pos
          have hlevel : (if s then -(limit : Int) else limit) =
              if t then -(limit : Int) else limit :=
            Option.some.inj h
          generalize (limit : Int) = l at hlim hlevel
          have hst : s = t := by
            cases s <;> cases t <;> simp at hlevel ⊢ <;> omega
          rw [hst]
      | finite t b hb => exact absurd h.symm (level_finite_ne_infinity t s hb)
  | finite s a ha =>
      cases y with
      | nan => cases h
      | infinity t => exact absurd h (level_finite_ne_infinity s t ha)
      | finite t b hb =>
          have hlevel : (if s then -(a : Int) else a) =
              if t then -(b : Int) else b :=
            Option.some.inj h
          by_cases hst : s = t
          · subst hst
            have hab : a = b := by split at hlevel <;> omega
            subst hab
            rfl
          · -- opposite signs: both are zero
            have hab : a = 0 ∧ b = 0 := by
              cases s <;> cases t <;> simp at hlevel hst ⊢ <;> omega
            obtain ⟨rfl, rfl⟩ := hab
            rw [withoutMinusZero_finite_zero, withoutMinusZero_finite_zero]

/-- Two values that compare equal differ at most in the sign of a zero. -/
theorem withoutMinusZero_eq_of_numEq {x y : Binary64} (h : x.numEq y = true) :
    x.withoutMinusZero = y.withoutMinusZero := by
  refine withoutMinusZero_eq_of_level ?_
  unfold numEq compares at h
  split at h
  · next a b ha hb => rw [ha, hb, of_decide_eq_true h]
  · cases h

end Binary64

namespace Node

variable {α β : Type}

@[simp] theorem key_key (node : Node α) : node.key.key = node.key := by
  cases node <;> simp [key]

@[simp] theorem children_key (node : Node α) :
    node.key.children = node.children := by
  cases node <;> rfl

@[simp] theorem key_map (f : α → β) (node : Node α) :
    (node.map f).key = node.key.map f := by
  cases node <;> rfl

@[simp] theorem children_map (f : α → β) (node : Node α) :
    (node.map f).children = node.children.map f := by
  cases node <;> rfl

theorem map_map {γ : Type} (f : α → β) (h : β → γ) (node : Node α) :
    (node.map f).map h = node.map (h ∘ f) := by
  cases node <;> rfl

theorem map_congr {f h : α → β} {node : Node α}
    (heq : ∀ c ∈ node.children, f c = h c) :
    node.map f = node.map h := by
  cases node <;> simp_all [map, children]

theorem map_id_of {f : α → α} {node : Node α} (heq : ∀ c ∈ node.children, f c = c) :
    node.map f = node := by
  cases node <;> simp_all [map, children]

end Node

@[simp] theorem Entry.key_mk (node : Node ClassId) (owner : ClassId) :
    (⟨node, owner⟩ : Entry).key = node.key :=
  rfl

namespace EGraph

variable {g g' g'' : EGraph} {id w l : ClassId} {key k : Node ClassId}
  {node : Node ClassId}

/-! ## Records -/

/-- Changing the record of one number leaves those of the others alone. -/
theorem record_modifyRecord (g : EGraph) (id : ClassId) (f : EClass → EClass)
    (j : ClassId) : (g.modifyRecord id f).record j =
      if j = id ∧ id < g.classes.size then f (g.record j) else g.record j := by
  simp only [record, modifyRecord, Array.getD_eq_getD_getElem?,
    Array.getElem?_modify]
  by_cases hj : id = j
  · subst hj
    by_cases hlt : id < g.classes.size
    · simp [hlt]
    · simp [hlt]
  · rw [if_neg hj, if_neg fun h => hj h.1.symm]

theorem record_of_size_le (h : g.classes.size ≤ id) : g.record id = default := by
  have hnone : g.classes[id]? = none := Array.getElem?_eq_none h
  rw [record, Array.getD_eq_getD_getElem?, hnone, Option.getD_none]

theorem not_mem_nodes_default : k ∉ (default : EClass).nodes := by
  intro h
  rw [show (default : EClass).nodes = KeySet.empty from rfl, KeySet.mem_iff,
    KeySet.toList_empty] at h
  exact absurd h List.not_mem_nil

/-! ## Parent lists -/

/-- The two graphs differ at most in their parent lists and in what is pending. -/
structure SameContent (g g' : EGraph) : Prop where
  sets : g'.sets = g.sets
  table : g'.table = g.table
  classes_size : g'.classes.size = g.classes.size
  ids : ∀ id, (g'.record id).id = (g.record id).id
  nodes : ∀ id, (g'.record id).nodes = (g.record id).nodes
  constant : ∀ id, (g'.record id).constant = (g.record id).constant

namespace SameContent

theorem refl (g : EGraph) : SameContent g g :=
  ⟨rfl, rfl, rfl, fun _ => rfl, fun _ => rfl, fun _ => rfl⟩

theorem trans (h : SameContent g g') (h' : SameContent g' g'') :
    SameContent g g'' where
  sets := h'.sets.trans h.sets
  table := h'.table.trans h.table
  classes_size := h'.classes_size.trans h.classes_size
  ids id := (h'.ids id).trans (h.ids id)
  nodes id := (h'.nodes id).trans (h.nodes id)
  constant id := (h'.constant id).trans (h.constant id)

theorem root (h : SameContent g g') (id : ClassId) : g'.root id = g.root id := by
  rw [EGraph.root, EGraph.root, h.sets]

theorem issued (h : SameContent g g') : g'.issued = g.issued := by
  rw [EGraph.issued, EGraph.issued, h.sets]

theorem constant? (h : SameContent g g') (id : ClassId) :
    g'.constant? id = g.constant? id := by
  rw [EGraph.constant?, EGraph.constant?, h.root, h.constant]

end SameContent

/-- The second graph is the first with keys added to its parent lists. -/
structure Enlists (g g' : EGraph) : Prop extends SameContent g g' where
  pending : g'.pending = g.pending
  parents : ∀ {id k}, k ∈ (g.record id).parents → k ∈ (g'.record id).parents

namespace Enlists

theorem refl (g : EGraph) : Enlists g g := ⟨.refl g, rfl, id⟩

theorem trans (h : Enlists g g') (h' : Enlists g' g'') : Enlists g g'' where
  toSameContent := h.toSameContent.trans h'.toSameContent
  pending := h'.pending.trans h.pending
  parents hk := h'.parents (h.parents hk)

/-- A fold of changes that only add parents only adds parents. -/
theorem foldl {α : Type} {f : EGraph → α → EGraph}
    (h : ∀ g a, Enlists g (f g a)) (xs : List α)
    (g : EGraph) : Enlists g (xs.foldl f g) := by
  induction xs generalizing g with
  | nil => exact .refl g
  | cons a rest ih => exact (h g a).trans (ih (f g a))

end Enlists

/-- Listing a key with one child changes no more than one parent list. -/
theorem enlistAt_enlists (code : Nat) (key : Node ClassId) (g : EGraph)
    (c : ClassId) : Enlists g (enlistAt code key g c) := by
  unfold enlistAt
  dsimp only
  split
  · exact .refl g
  · refine ⟨⟨rfl, rfl, ?_, ?_, ?_, ?_⟩, rfl, ?_⟩
    · simp [modifyRecord]
    · intro id
      rw [record_modifyRecord]
      split <;> rfl
    · intro id
      rw [record_modifyRecord]
      split <;> rfl
    · intro id
      rw [record_modifyRecord]
      split <;> rfl
    · -- keys are added at the end, so those that were listed still are
      intro id k hk
      rw [record_modifyRecord]
      split
      · rw [KeySet.mem_iff, KeySet.toList_push]
        exact List.mem_append_left _ hk
      · exact hk

theorem enlist_enlists (g : EGraph) (key : Node ClassId) :
    Enlists g (g.enlist key) :=
  Enlists.foldl (enlistAt_enlists key.code key) key.children g

/-- The key is listed with the class of the child, whether it was already or not. -/
theorem mem_parents_enlistAt {c : ClassId} (hlt : g.root c < g.classes.size) :
    key ∈ ((enlistAt key.code key g c).record (g.root c)).parents := by
  unfold enlistAt
  dsimp only
  split
  · next h => exact KeySet.contains_iff.1 (by simpa using h)
  · rw [record_modifyRecord, if_pos ⟨rfl, hlt⟩, KeySet.mem_iff, KeySet.toList_push]
    simp

/-- The key is listed with the class of each of its children. -/
theorem mem_parents_enlist {c : ClassId} (hc : c ∈ key.children)
    (hlt : g.root c < g.classes.size) :
    key ∈ ((g.enlist key).record (g.root c)).parents := by
  unfold enlist
  generalize key.children = cs at hc
  induction cs generalizing g with
  | nil => exact absurd hc List.not_mem_nil
  | cons d rest ih =>
      have hfirst := enlistAt_enlists key.code key g d
      rw [List.foldl_cons]
      rcases List.mem_cons.1 hc with rfl | hc
      · exact (Enlists.foldl (enlistAt_enlists key.code key) rest _).parents
          (mem_parents_enlistAt hlt)
      · rw [← hfirst.root c]
        exact ih (by rw [hfirst.root, hfirst.classes_size]; exact hlt) hc

/-- Keys that are not stored are left out. -/
theorem enlistStored_enlists (g : EGraph) (key : Node ClassId) :
    Enlists g (g.enlistStored key) := by
  unfold enlistStored
  dsimp only
  split
  · exact Enlists.foldl (enlistAt_enlists key.code key) key.children g
  · exact .refl g

theorem relist_enlists (g : EGraph) (id : ClassId) : Enlists g (g.relist id) :=
  Enlists.foldl enlistStored_enlists _ g

/-! ## A new class -/

/-- Listing the new key is all that `issue` does beyond filing it. -/
theorem issue_enlists (g : EGraph) (node : Node ClassId) :
    Enlists
      { g with
        sets := g.sets.push
        classes := g.classes.push ⟨g.issued, .single node.key, .empty, g.fold node⟩
        table := g.table.insert ⟨node, g.issued⟩ }
      (g.issue node) :=
  enlist_enlists _ node.key

theorem issued_issue (g : EGraph) (node : Node ClassId) :
    (g.issue node).issued = g.issued + 1 := by
  rw [(issue_enlists g node).issued]
  exact UnionFind.size_push g.sets

theorem issued_lt_issue (g : EGraph) (node : Node ClassId) :
    g.issued < (g.issue node).issued := by
  rw [issued_issue]
  exact Nat.lt_succ_self _

theorem lt_issue (h : id < g.issued) (node : Node ClassId) :
    id < (g.issue node).issued :=
  Nat.lt_trans h (issued_lt_issue g node)

/-- The new member is its own root, as its number is of itself beyond the end of the
forest. -/
theorem root_issue (h : g.sets.Ranked) (node : Node ClassId) (id : ClassId) :
    (g.issue node).root id = g.root id := by
  rw [(issue_enlists g node).root]
  exact UnionFind.root_push h id

/-- The table gets one entry, under the key of the node. -/
theorem get?_issue (g : EGraph) (node k : Node ClassId) :
    (g.issue node).table.get? k =
      if k = node.key then some ⟨node, g.issued⟩ else g.table.get? k := by
  rw [(issue_enlists g node).table]
  exact NodeTable.get?_insert _ _ _

theorem get?_issue_new (g : EGraph) (node : Node ClassId) :
    (g.issue node).table.get? node.key = some ⟨node, g.issued⟩ := by
  rw [get?_issue, if_pos rfl]

/-- What is stored after a new class is the new node or was stored before. -/
theorem get?_issue_inv {e : Entry} (he : (g.issue node).table.get? k = some e) :
    (k = node.key ∧ e = ⟨node, g.issued⟩) ∨ g.table.get? k = some e := by
  rw [get?_issue] at he
  split at he
  · next hk => exact Or.inl ⟨hk, (Option.some.inj he).symm⟩
  · exact Or.inr he

theorem pending_issue (g : EGraph) (node : Node ClassId) :
    (g.issue node).pending = g.pending :=
  (issue_enlists g node).pending

/-- The record that `issue` files, before the key is listed. -/
theorem record_push (hsize : g.classes.size = g.issued) (c : EClass) (u : UnionFind)
    (t : NodeTable) (j : ClassId) :
    ({ g with sets := u, classes := g.classes.push c, table := t } : EGraph).record
      j = if j = g.issued then c else g.record j := by
  simp only [record, Array.getD_eq_getD_getElem?, Array.getElem?_push, hsize]
  split <;> rfl

theorem id_issue (hsize : g.classes.size = g.issued) (node : Node ClassId)
    (j : ClassId) : ((g.issue node).record j).id =
      if j = g.issued then g.issued else (g.record j).id := by
  rw [(issue_enlists g node).ids, record_push hsize]
  split <;> rfl

theorem nodes_issue (hsize : g.classes.size = g.issued) (node : Node ClassId)
    (j : ClassId) : ((g.issue node).record j).nodes =
      if j = g.issued then .single node.key else (g.record j).nodes := by
  rw [(issue_enlists g node).nodes, record_push hsize]
  split <;> rfl

theorem constant_issue (hsize : g.classes.size = g.issued) (node : Node ClassId)
    (j : ClassId) : ((g.issue node).record j).constant =
      if j = g.issued then g.fold node else (g.record j).constant := by
  rw [(issue_enlists g node).constant, record_push hsize]
  split <;> rfl

theorem mem_parents_issue (hsize : g.classes.size = g.issued) (node : Node ClassId)
    {j : ClassId} (hj : j ≠ g.issued) (hk : k ∈ (g.record j).parents) :
    k ∈ ((g.issue node).record j).parents := by
  refine (issue_enlists g node).parents ?_
  rw [record_push hsize, if_neg hj]
  exact hk

/-! ## A union -/

theorem sets_absorb (g : EGraph) (w l : ClassId) :
    (g.absorb w l).sets = g.sets.link w l := rfl

theorem table_absorb (g : EGraph) (w l : ClassId) :
    (g.absorb w l).table = g.table := rfl

theorem pending_absorb (g : EGraph) (w l : ClassId) :
    (g.absorb w l).pending = g.pending.push w :=
  rfl

theorem issued_absorb (g : EGraph) (w l : ClassId) :
    (g.absorb w l).issued = g.issued :=
  UnionFind.size_link g.sets w l

theorem classes_size_absorb (g : EGraph) (w l : ClassId) :
    (g.absorb w l).classes.size = g.classes.size := by
  simp [absorb, modifyRecord]

/-- The winner gets the nodes, parents and constant of the loser. The record of the
loser stays as it was, but it is no longer that of a root. -/
theorem record_absorb (hw : w < g.classes.size) (l j : ClassId) :
    (g.absorb w l).record j =
      if j = w then
        { g.record w with
          nodes := (g.record w).nodes.union (g.record l).nodes
          parents := (g.record w).parents.union (g.record l).parents
          constant := (g.record w).constant.or (g.record l).constant }
      else g.record j := by
  have h := record_modifyRecord g w (fun c =>
    { c with
      nodes := c.nodes.union (g.record l).nodes
      parents := c.parents.union (g.record l).parents
      constant := c.constant.or (g.record l).constant }) j
  by_cases hj : j = w
  · rw [if_pos ⟨hj, hw⟩, hj] at h
    rw [if_pos hj, ← h, hj]
    rfl
  · rw [if_neg fun hc => hj hc.1] at h
    rw [if_neg hj]
    exact h

/-! ## A stored node that goes or is stored anew -/

/-- A congruent entry is stored under the new key of the node, which is not the old
one. -/
theorem congruent?_inv {entry e : Entry} (h : g.congruent? entry node = some e) :
    node.key ≠ entry.key ∧ g.table.get? node.key = some e := by
  unfold congruent? at h
  split at h
  · cases h
  · next hne => exact ⟨by rwa [Node.same_iff] at hne, h⟩

/-- If there is none, the node may be stored under its new key. -/
theorem congruent?_eq_none {entry : Entry} (h : g.congruent? entry node = none) :
    node.key = entry.key ∨ g.table.get? node.key = none := by
  unfold congruent? at h
  split at h
  · next heq => exact Or.inl (Node.same_iff.1 heq)
  · exact Or.inr h

/-- The two graphs differ at most in their tables and in the nodes that their classes
list. -/
structure SameFrame (g g' : EGraph) : Prop where
  sets : g'.sets = g.sets
  pending : g'.pending = g.pending
  classes_size : g'.classes.size = g.classes.size
  ids : ∀ id, (g'.record id).id = (g.record id).id
  parents : ∀ id, (g'.record id).parents = (g.record id).parents
  constant : ∀ id, (g'.record id).constant = (g.record id).constant

namespace SameFrame

theorem root (h : SameFrame g g') (id : ClassId) : g'.root id = g.root id := by
  rw [EGraph.root, EGraph.root, h.sets]

theorem issued (h : SameFrame g g') : g'.issued = g.issued := by
  rw [EGraph.issued, EGraph.issued, h.sets]

theorem constant? (h : SameFrame g g') (id : ClassId) :
    g'.constant? id = g.constant? id := by
  rw [EGraph.constant?, EGraph.constant?, h.root, h.constant]

end SameFrame

/-- A node that goes changes the table and the node list of its class. -/
theorem dropKey_sameFrame (g : EGraph) (key : Node ClassId) (owner : ClassId) :
    SameFrame g (g.dropKey key owner) := by
  refine ⟨rfl, rfl, by
    simp [dropKey, modifyRecord], fun j => ?_, fun j => ?_, fun j => ?_⟩
  · refine (congrArg EClass.id (record_modifyRecord g owner _ j)).trans ?_
    split <;> rfl
  · refine (congrArg EClass.parents (record_modifyRecord g owner _ j)).trans ?_
    split <;> rfl
  · refine (congrArg EClass.constant (record_modifyRecord g owner _ j)).trans ?_
    split <;> rfl

/-- The class of the owner no longer lists the key. -/
theorem mem_nodes_dropKey {owner : ClassId} (hlt : owner < g.classes.size)
    (key k : Node ClassId) (j : ClassId) :
    k ∈ ((g.dropKey key owner).record j).nodes ↔
      k ∈ (g.record j).nodes ∧ (j = owner → k ≠ key) := by
  have h :=
    record_modifyRecord g owner (fun c => { c with nodes := c.nodes.remove key }) j
  by_cases hj : j = owner
  · rw [if_pos ⟨hj, hlt⟩] at h
    refine (iff_of_eq (congrArg (k ∈ EClass.nodes ·) h)).trans ?_
    rw [KeySet.mem_remove]
    exact and_congr_right' ⟨fun hk _ => hk, fun hk => hk hj⟩
  · rw [if_neg fun hc => hj hc.1] at h
    refine (iff_of_eq (congrArg (k ∈ EClass.nodes ·) h)).trans ?_
    exact ⟨fun hk => ⟨hk, fun heq => absurd heq hj⟩, And.left⟩

theorem get?_dropKey (g : EGraph) (key : Node ClassId) (owner : ClassId)
    (k : Node ClassId) :
    (g.dropKey key owner).table.get? k = if k = key then none else g.table.get? k :=
  NodeTable.get?_erase _ _ _

theorem get?_dropKey_inv {owner : ClassId} {e : Entry}
    (he : (g.dropKey key owner).table.get? k = some e) :
    k ≠ key ∧ g.table.get? k = some e := by
  rw [get?_dropKey] at he
  split at he
  · cases he
  · next hk => exact ⟨hk, he⟩

/-- A node that is stored anew changes the same. -/
theorem restore_sameFrame (g : EGraph) (entry : Entry) (node : Node ClassId)
    (owner : ClassId) : SameFrame g (g.restore entry node owner) := by
  unfold restore
  split
  · split <;> exact ⟨rfl, rfl, rfl, fun _ => rfl, fun _ => rfl, fun _ => rfl⟩
  · refine ⟨rfl, rfl, by simp [modifyRecord], fun j => ?_, fun j => ?_, fun j => ?_⟩
    · refine (congrArg EClass.id (record_modifyRecord g owner _ j)).trans ?_
      split <;> rfl
    · refine (congrArg EClass.parents (record_modifyRecord g owner _ j)).trans ?_
      split <;> rfl
    · refine (congrArg EClass.constant (record_modifyRecord g owner _ j)).trans ?_
      split <;> rfl

/-- The new key is stored with the new node, and the old key, unless it is the same,
is not. The cases are those of `restore`, which writes nothing if nothing changes. -/
theorem get?_restore {entry : Entry} (he : g.table.get? entry.key = some entry)
    (node : Node ClassId) (owner : ClassId) (k : Node ClassId) :
    (g.restore entry node owner).table.get? k =
      if k = node.key then some ⟨node, owner⟩
      else if k = entry.key then none else g.table.get? k := by
  unfold restore
  split
  · next hsame =>
    rw [Node.same_iff] at hsame
    split
    · next hkeep =>
      simp only [Bool.and_eq_true, Node.same_iff, decide_eq_true_eq] at hkeep
      obtain ⟨rfl, rfl⟩ := hkeep
      split
      · next hk => rw [hk]; exact he
      · next hk => rw [if_neg fun h => hk (h.trans hsame.symm)]
    · refine (NodeTable.get?_insert _ _ k).trans ?_
      rw [Entry.key_mk]
      by_cases hk : k = node.key
      · rw [if_pos hk, if_pos hk]
      · rw [if_neg hk, if_neg hk, if_neg fun h => hk (h.trans hsame.symm)]
  · refine (NodeTable.get?_insert _ _ k).trans ?_
    rw [NodeTable.get?_erase]
    rfl

/-- What is stored after `restore` is the new node or was stored before. -/
theorem get?_restore_inv {entry e : Entry}
    (hentry : g.table.get? entry.key = some entry)
    {owner : ClassId} (he : (g.restore entry node owner).table.get? k = some e) :
    (k = node.key ∧ e = ⟨node, owner⟩) ∨
      (k ≠ node.key ∧ k ≠ entry.key ∧ g.table.get? k = some e) := by
  rw [get?_restore hentry] at he
  split at he
  · next hk => exact Or.inl ⟨hk, (Option.some.inj he).symm⟩
  · next hnew =>
    split at he
    · cases he
    · next hold => exact Or.inr ⟨hnew, hold, he⟩

/-- In the node list of the owner the new key takes the place of the old one. -/
theorem mem_nodes_restore {entry : Entry} {owner : ClassId}
    (hlt : owner < g.classes.size)
    (hmem : entry.key ∈ (g.record owner).nodes) (node k : Node ClassId)
    (j : ClassId) : k ∈ ((g.restore entry node owner).record j).nodes ↔
      if j = owner then (k ∈ (g.record owner).nodes ∧ k ≠ entry.key) ∨ k = node.key
      else k ∈ (g.record j).nodes := by
  -- a key that stays the same is a member before and after
  have hsame (hkey : node.key = entry.key) (g' : EGraph)
      (hrec : g'.record j = g.record j) : k ∈ (g'.record j).nodes ↔
        if j = owner then (k ∈ (g.record owner).nodes ∧ k ≠ entry.key) ∨ k = node.key
        else k ∈ (g.record j).nodes := by
    rw [hrec]
    split
    · next hj =>
      rw [hj, hkey]
      constructor
      · intro hk
        by_cases h : k = entry.key
        · exact Or.inr h
        · exact Or.inl ⟨hk, h⟩
      · intro hmem
        rcases hmem with ⟨hk, -⟩ | rfl
        · exact hk
        · exact hmem
    · exact Iff.rfl
  unfold restore
  split
  · next hkey =>
    rw [Node.same_iff] at hkey
    split <;> exact hsame hkey _ rfl
  · have h := record_modifyRecord g owner
      (fun c => { c with nodes := (c.nodes.remove entry.key).add node.key }) j
    by_cases hj : j = owner
    · subst hj
      rw [if_pos ⟨rfl, hlt⟩] at h
      rw [if_pos rfl]
      refine (iff_of_eq (congrArg (k ∈ EClass.nodes ·) h)).trans ?_
      rw [KeySet.mem_add, KeySet.mem_remove]
    · rw [if_neg fun hc => hj hc.1] at h
      rw [if_neg hj]
      exact iff_of_eq (congrArg (k ∈ EClass.nodes ·) h)

end EGraph

end Datapath

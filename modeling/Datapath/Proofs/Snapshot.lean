import Datapath.Proofs.Completion
import Datapath.Proofs.Numbers

/-!
# Datapath.Proofs.Snapshot

The semantics of what a graph stores.

A repaired graph is itself a semantics: its values are its classes, and a node
denotes the class that stores it (`snapshot`). Every graph on the way to it is sound
for this semantics, where each number stands for the class that it ends in.
Conversely, where a graph is sound for the completion of a snapshot, what matches in
it matches in the snapshot, with guards that hold there too (`isMatch_of_realizes`,
`guard_of_sound`).
-/

namespace Datapath

namespace EGraph

variable {g : EGraph} {k x : ClassId} {m : Node ClassId}

/-- The semantics in which the nodes that a graph stores denote their classes. -/
def snapshot (g : EGraph) : Semantics ClassId where
  Denotes m k := ∃ e, g.table.get? m.key = some e ∧ g.root e.owner = k
  unique := by
    rintro m k k' ⟨e, he, rfl⟩ ⟨e', he', rfl⟩
    rw [he] at he'
    cases he'
    rfl

theorem snapshot_key : g.snapshot.Denotes m.key k ↔ g.snapshot.Denotes m k := by
  simp [snapshot]

/-- What denotes a class in the snapshot is represented in it, and the class is a
root. -/
theorem represents_of_snapshot (hw : g.WellFormed) (h : g.snapshot.Denotes m k) :
    g.Represents m k ∧ g.root k = k := by
  obtain ⟨e, he, rfl⟩ := h
  exact ⟨(represents_of_get? he).congr (by rw [Node.key_key]) (hw.root_root _).symm,
    hw.root_root _⟩

theorem Settled.snapshot (h : g.Settled) (hm : g.Represents m x) :
    g.snapshot.Denotes (m.map g.root) (g.root x) := by
  obtain ⟨e, he, ho⟩ := h.get?_of_represents hm
  exact ⟨e, by rwa [Node.key_map], ho⟩

end EGraph

namespace Repaired

open EGraph

variable {g t : EGraph} {k x : ClassId} {m : Node ClassId} {v : Binary64}

/-- The number that a class shows in the snapshot of a repaired graph is its
constant. -/
theorem constant?_of_shows (h : Repaired g) (hv : g.snapshot.Shows k v) :
    ∃ c, g.constant? k = some c ∧ c.withoutMinusZero = v.withoutMinusZero := by
  obtain ⟨m, w, hw, hwv, hd⟩ := hv
  obtain ⟨hrep, -⟩ := represents_of_snapshot h.wellFormed (snapshot_key.1 hd)
  obtain ⟨c, hc, hcw⟩ := h.constant?_of_represents hrep hw
  exact ⟨c, hc, hcw.trans hwv⟩

/-- The snapshot of a repaired graph shows one number at most for each class, and
holds the literals of all computed widths. -/
theorem closed (h : Repaired g) : g.snapshot.Closed where
  shows_unique hv hw := by
    obtain ⟨c, hc, hcv⟩ := h.constant?_of_shows hv
    obtain ⟨d, hd, hdw⟩ := h.constant?_of_shows hw
    rw [hc] at hd
    cases hd
    exact hcv.symm.trans hdw
  folded {fn x y k a b} hd hx hy := by
    obtain ⟨hrep, hroot⟩ := represents_of_snapshot h.wellFormed hd
    obtain ⟨c, hc, hca⟩ := h.constant?_of_shows hx
    obtain ⟨d, hd, hdb⟩ := h.constant?_of_shows hy
    obtain ⟨lit, hlit, ho⟩ := h.literal_of_derived hrep hc hca hd hdb
    exact snapshot_key.2 ⟨lit, hlit, ho.trans hroot⟩

/-- A new class shows the number of its node, in the graph that it ends in. -/
theorem shows_of_fold (h : Repaired g) (hs : Sound g.snapshot g.root t)
    (hc : ∀ c ∈ m.children, c < t.issued) (hm : g.Represents m x) {c : Binary64}
    (hfold : t.fold m = some c) : g.snapshot.Shows (g.root x) c := by
  have hden := h.settled.snapshot hm
  cases m with
  | literal v =>
      obtain rfl := Option.some.inj hfold
      exact ⟨.literal v, v, rfl, rfl, snapshot_key.2 hden⟩
  | sign s =>
      obtain rfl := Option.some.inj hfold
      exact ⟨.sign s, .ofNat s.code, rfl, rfl, snapshot_key.2 hden⟩
  | symbol | binary => cases hfold
  | derived fn l r =>
      have hfold : t.foldDerived? (.derived fn l r) = some c := hfold
      obtain ⟨fn, l, r, a, b, heq, ha, hb, rfl⟩ := foldDerived?_inv hfold
      cases heq
      have hvalue :=
        h.closed.folded hden (hs.constant (hc l (by simp [Node.children])) ha)
          (hs.constant (hc r (by simp [Node.children])) hb)
      exact ⟨.literal (fn.eval a b), _, rfl, rfl, hvalue⟩

/-- Every graph on the way to a repaired one is sound, where numbers stand for the
classes that they end in. -/
theorem sound_of_changes (h : Repaired g) (c : Changes empty t)
    (hext : Extends t g) : Sound g.snapshot g.root t := by
  induction c with
  | refl => exact sound_empty _ _
  | @tail t t' c₁ c₂ ih =>
      have hw := Changes.wellFormed wellFormed_empty c₁
      have ht := ih ((c₂.extends hw).trans hext)
      cases c₂ with
      | @issue node children fresh =>
          have hrep := hext.represents (represents_issue t node)
          have hden := snapshot_key.2 (h.settled.snapshot hrep)
          rw [Node.key_map] at hden
          exact ht.issue hw hden fun c hfold =>
            h.shows_of_fold ht children hrep hfold
      -- the classes that were united are one in the graph at the end
      | unite left right union =>
          refine ht.unite hw left right (hext.root_eq ?_) union
          exact (unite_joins hw left right union).2.1
      | step step =>
          -- a literal that a repair adds is represented at the end too
          refine step.sound hw (h.closed.folds fun _ => True) (fun _ _ => trivial)
            (fun _ _ _ _ => trivial) ht fun v hv => ?_
          subst hv
          exact snapshot_key.2
            (h.settled.snapshot (hext.represents (represents_issue t _)))

end Repaired

namespace EGraph

variable {g : EGraph} {k : ClassId} {m : Node ClassId} {p : Pattern}
  {σ : String → ClassId}

theorem Rebuilt.sound_snapshot (hg : g.Rebuilt) : Sound g.snapshot g.root g :=
  hg.repaired.sound_of_changes (Calls.changes wellFormed_empty hg.calls) (.refl g)

/-! ## Matches in a snapshot -/

/-- In a rebuilt graph a node that denotes a class is listed by it. -/
theorem Rebuilt.mem_of_snapshot (hg : g.Rebuilt) (h : g.snapshot.Denotes m k) :
    k ∈ g.classIds ∧ m.key ∈ (g.record k).nodes := by
  obtain ⟨e, he, rfl⟩ := h
  obtain ⟨r, hr, hfind, howner⟩ := hg.canonical.owner he
  obtain ⟨-, -, rfl⟩ := find_inv hfind
  exact ⟨hr, (howner _ hr).2 (by rw [Int.toNat_natCast])⟩

/-- Where a pattern occurs in a snapshot, it matches. -/
theorem Rebuilt.isMatch (hg : g.Rebuilt) (hk : k ∈ g.classIds)
    (h : p.Occurs (fun name k => σ name = k) g.snapshot.Denotes k) :
    g.IsMatch p k (assign σ p.occurrences) := by
  have hrep : g.RepresentedBy σ p k := by
    refine h.imp (A := fun _ => True) (fun _ _ _ _ => trivial)
      (fun _ hbound => hbound) (fun _ hm => (hg.mem_of_snapshot hm).2) trivial
  refine ⟨hk, ?_, fun b hb => ?_, (represented_assign fun _ hn => hn).2 hrep⟩
  · rw [assign, List.map_map]
    exact List.map_id _
  · obtain ⟨name, hn, rfl⟩ := List.mem_map.1 hb
    exact ⟨σ name, hrep.mem_classIds hg.canonical hk (List.mem_eraseDups.1 hn), rfl⟩

end EGraph

/-- A pattern without computed widths. -/
def Pattern.Underived (p : Pattern) : Prop := ∀ fn l r, derived fn l r ∉ p.parts

theorem Pattern.Underived.not_isDerived {n : Node Pattern}
    (h : (Pattern.ofNode n).Underived) : ¬ n.IsDerived := by
  intro hn
  cases n with
  | literal | sign | symbol | binary => exact hn.elim
  | derived fn l r => exact h fn l r (Pattern.mem_parts_self _)

theorem Pattern.Underived.child {n : Node Pattern}
    (h : (Pattern.ofNode n).Underived) {q : Pattern}
    (hq : q ∈ n.children) : q.Underived := fun fn l r hpart =>
  h fn l r (Pattern.mem_parts_ofNode.2 (Or.inr ⟨q, hq, hpart⟩))

namespace EGraph

open Completed

variable {g t : EGraph} {x : ClassId} {v : Binary64} {s s' : Subst} {p : Pattern}
  {σ : String → ClassId} {ν : ClassId → ClassId} {eqn : Equation}

/-- What is realized in a graph that is sound for the completion of a snapshot occurs
in the snapshot. -/
theorem occurs_of_realizes (hp : p.Underived)
    (h : Sound g.snapshot.completion.semantics (fun i => known (ν i)) t)
    (hσ : ∀ name ref, s.get? name = some ref → σ name = ν ref.toNat)
    (hreal : t.Realizes s p x) :
    p.Occurs (fun name k => σ name = k) g.snapshot.Denotes (ν x) := by
  induction p using Pattern.layers generalizing x with
  | var name =>
      obtain ⟨ref, hs, hroot⟩ := hreal
      exact (hσ name ref hs).trans (known_injective (h.of_root_eq hroot))
  | node n ih =>
      obtain ⟨m, hrel, hm⟩ := Pattern.occurs_ofNode.1 hreal
      refine Pattern.occurs_ofNode.2 ⟨m.map ν, Node.Rel.map_right.2 ?_, ?_⟩
      · exact hrel.imp fun q hq c _ hc => ih q hq (hp.child hq) hc
      · -- the completion is the snapshot itself on nodes that are no computed widths
        have hderived : ¬ (m.key.map fun i => known (ν i)).IsDerived := by
          rw [Node.isDerived_map, Node.isDerived_key,
            ← Node.isDerived_map (fun _ => ()) m, ← hrel.1, Node.isDerived_map]
          exact hp.not_isDerived
        obtain ⟨m', hm', hden⟩ :=
          Semantics.exists_of_completion hderived (h.denotes_of_represents hm)
        have heq : (m.map ν).key = m' := by
          refine Node.map_injective known_injective ?_
          rw [← hm', Node.key_map, Node.key_map, Node.key_key, Node.map_map]
          rfl
        rw [← snapshot_key, heq]
        exact hden

/-- In a graph that is sound for the completion of a snapshot, the constant of a
number is that of the class it stands for. -/
theorem constant?_of_sound (hg : g.Rebuilt) (hgw : Within Binary64.IsWidth g)
    (htw : Within Binary64.IsWidth t)
    (h : Sound g.snapshot.completion.semantics (fun i => known (ν i)) t)
    (hx : x < t.issued) (hν : ν x < g.issued) (hc : t.constant? x = some v) :
    g.constant? (ν x) = some v := by
  have hshows := hg.repaired.closed.shows_completion.1 (h.constant hx hc)
  obtain ⟨c, hcg, hcv⟩ := hg.repaired.constant?_of_shows hshows
  rw [(hgw _ hν c hcg).withoutMinusZero, (htw _ hx v hc).withoutMinusZero] at hcv
  rw [hcg, hcv]

/-- A guard that holds in a graph that is sound for the completion of a snapshot
holds in the snapshot. -/
theorem guard_of_sound (hg : g.Rebuilt) (hgw : Within Binary64.IsWidth g)
    (htw : Within Binary64.IsWidth t)
    (h : Sound g.snapshot.completion.semantics (fun i => known (ν i)) t)
    (hs : ∀ name ref, s.get? name = some ref →
      s'.get? name = some (ν ref.toNat : Int) ∧ ν ref.toNat < g.issued)
    (hguard : eqn.guard t s = .ok true) : eqn.guard g s' = .ok true := by
  refine guard_eq_true.2 fun c hc => ?_
  obtain ⟨values, hvalues, hcheck⟩ := guard_eq_true.1 hguard c hc
  refine ⟨values, constantsOf_eq_some.2 ((constantsOf_eq_some.1 hvalues).imp ?_),
    hcheck⟩
  -- each name is bound to the class that its number stands for, with the same
  -- constant
  rintro name v ⟨ref, hget, hat⟩
  obtain ⟨hget', hlt⟩ := hs name ref hget
  obtain ⟨hltt, hconst⟩ := constantAt_inv hat
  refine ⟨_, hget', ?_⟩
  rw [constantAt, find_natCast hlt,
    ← constant?_of_sound hg hgw htw h hltt hlt hconst]
  rfl

end EGraph

end Datapath

import Datapath.Proofs.Steps

/-!
# Datapath.Proofs.Passes

A rebuild has enough passes.

The passes of `EGraph.rebuild` are bounded in advance, so that it may seem that a
rebuild could stop with classes still pending. It never does (`rebuild_pending`). The
measure is the number of classes without a literal, `EGraph.unvalued`. A union lowers
it: two classes that both have a literal know its value, so they are only united if
the literals are equal, and then they are one class already. Adding the literal of a
value does not raise it, and nothing else touches it. A pass that makes a class
pending has united two, so it lowers the measure, which never exceeds the number of
classes.
-/

namespace Datapath.EGraph

variable {g g' g'' : EGraph} {id w l : ClassId} {key k node : Node ClassId}
  {e e' : Entry}

/-- The class with a given root has a literal among its nodes. -/
def HasLiteral (g : EGraph) (r : ClassId) : Prop :=
  ∃ v, .literal v ∈ (g.record r).nodes

open scoped Classical in
/-- The roots of the classes without a literal. -/
noncomputable def unvalued (g : EGraph) : Finset ClassId :=
  (Finset.range g.issued).filter fun r => g.root r = r ∧ ¬ g.HasLiteral r

theorem mem_unvalued {r : ClassId} :
    r ∈ g.unvalued ↔ r < g.issued ∧ g.root r = r ∧ ¬ g.HasLiteral r := by
  simp only [unvalued, Finset.mem_filter, Finset.mem_range]

theorem card_unvalued_le (g : EGraph) : g.unvalued.card ≤ g.issued := by
  have hsub : g.unvalued ⊆ Finset.range g.issued := fun r hr =>
    Finset.mem_range.2 (mem_unvalued.1 hr).1
  exact (Finset.card_le_card hsub).trans_eq (Finset.card_range g.issued)

theorem unvalued_congr (hsets : g'.sets = g.sets)
    (hlit : ∀ r, g'.HasLiteral r ↔ g.HasLiteral r) : g'.unvalued = g.unvalued := by
  ext r
  rw [mem_unvalued, mem_unvalued, hlit, root, root, issued, issued, hsets]

/-! ## What a change does to the measure -/

/-- A literal that is given a class does not count. -/
theorem unvalued_issue_literal (h : g.WellFormed) (v : Binary64) :
    (g.issue (.literal v)).unvalued = g.unvalued := by
  ext r
  rw [mem_unvalued, mem_unvalued, root_issue h.ranked, issued_issue, HasLiteral,
    HasLiteral, nodes_issue h.classes_size]
  by_cases hr : r = g.issued
  · -- the new class has the literal, and it was no class before
    subst hr
    rw [if_pos rfl]
    constructor
    · intro hmem
      obtain ⟨-, -, hno⟩ := hmem
      refine absurd ⟨v.withoutMinusZero, ?_⟩ hno
      rw [KeySet.mem_iff, KeySet.toList_single]
      exact List.mem_singleton_self _
    · intro hmem
      obtain ⟨hlt, -⟩ := hmem
      exact absurd hlt (Nat.lt_irrefl _)
  · rw [if_neg hr]
    have hlt : r < g.issued + 1 ↔ r < g.issued :=
      ⟨fun h => Nat.lt_of_le_of_ne (Nat.le_of_lt_succ h) hr, Nat.lt_succ_of_lt⟩
    rw [hlt]

/-- Two classes with a literal that may be united are one. -/
theorem not_hasLiteral_both (h : g.WellFormed) (hj : Joinable g w l)
    (hw : g.HasLiteral w) : ¬ g.HasLiteral l := by
  intro hlit
  obtain ⟨b, hb⟩ := hlit
  obtain ⟨a, ha⟩ := hw
  obtain ⟨ea, hea, howa⟩ := h.stored hj.winner_root ha
  obtain ⟨eb, heb, howb⟩ := h.stored hj.loser_root hb
  obtain ⟨ca, hca, hcav⟩ := h.known hea (v := a) rfl
  obtain ⟨cb, hcb, hcbv⟩ := h.known heb (v := b) rfl
  rw [constant?, howa] at hca
  rw [constant?, howb] at hcb
  -- both literals are stored under their keys, so they are equal
  have hnormal {v : Binary64} {e : Entry} (he : g.table.get? (.literal v) = some e) :
      v.withoutMinusZero = v := by
    have hkey : e.node.key.key = Node.literal v := by
      rw [Node.key_key]
      exact WellFormed.key_eq he
    rw [show e.node.key = Node.literal v from WellFormed.key_eq he] at hkey
    exact Node.literal.inj hkey
  have hab : a = b := by
    rw [← hnormal hea, ← hnormal heb, ← hcav, ← hcbv]
    exact hj.constants hca hcb
  rw [← hab, hea] at heb
  cases heb
  exact hj.ne (howa.symm.trans howb)

/-- A union lowers the measure. -/
theorem card_unvalued_absorb (h : g.WellFormed) (hj : Joinable g w l) :
    (g.absorb w l).unvalued.card < g.unvalued.card := by
  have hrecord (r : ClassId) := record_absorb (hj.winner_lt_size h) l r
  have hwinner : (g.absorb w l).HasLiteral w ↔ g.HasLiteral w ∨ g.HasLiteral l := by
    simp only [HasLiteral, hrecord w, if_pos, KeySet.mem_union, exists_or]
  have hother {r : ClassId} (hr : r ≠ w) :
      (g.absorb w l).HasLiteral r ↔ g.HasLiteral r := by
    rw [HasLiteral, HasLiteral, hrecord r, if_neg hr]
  refine Finset.card_lt_card (Finset.ssubset_iff_subset_ne.2 ⟨?_, ?_⟩)
  · -- no class loses a literal
    intro r hr
    rw [mem_unvalued, issued_absorb] at hr
    obtain ⟨hlt, hroot, hno⟩ := hr
    refine mem_unvalued.2 ⟨hlt, (hj.root_before h hroot).1, ?_⟩
    by_cases hrw : r = w
    · subst hrw
      exact fun hlit => hno (hwinner.2 (Or.inl hlit))
    · rwa [hother hrw] at hno
  · -- the loser goes, unless it has a literal, which the winner then gets
    intro heq
    by_cases hl : g.HasLiteral l
    · have hw : w ∈ g.unvalued := mem_unvalued.2
        ⟨hj.winner_lt, hj.winner_root, fun hlit => not_hasLiteral_both h hj hlit hl⟩
      rw [← heq, mem_unvalued] at hw
      exact hw.2.2 (hwinner.2 (Or.inr hl))
    · have hmem : l ∈ g.unvalued := mem_unvalued.2 ⟨hj.loser_lt, hj.loser_root, hl⟩
      rw [← heq, mem_unvalued] at hmem
      exact (hj.root_before h hmem.2.1).2 rfl

/-- Dropping or moving a node that is no literal leaves the literals where they
are. -/
theorem hasLiteral_dropKey (h : g.WellFormed) (he : g.table.get? e.key = some e)
    (hne : (g.canonical e.node).key ≠ e.key) (r : ClassId) :
    (g.dropKey e.key (g.root e.owner)).HasLiteral r ↔ g.HasLiteral r := by
  refine exists_congr fun v => ?_
  rw [mem_nodes_dropKey (h.root_lt_size (h.owner_lt he))]
  refine and_iff_left fun _ hkey => hne ?_
  rw [canonical, Node.key_map, ← Entry.key, ← hkey]
  rfl

/-- Moving an entry to its canonical key does not touch the literals: a literal is
its own canonical form. -/
theorem hasLiteral_restore (h : g.WellFormed) (he : g.table.get? e.key = some e)
    (r : ClassId) :
    (g.restore e (g.canonical e.node) (g.root e.owner)).HasLiteral r ↔
      g.HasLiteral r := by
  refine exists_congr fun v => ?_
  rw [mem_nodes_restore (h.root_lt_size (h.owner_lt he)) (h.mem_nodes he)]
  have hkey :
      Node.literal v = (g.canonical e.node).key ↔ Node.literal v = e.key := by
    rw [canonical, Node.key_map, ← Entry.key]
    cases e.key <;> simp [Node.map]
  split
  · next hr =>
    rw [hkey, hr]
    constructor
    · intro hmem
      rcases hmem with ⟨hmem, -⟩ | heq
      · exact hmem
      · rw [heq]
        exact h.mem_nodes he
    · intro hmem
      by_cases heq : Node.literal v = e.key
      · exact Or.inr heq
      · exact Or.inl ⟨hmem, heq⟩
  · rfl

/-! ## Steps and passes -/

/-- The measure has not grown, and it is lower if anything has become pending. -/
def Lowers (g g' : EGraph) : Prop :=
  g'.unvalued.card ≤ g.unvalued.card ∧
    (g'.unvalued.card < g.unvalued.card ∨ ∀ p ∈ g'.pending, p ∈ g.pending)

theorem Lowers.refl (g : EGraph) : Lowers g g := ⟨le_rfl, Or.inr fun _ hp => hp⟩

theorem Lowers.trans (h : Lowers g g') (h' : Lowers g' g'') : Lowers g g'' := by
  refine ⟨h'.1.trans h.1, ?_⟩
  rcases h.2 with hlt | hp
  · exact Or.inl (Nat.lt_of_le_of_lt h'.1 hlt)
  · rcases h'.2 with hlt' | hp'
    · exact Or.inl (Nat.lt_of_lt_of_le hlt' h.1)
    · exact Or.inr fun p hmem => hp p (hp' p hmem)

theorem Lowers.of_unvalued_eq (hu : g'.unvalued = g.unvalued)
    (hp : ∀ p ∈ g'.pending, p ∈ g.pending) : Lowers g g' :=
  ⟨by rw [hu], Or.inr hp⟩

theorem lowers_unite (h : g.WellFormed) {x y z : ClassId} (hx : x < g.issued)
    (hy : y < g.issued) (hu : unite x y g = .ok z g') : Lowers g g' := by
  rcases unite_cases h hx hy hu with ⟨-, rfl, -⟩ | ⟨w, l, hj, rfl, -⟩
  · exact .refl _
  · have hlt := card_unvalued_absorb h hj
    exact ⟨Nat.le_of_lt hlt, Or.inl hlt⟩

/-- What a step makes pending, it has united. -/
theorem Step.lowers (h : g.WellFormed) (s : Step g g') : Lowers g g' := by
  cases s with
  | literal _ _ _ _ =>
      refine .of_unvalued_eq (unvalued_issue_literal h _) fun p hp => ?_
      rwa [pending_issue] at hp
  | fold stored _ _ value hx hy union =>
      exact lowers_unite h (lt_of_root_eq h (h.owner_lt value) hx)
        (lt_of_root_eq h (h.owner_lt stored) hy) union
  | @move e stored _ =>
      have hframe := restore_sameFrame g e (g.canonical e.node) (g.root e.owner)
      refine .of_unvalued_eq
        (unvalued_congr hframe.sets (hasLiteral_restore h stored)) fun p hp => ?_
      rwa [hframe.pending] at hp
  | fuse stored congruent union =>
      obtain ⟨hne, he'⟩ := congruent?_inv congruent
      have hdrop := unvalued_congr (dropKey_sameFrame g _ _).sets
        (hasLiteral_dropKey h stored hne)
      refine Lowers.trans (.of_unvalued_eq hdrop fun p hp => hp) ?_
      exact lowers_unite (h.dropKey stored) (h.root_lt (h.owner_lt stored))
        (h.owner_lt he') union
  | note same pending =>
      refine .of_unvalued_eq (unvalued_congr same.sets fun r => ?_) pending
      rw [HasLiteral, HasLiteral, same.nodes]

theorem Steps.lowers (h : g.WellFormed) (s : Steps g g') : Lowers g g' := by
  induction s with
  | refl => exact .refl g
  | tail s₁ s₂ ih => exact ih.trans (s₂.lowers (Steps.wellFormed h s₁))

/-- Enough passes leave nothing pending, by induction on their number: each pass but
the last one lowers the measure. -/
theorem rebuildPasses_pending (h : g.WellFormed) {passes : Nat} {u : Unit}
    (henough : g.unvalued.card < passes ∨ g.pending = #[])
    (hr : rebuildPasses passes g = .ok u g') : g'.pending = #[] := by
  induction passes generalizing g with
  | zero =>
      obtain ⟨-, rfl⟩ := pure_inv hr
      exact henough.resolve_left (Nat.not_lt_zero _)
  | succ passes ih =>
      obtain ⟨hnone, rfl⟩ | ⟨hsome, g₂, hloop, hlater⟩ := rebuildPasses_succ_cases hr
      · exact hnone
      · have hcard : g.unvalued.card < passes + 1 := henough.resolve_right hsome
        have hw : WellFormed { g with pending := #[] } :=
          (steps_take_pending g).wellFormed h
        have hpass : Steps { g with pending := #[] } g₂ :=
          steps_of_forM_repair hw hloop
        refine ih (Steps.wellFormed hw hpass) ?_ hlater
        -- a pass that leaves something pending has united classes
        have hsame : ({ g with pending := #[] } : EGraph).unvalued =
            g.unvalued := rfl
        rcases (Steps.lowers hw hpass).2 with hlt | hnone
        · rw [hsame] at hlt
          exact Or.inl (by omega)
        · refine Or.inr (Array.eq_empty_iff_forall_not_mem.2 fun p hp => ?_)
          simpa using hnone p hp

/-- A successful rebuild leaves nothing pending. -/
theorem rebuild_pending (h : g.WellFormed) {u : Unit} (hr : rebuild g = .ok u g') :
    g'.pending = #[] := by
  unfold rebuild at hr
  rw [get_bind] at hr
  refine rebuildPasses_pending h (Or.inl ?_) hr
  have hcard := card_unvalued_le g
  omega

end Datapath.EGraph

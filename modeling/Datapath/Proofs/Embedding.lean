import Datapath.Proofs.Snapshot

/-!
# Datapath.Proofs.Embedding

Graphs whose classes stand for classes of another graph.

A graph is embedded in a repaired one if it is sound for the completion of that
graph's snapshot with classes of it as values (`EmbedsIn`). New classes are the
reason why this takes a completion: the value of a new class is first found to be
that of its node, and then to be a class of the snapshot. For a repair this is so
because its new literals have the value of a computed width that was there before,
and for an added pattern because all its parts have classes of the snapshot as
values.
-/

namespace Datapath.EGraph

open Completed

variable {D : Type} {M : Interpretation D} {ν : ClassId → D} {A : D → Prop}
  {g g' : EGraph} {id x : ClassId} {node : Node ClassId} {s : Subst} {p : Pattern}
  {ρ : String → D} {ref : Int}

/-! ## Values in a set -/

/-- The classes of a graph have values in a set. -/
def Ranges (A : D → Prop) (ν : ClassId → D) (g : EGraph) : Prop :=
  ∀ x < g.issued, A (ν x)

/-- If a later interpretation keeps the values of the old classes, only the new
numbers have to be looked at. -/
theorem Ranges.follows {ν' : ClassId → D} (h : Ranges A ν g)
    (hf : Follows M ν g ν' g')
    (hnew : ∀ n : Nat, g.issued ≤ n → n < g'.issued → A (ν' n)) :
    Ranges A ν' g' := by
  intro x hx
  rcases Nat.lt_or_ge x g.issued with hlt | hge
  · rw [hf.agree x hlt]
    exact h x hlt
  · exact hnew x hge hx

section

variable (hfold : M.FoldsOn fun _ => True)
include hfold

/-- A new literal has the value of the computed width that it is the result of. -/
theorem Sound.step_ranges (hw : g.WellFormed) (h : Sound M.semantics ν g)
    (hν : Ranges A ν g) (hs : Step g g') :
    ∃ ν', Follows M ν g ν' g' ∧ Ranges A ν' g' := by
  obtain ⟨ν', hf⟩ :=
    h.steps hfold zeroBlind_true hw (.single hs) fun _ _ _ _ => trivial
  refine ⟨ν', hf, hν.follows hf fun n hge hn => ?_⟩
  rcases hs.issued_cases hw with
    hissued | ⟨v, rfl, -, fn, l, r, a, b, e, he, ha, hb, rfl⟩
  · omega
  · rw [issued_issue] at hn
    obtain rfl : n = g.issued := by omega
    have hchild := hw.child_lt he
    have hwidth : M.derived fn (ν l) (ν r) = ν e.owner := h.stored he
    have hvalue : M.node (Node.literal (fn.eval a b)).key = ν' g.issued :=
      hf.sound.denotes_of_represents (represents_issue g _)
    -- both widths have constants, so by `hfold` the literal has the value of the
    -- computed width, and this is the value of a class of `g`
    have hl := Interpretation.shows_iff.1
      (h.constant (hchild l (by simp [Node.children])) ha)
    have hr := Interpretation.shows_iff.1
      (h.constant (hchild r (by simp [Node.children])) hb)
    rw [← hvalue, M.node_key, ← hfold hl hr trivial trivial trivial, hwidth]
    exact hν _ (hw.owner_lt he)

/-- Steps of a graph give its numbers no value that was not there before. -/
theorem Sound.steps_ranges (hw : g.WellFormed) (h : Sound M.semantics ν g)
    (hν : Ranges A ν g) (hs : Steps g g') :
    ∃ ν', Follows M ν g ν' g' ∧ Ranges A ν' g' := by
  induction hs with
  | refl => exact ⟨ν, .refl h, hν⟩
  | tail s₁ s₂ ih =>
      obtain ⟨ν₁, f₁, r₁⟩ := ih
      obtain ⟨ν', f', r'⟩ :=
        f₁.sound.step_ranges hfold (Steps.wellFormed hw s₁) r₁ s₂
      exact ⟨ν', f₁.trans f', r'⟩

end

/-- All new numbers of an added node are in its class. There are up to two: the
number of the node itself, and that of a literal if the node is a computed width with
a value that the graph did not have. The union puts both into one class. -/
theorem root_of_intern (hw : g.WellFormed) (hc : ∀ c ∈ node.children, c < g.issued)
    (hi : intern node g = .ok id g') {n : Nat} (hge : g.issued ≤ n)
    (hlt : n < g'.issued) : g'.root n = g'.root id := by
  rcases intern_cases hi with
    ⟨-, -, -, rfl⟩ | ⟨hnew, ⟨-, rfl, rfl⟩ | ⟨v, -, hequate⟩⟩
  · omega
  · rw [issued_issue] at hlt
    obtain rfl : n = g.issued := by omega
    rfl
  · have hw₁ := hw.issue hnew hc
    have hnode : g.issued < (g.issue node).issued := issued_lt_issue _ _
    obtain ⟨y, g₁, henter, hunite⟩ := bind_inv hequate
    rcases enter_cases henter with ⟨lit, hlit, rfl, rfl⟩ | ⟨hnone, rfl, rfl⟩
    · -- the literal is known, and only the node got a number
      have hy := hw₁.root_lt (hw₁.owner_lt hlit)
      obtain ⟨-, hroot, rfl⟩ := unite_joins hw₁ hy hnode hunite
      rw [issued_unite hw₁ hy hnode hunite, issued_issue] at hlt
      obtain rfl : n = g.issued := by omega
      rw [(hw₁.unite hy hnode hunite).root_root, hroot]
    · -- node and literal are both new
      have hw₂ := hw₁.issue hnone (by simp [Node.children])
      have hy : (g.issue node).issued < ((g.issue node).issue (.literal v)).issued :=
        issued_lt_issue _ _
      have hnode₂ := Nat.lt_trans hnode hy
      obtain ⟨-, hroot, rfl⟩ := unite_joins hw₂ hy hnode₂ hunite
      rw [(hw₂.unite hy hnode₂ hunite).root_root]
      rw [issued_unite hw₂ hy hnode₂ hunite, issued_issue, issued_issue] at hlt
      rcases Nat.lt_succ_iff_lt_or_eq.1 hlt with hlt | rfl
      · obtain rfl : n = g.issued := by omega
        exact hroot.symm
      · rw [issued_issue]

/-- If all parts of a pattern have values in a set, so have the classes that adding
it makes. -/
theorem Sound.instantiate_ranges (hfold : M.FoldsOn fun _ => True)
    (hw : g.WellFormed) (h : Sound M.semantics ν g) (hν : Ranges A ν g)
    (hs : g.BoundIn s) (hρ : Valued ν s ρ)
    (hparts : ∀ q ∈ p.parts, A (M.value ρ q)) (hi : instantiate s p g = .ok ref g') :
    ∃ ν', Follows M ν g ν' g' ∧ Ranges A ν' g' := by
  refine (instantiate_induction (P := fun t => ∃ ν', Follows M ν g ν' t ∧
    Ranges A ν' t) ?_ hw hs ⟨ν, .refl h, hν⟩ hi).1
  intro n hn t m t' id hwt ht hrel hadd
  obtain ⟨ν₁, f₁, r₁⟩ := ht
  obtain ⟨ν', f', -, hval⟩ :=
    f₁.sound.added hfold zeroBlind_true hwt hadd fun _ _ _ _ => trivial
  refine ⟨ν', f₁.trans f', r₁.follows f' fun x hge hlt => ?_⟩
  obtain ⟨hc, hintern⟩ := add_inv hadd
  have hroot := root_of_intern hwt
    (fun c hc' => (canonical_children hwt (children_toNat_lt hc) c hc').1)
      hintern hge hlt
  -- the children have the values of the slots, so the node has the value of the
  -- layer
  have hchildren : n.map (M.value ρ) = m.map fun r => ν₁ r.toNat :=
    Node.Rel.iff_map_eq.1 (Node.Rel.map_right.2 (hrel.imp fun q _ r _ hr =>
      f₁.sound.value_of_realizes (hρ.follows hs f₁) hr.2))
  rw [f'.sound.of_root_eq hroot, hval, ← hchildren, ← M.value_ofNode]
  exact hparts _ hn

/-! ## Embeddings -/

/-- The classes of a graph stand for classes of the other, of which it says nothing
new. -/
def EmbedsIn (t g : EGraph) : Prop :=
  ∃ ν : ClassId → ClassId,
    Sound g.snapshot.completion.semantics (fun i => known (ν i)) t

/-- A value that is a class of the snapshot. -/
def IsKnown {D : Type} (d : Completed D) : Prop := ∃ k, d = known k

/-- To embed a graph it is enough to know that its values are classes of the other
one. -/
theorem embedsIn_of_ranges {t : EGraph} (hw : t.WellFormed)
    {ν' : ClassId → Completed ClassId}
    (h : Sound g.snapshot.completion.semantics ν' t) (hν' : Ranges IsKnown ν' t) :
    t.EmbedsIn g := by
  choose! ν hν using hν'
  exact ⟨ν, h.congr hw fun i hi => (hν i hi).symm⟩

theorem ranges_known (ν : ClassId → ClassId) (t : EGraph) :
    Ranges IsKnown (fun i => known (ν i)) t := fun i _ => ⟨ν i, rfl⟩

namespace EmbedsIn

variable {t t' : EGraph}

/-- The finest steps of a graph do not lead out of the one in which it is embedded,
as they add no value. -/
theorem steps (hg : Repaired g) (hw : t.WellFormed) (h : t.EmbedsIn g)
    (hs : Steps t t') : t'.EmbedsIn g := by
  obtain ⟨ν, hν⟩ := h
  obtain ⟨ν', f', r'⟩ := hν.steps_ranges hg.closed.foldsOn hw (ranges_known ν t) hs
  exact embedsIn_of_ranges (Steps.wellFormed hw hs) f'.sound r'

/-- Adding a pattern does not either, if all its parts have classes of that graph as
values. -/
theorem instantiate (hg : Repaired g) (hw : t.WellFormed) {ν : ClassId → ClassId}
    (h : Sound g.snapshot.completion.semantics (fun i => known (ν i)) t)
    (hs : t.BoundIn s) {ρ : String → Completed ClassId}
    (hρ : Valued (fun i => known (ν i)) s ρ)
    (hparts : ∀ q ∈ p.parts, IsKnown (g.snapshot.completion.value ρ q))
    (hi : EGraph.instantiate s p t = .ok ref t') : t'.EmbedsIn g := by
  obtain ⟨ν', f', r'⟩ :=
    h.instantiate_ranges hg.closed.foldsOn hw (ranges_known ν t) hs hρ hparts hi
  exact embedsIn_of_ranges
    (Calls.wellFormed hw (instantiate_calls hw hi)) f'.sound r'

end EmbedsIn

end Datapath.EGraph

import Datapath.Proofs.Instances

/-!
# Datapath.Proofs.Loading

Graphs into which ground terms were loaded.

Loading keeps a graph settled without any repair. The only unions that it makes put a
computed width that is new into the class of its value. As the new class has rank
zero, the other one keeps its number (`unite_returns_first`), and no node has the new
class as a child.
-/

namespace Datapath.EGraph

variable {g g' : EGraph} {x y z id : ClassId} {node : Node ClassId} {ref : Int}
  {s : Subst} {p : Pattern}

/-! ## Settled graphs -/

/-- In one graph, equal patterns have their instances in one class. By induction on
the pattern: the children of two instances of a layer are in the same classes, so the
two instances have the same key, and a settled graph has no two entries of one key in
different classes. -/
theorem Settled.root_eq_of_realizes (h : g.Settled) (hx : g.Realizes s p x)
    (hy : g.Realizes s p y) : g.root x = g.root y := by
  induction p using Pattern.layers generalizing x y with
  | var name =>
      obtain ⟨ref, hs, hroot⟩ := hx
      obtain ⟨ref', hs', hroot'⟩ := hy
      rw [hs] at hs'
      cases hs'
      exact hroot.symm.trans hroot'
  | node n ih =>
      obtain ⟨m, hrel, hm⟩ := Pattern.occurs_ofNode.1 hx
      obtain ⟨m', hrel', hm'⟩ := Pattern.occurs_ofNode.1 hy
      refine h.root_eq hm hm' ?_
      rw [← Node.key_map, ← Node.key_map]
      refine congrArg Node.key
        (Node.Rel.unique (R := fun q k => ∃ c, g.Realizes s q c ∧ g.root c = k)
        (Node.Rel.map_right.2 (hrel.imp fun q _ c _ hc => ⟨c, hc, rfl⟩))
        (Node.Rel.map_right.2 (hrel'.imp fun q _ c _ hc => ⟨c, hc, rfl⟩)) ?_)
      rintro q hq k - k' - ⟨c, hc, rfl⟩ ⟨c', hc', rfl⟩
      exact ih q hq hc hc'

theorem settled_empty : empty.Settled := fun _ _ he => by simp [empty] at he

/-- A node whose children are roots can be added without looking at the entries that
are there already: its key has no entry yet, and no entry has it as a child. -/
theorem Settled.issue (hw : g.WellFormed) (h : g.Settled)
    (hc : ∀ c ∈ node.children, g.root c = c) :
    (g.issue node).Settled := by
  intro key e he c hmem
  rw [root_issue hw.ranked]
  rcases get?_issue_inv he with ⟨rfl, -⟩ | he
  · rw [Node.children_key] at hmem
    exact hc c hmem
  · exact h he c hmem

/-- If the second of two classes has rank zero, their union returns the number of the
first. -/
theorem unite_returns_first (hrank : g.sets.rank (g.root y) = 0)
    (hu : unite x y g = .ok z g') : z = g.root x := by
  have horder : g.sets.order (g.root x) (g.root y) = (g.root x, g.root y) := by
    rw [UnionFind.order, if_neg (by omega)]
  unfold unite at hu
  dsimp only at hu
  rw [horder] at hu
  split at hu
  · cases hu
    rfl
  · dsimp only at hu
    split at hu
    · cases hu
    · cases hu
      rfl

/-- A union keeps a graph settled if the class that is given up has no parents. Its
number must also be the one that is given up, for which rank zero suffices. -/
theorem Settled.unite (hw : g.WellFormed) (h : g.Settled) (hx : x < g.issued)
    (hy : y < g.issued) (hrank : g.sets.rank (g.root y) = 0)
    (hchild : ∀ {key e}, g.table.get? key = some e →
      ∀ c ∈ key.children, c ≠ g.root y)
    (hu : EGraph.unite x y g = .ok z g') : g'.Settled := by
  have hfirst := unite_returns_first hrank hu
  rcases unite_cases hw hx hy hu with ⟨-, rfl, -⟩ | ⟨w, l, hj, rfl, rfl, hroots⟩
  · exact h
  · rcases hroots with ⟨-, hl⟩ | ⟨hl, -⟩
    · intro key e he c hmem
      rw [table_absorb] at he
      rw [hj.root hw, h he c hmem,
        if_neg (fun heq => hchild he c hmem (heq.trans hl.symm))]
    · exact absurd (hfirst.trans hl) hj.ne

/-- Ranks are those that the numbers had before, and a number that was not issued had
rank zero. -/
theorem rank_issue (hw : g.WellFormed) (hx : g.issued ≤ x) :
    (g.issue node).sets.rank x = 0 := by
  rw [(issue_enlists g node).sets, UnionFind.rank_push, UnionFind.rank]
  have hsize : g.sets.ranks.size ≤ x := by
    rw [hw.ranked.ranks_size]
    exact hx
  rw [Array.getD_eq_getD_getElem?, Array.getElem?_eq_none hsize, Option.getD_none]

/-- A computed width with the number `x`, which has no parents yet, gets the number
of its value. -/
theorem Settled.equate (hw : g.WellFormed) (h : g.Settled) (hx : x < g.issued)
    (hroot : g.root x = x) (hrank : g.sets.rank x = 0)
    (hchild : ∀ ⦃key e⦄, g.table.get? key = some e → ∀ c ∈ key.children, c ≠ x)
    {v : Binary64} (hequate : EGraph.equate v x g = .ok id g') : g'.Settled := by
  obtain ⟨y, g₁, henter, hunite⟩ := bind_inv hequate
  rcases enter_cases henter with ⟨lit, hlit, rfl, rfl⟩ | ⟨hnone, rfl, rfl⟩
  · -- the literal is known, and the new class of the width is given up for it
    refine h.unite hw (hw.root_lt (hw.owner_lt hlit)) hx
      (by rw [hroot, hrank]) ?_ hunite
    rwa [hroot]
  · -- the literal is new as well, so both classes have rank zero and no parents
    have hw₁ := hw.issue hnone (by simp [Node.children])
    have hroot₁ : (g.issue (.literal v)).root x = x := by
      rw [root_issue hw.ranked, hroot]
    refine (h.issue hw (by simp [Node.children])).unite hw₁ ?_ ?_ ?_ ?_ hunite
    · exact issued_lt_issue _ _
    · exact lt_issue hx _
    · rw [hroot₁, (issue_enlists g _).sets, UnionFind.rank_push, hrank]
    · rw [hroot₁]
      intro key e he c hmem
      rcases get?_issue_inv he with ⟨rfl, -⟩ | he
      · exact absurd hmem List.not_mem_nil
      · exact hchild he c hmem

/-- Adding a node whose children are roots keeps a graph settled, whether the node
was there, is new, or is a computed width that is evaluated. -/
theorem Settled.intern (hw : g.WellFormed) (h : g.Settled)
    (hc : ∀ c ∈ node.children, c < g.issued ∧ g.root c = c)
    (hi : EGraph.intern node g = .ok id g') :
    g'.Settled := by
  have h₁ : (g.issue node).Settled := h.issue hw fun c hmem => (hc c hmem).2
  rcases intern_cases hi with ⟨-, -, -, rfl⟩ | ⟨hnew, ⟨-, -, rfl⟩ | ⟨v, -, hequate⟩⟩
  · exact h
  · exact h₁
  · refine h₁.equate (hw.issue hnew fun c hmem => (hc c hmem).1) ?_ ?_
      (rank_issue hw le_rfl) ?_ hequate
    · exact issued_lt_issue _ _
    · rw [root_issue hw.ranked, hw.root_of_le le_rfl]
    · -- the new class is no child, as the children were there before
      intro key e he c hmem
      rcases get?_issue_inv he with ⟨rfl, -⟩ | he
      · rw [Node.children_key] at hmem
        exact (hc c hmem).1.ne
      · exact (hw.child_lt he c hmem).ne

theorem Settled.instantiate (hw : g.WellFormed) (h : g.Settled) (hs : g.BoundIn s)
    (hi : EGraph.instantiate s p g = .ok ref g') : g'.Settled := by
  refine (instantiate_induction (P := Settled) ?_ hw hs h hi).1
  intro n _ t m t' id hwt ht _ ha
  obtain ⟨hc, hintern⟩ := add_inv ha
  exact ht.intern hwt (canonical_children hwt (children_toNat_lt hc)) hintern

/-! ## Loaded graphs -/

/-- Graphs into which terms were loaded one after the other, the last one of the list
first. -/
inductive Loaded : List Pattern → EGraph → Prop
  | empty : Loaded [] .empty
  | load {terms : List Pattern}
      {g g' : EGraph} {text : String} {p : Pattern} {ref : Int}
      (start : Loaded terms g) (parse : Pattern.parse text = .ok p)
      (run : EGraph.load text g = .ok ref g') : Loaded (p :: terms) g'

theorem addGround_of_load {text : String} (hp : Pattern.parse text = .ok p)
    (h : EGraph.load text g = .ok ref g') : addGround p g = .ok ref g' := by
  obtain ⟨q, hq, ha⟩ := load_inv h
  obtain rfl : p = q := Except.ok.inj (hp.symm.trans hq)
  exact ha

/-- Loading is one of the calls that operations are made of. -/
theorem Loaded.calls {terms : List Pattern} (h : Loaded terms g) :
    Calls .empty g := by
  induction h with
  | empty => exact .refl
  | load _ parse run ih =>
      exact ih.trans (addGround_calls (Calls.wellFormed wellFormed_empty ih)
        (addGround_of_load parse run))

theorem Loaded.settled {terms : List Pattern} (h : Loaded terms g) : g.Settled := by
  induction h with
  | empty => exact settled_empty
  | load start parse run ih =>
      exact ih.instantiate (Calls.wellFormed wellFormed_empty start.calls)
        (boundIn_nil _) (addGround_inv (addGround_of_load parse run)).2

end Datapath.EGraph

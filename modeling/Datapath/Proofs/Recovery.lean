import Datapath.Proofs.Failures

/-!
# Datapath.Proofs.Recovery

What a rebuild makes good after earlier failures.

A rebuild brings those nodes up to date that it finds: a node has to be listed as a
parent of its children's classes, and a child that is no root any more has to be due.
A rebuild that fails has already emptied the queue of pending classes and the parent
list of the class under repair, and what it has not come to of either is lost. The
nodes concerned are `Overlooked` from then on, and a later rebuild returns without
having seen to them (`congruence_not_restored`).

Nothing else makes a node overlooked. `Attended` allows for keys that are in nobody's
care. With the overlooked keys of a graph exempted (`exists_attended`), it is kept by
calls (`Calls.attended`) and by failures outside of a rebuild (`Aborted.attended`),
so the same keys are exempted when the next rebuild returns, and this rebuild has
restored congruence among all others (`rebuild_restores`).
-/

namespace Datapath

/-- The keys of a table are those in its buckets. -/
theorem NodeTable.exists_keys (t : NodeTable) :
    ∃ keys : List (Node ClassId), ∀ {key e}, t.get? key = some e → key ∈ keys := by
  refine ⟨(t.buckets.toList.flatMap (·.2)).map Entry.key, fun {key e} he => ?_⟩
  have hbucket : e ∈ t.bucket key.code := List.mem_of_find?_eq_some he
  rw [bucket, Std.TreeMap.getD_eq_getD_getElem?] at hbucket
  cases hentries : t.buckets[key.code]? with
  | none =>
      rw [hentries] at hbucket
      cases hbucket
  | some entries =>
      rw [hentries] at hbucket
      have hpair := Std.TreeMap.mem_toList_iff_getElem?_eq_some.2 hentries
      exact List.mem_map.2 ⟨e, List.mem_flatMap.2 ⟨_, hpair, hbucket⟩,
        key_of_get? he⟩

namespace EGraph

variable {g g' t t' : EGraph} {key : Node ClassId} {L : List (Node ClassId)}
  {op : Operation}

/-! ## Overlooked nodes -/

/-- A node is stored under the key, but it is not where a repair will find it. -/
def Overlooked (g : EGraph) (key : Node ClassId) : Prop :=
  (g.table.get? key).isSome ∧ ¬ Placed [] g key

theorem not_overlooked_empty (key : Node ClassId) : ¬ empty.Overlooked key :=
  fun h => by
  simp [Overlooked, empty] at h

/-- All keys are attended to but for finitely many, which are overlooked. -/
theorem exists_attended (g : EGraph) :
    ∃ L, Attended L [] g ∧ ∀ key ∈ L, g.Overlooked key := by
  classical
  obtain ⟨keys, hkeys⟩ := g.table.exists_keys
  refine ⟨keys.filter fun key => decide (g.Overlooked key), fun key e he hkey => ?_,
    fun key hkey => ?_⟩
  · by_contra hplaced
    have hover : g.Overlooked key := ⟨Option.isSome_of_eq_some he, hplaced⟩
    exact hkey (List.mem_filter.2 ⟨hkeys he, decide_eq_true hover⟩)
  · exact of_decide_eq_true (List.mem_filter.1 hkey).2

/-! ## What overlooks nothing -/

/-- An operation that breaks off outside of a rebuild has made calls and entered
nodes, which are where they are expected. -/
theorem Aborted.attended (hw : g.WellFormed) (ha : Attended L [] g)
    (h : Aborted g g') : Attended L [] g' := by
  cases h with
  | called calls => exact calls.attended hw ha
  | entered calls children fresh result =>
      have ht := Calls.wellFormed hw calls
      have hnode := (Calls.attended hw ha calls).issue ht children
      rcases result with rfl | ⟨v, -, rfl⟩
      · exact hnode
      · exact hnode.issue (ht.issue fresh fun c hc => (children c hc).1)
          (by simp [Node.children])

/-- An operation is over without a rebuild that fails. -/
def Operation.Passes (g g' : EGraph) (op : Operation) : Prop :=
  op.Runs g g' ∨ op.FailsOutside g g'

theorem Operation.Passes.wellFormed (hw : g.WellFormed) (h : op.Passes g g') :
    g'.WellFormed := by
  rcases h with hrun | hfail
  · exact Calls.wellFormed hw (op.calls hw hrun)
  · exact (hfail.aborted hw).wellFormed hw

theorem Operation.Passes.attended (hw : g.WellFormed) (ha : Attended L [] g)
    (h : op.Passes g g') : Attended L [] g' := by
  rcases h with hrun | hfail
  · exact Calls.attended hw ha (op.calls hw hrun)
  · exact (hfail.aborted hw).attended hw ha

/-- Operations lead from one graph to another, and none of them fails in a
rebuild. -/
abbrev Unbroken : EGraph → EGraph → Prop :=
  Relation.ReflTransGen fun s t => ∃ op : Operation, op.Passes s t

/-- So do any number of them. -/
theorem Unbroken.attended (hw : g.WellFormed) (ha : Attended L [] g)
    (h : Unbroken g t) : t.WellFormed ∧ Attended L [] t := by
  induction h with
  | refl => exact ⟨hw, ha⟩
  | tail _ hpass ih =>
      obtain ⟨op, hop⟩ := hpass
      exact ⟨hop.wellFormed ih.1, hop.attended ih.1 ih.2⟩

/-! ## Rebuilds that return -/

/-- Among the keys that are attended to, a rebuild leaves canonical ones only. -/
theorem Attended.canonical_of_rebuild (hw : g.WellFormed) (ha : Attended L [] g)
    (hr : rebuild g = .ok () g') {e : Entry} (he : g'.table.get? key = some e)
    (hkey : key ∉ L) : (g'.canonical e.node).key = key := by
  have hdone : Attended L [] g' := Calls.attended hw ha (.single (.rebuild hr))
  have hroot : ∀ c ∈ e.node.children, g'.root c = c := fun c hc => by
    refine hdone.root_child (rebuild_pending hw hr) he hkey ?_
    rwa [← WellFormed.key_eq he, Entry.key, Node.children_key]
  rw [canonical, Node.map_id_of hroot, ← WellFormed.key_eq he, Entry.key]

/-- Let `g` be any graph that operations have led to, failed ones included, and let
no rebuild fail from then on. Then a rebuild that returns leaves each stored node
under its canonical key, and two with the same canonical form in one class, but for
nodes that were overlooked in `g`. At first, none are. -/
theorem rebuild_restores (hg : Visited g) (hops : Unbroken g t)
    (hr : rebuild t = .ok () t') :
    (∀ {key e}, t'.table.get? key = some e → ¬ g.Overlooked key →
      (t'.canonical e.node).key = key) ∧
    (∀ {key key' e e'}, t'.table.get? key = some e → t'.table.get? key' = some e' →
      ¬ g.Overlooked key → ¬ g.Overlooked key' →
      (t'.canonical e.node).key = (t'.canonical e'.node).key →
      t'.find e.owner = t'.find e'.owner) ∧
    ∀ key, ¬ empty.Overlooked key := by
  -- the overlooked keys of `g` are exempted for as long as no rebuild fails
  obtain ⟨L, hL, hover⟩ := exists_attended g
  obtain ⟨hw, ht⟩ := Unbroken.attended hg.wellFormed hL hops
  have hcanon {key : Node ClassId} {e : Entry} (he : t'.table.get? key = some e)
      (hkey : ¬ g.Overlooked key) : (t'.canonical e.node).key = key :=
    ht.canonical_of_rebuild hw hr he fun hmem => hkey (hover key hmem)
  refine ⟨hcanon, fun {key key' e e'} he he' hkey hkey' hsame => ?_,
    not_overlooked_empty⟩
  -- nodes with one canonical key are both stored under it, so they are one entry
  obtain rfl : key = key' := by rw [← hcanon he hkey, hsame, hcanon he' hkey']
  rw [he] at he'
  cases he'
  rfl

/-- After a rebuild that failed, the sums over two new symbols that are united are
brought up to date. -/
theorem rebuild_restores_later :
    ∃ g t t' key e, (∃ s err, Reached s ∧ rebuild s = .error err g) ∧
    Unbroken g t ∧ rebuild t = .ok () t' ∧ t.size = 6 ∧ t'.size = 5 ∧
    t'.table.get? key = some e ∧
    ¬ g.Overlooked key ∧ (t'.canonical e.node).key = key := by
  have hrun : (fromEmpty (ε := GraphError) do
      let _ ← EGraph.addGround (.derived .sum (.symbol "A") (.symbol "A"))
      let _ ← EGraph.addGround (.literal 7)
      let _ ← EGraph.addGround (.literal 3)
      let _ ← EGraph.merge 1 2
      let _ ← EGraph.merge 0 3
      let s ← get
      return match EGraph.rebuild s with
        | .ok .. => false
        | .error _ g => match (do
            let _ ← EGraph.addGround (.derived .sum (.symbol "B") (.symbol "B"))
            let _ ← EGraph.addGround (.derived .sum (.symbol "C") (.symbol "C"))
            let _ ← EGraph.merge 5 7 : GraphM Unit) g with
          | .error .. => false
          | .ok _ t => match EGraph.rebuild t with
            | .error .. => false
            | .ok _ t' => (g.table.get? (.derived .sum 5 5)).isNone ∧
                (t'.table.get? (.derived .sum 5 5)).isSome ∧ t.size = 6 ∧
                t'.size = 5).toOption.map (·.1) =
        some true := by
    decide +kernel
  obtain ⟨⟨result, g₅⟩, hok, hresult⟩ := Option.map_eq_some_iff.1 hrun
  obtain ⟨a₁, g₁, h₁, hok⟩ := bind_inv (fromEmpty_inv (toOption_inv hok))
  obtain ⟨a₂, g₂, h₂, hok⟩ := bind_inv hok
  obtain ⟨a₃, g₃, h₃, hok⟩ := bind_inv hok
  obtain ⟨a₄, g₄, h₄, hok⟩ := bind_inv hok
  obtain ⟨a₅, g₅, h₅, hok⟩ := bind_inv hok
  rw [get_bind] at hok
  obtain ⟨rfl, rfl⟩ := pure_inv hok
  have hterms : Reached g₃ :=
    .run (.addTerm _) (.run (.addTerm _) (.run (.addTerm _) .empty
      ⟨a₁, h₁⟩) ⟨a₂, h₂⟩) ⟨a₃, h₃⟩
  have hreached : Reached g₅ :=
    .run (.merge 0 3) (.run (.merge 1 2) hterms ⟨a₄, h₄⟩) ⟨a₅, h₅⟩
  cases hfirst : EGraph.rebuild g₅ with
  | ok u g => simp only [hfirst] at hresult; cases hresult
  | error err g =>
      simp only [hfirst] at hresult
      split at hresult
      · cases hresult
      · next u t hlater =>
        obtain ⟨b₁, t₁, k₁, hlater⟩ := bind_inv hlater
        obtain ⟨b₂, t₂, k₂, hlater⟩ := bind_inv hlater
        obtain ⟨b₃, t₃, k₃, hlater⟩ := bind_inv hlater
        obtain ⟨-, rfl⟩ := pure_inv hlater
        have hterms : Unbroken g t₂ :=
          (Relation.ReflTransGen.single ⟨.addTerm _, Or.inl ⟨b₁, k₁⟩⟩).tail
            ⟨.addTerm _, Or.inl ⟨b₂, k₂⟩⟩
        have hops : Unbroken g t₃ :=
          hterms.tail ⟨.merge 5 7, Or.inl ⟨b₃, k₃⟩⟩
        cases hsecond : EGraph.rebuild t₃ with
        | error err' t' => simp only [hsecond] at hresult; cases hresult
        | ok u t' =>
            simp only [hsecond] at hresult
            obtain ⟨hnew, hstored, hbefore, hafter⟩ := of_decide_eq_true hresult
            obtain ⟨e, he⟩ := Option.isSome_iff_exists.1 hstored
            have hover : ¬ g.Overlooked (.derived .sum 5 5) := fun h =>
              Option.not_isSome_iff_eq_none.2 (Option.isNone_iff_eq_none.1 hnew) h.1
            exact ⟨g, t₃, t', _, e, ⟨g₅, err, hreached, hfirst⟩, hops, hsecond,
              hbefore, hafter, he, hover,
              (rebuild_restores (.fail .rebuild hreached.visited ⟨err, hfirst⟩) hops
                hsecond).1 he hover⟩

/-- What a rebuild that fails has lost is not found by the next one. The first
rebuild computes four for the sum over `A` and finds seven there. The union of `B`
and `C` has been taken from the queue by then, so the second one returns at once, and
the sums over the two are congruent but not equal. -/
theorem congruence_not_restored :
    ∃ g t g' err key key' e e', Reached g ∧ rebuild g = .error err t ∧
    rebuild t = .ok () g' ∧ g'.table.get? key = some e ∧
    g'.table.get? key' = some e' ∧
    (g'.canonical e.node).key = (g'.canonical e'.node).key ∧
    g'.find e.owner ≠ g'.find e'.owner ∧ (g'.canonical e'.node).key ≠ key' := by
  have hrun : (fromEmpty (ε := GraphError) do
      let _ ← EGraph.addGround (.derived .sum (.symbol "A") (.symbol "A"))
      let _ ← EGraph.addGround (.literal 7)
      let _ ← EGraph.addGround (.literal 3)
      let _ ← EGraph.addGround (.derived .sum (.symbol "B") (.symbol "B"))
      let _ ← EGraph.addGround (.derived .sum (.symbol "C") (.symbol "C"))
      let _ ← EGraph.merge 1 2
      let _ ← EGraph.merge 0 3
      let _ ← EGraph.merge 4 6
      let g ← get
      return match EGraph.rebuild g with
        | .ok .. => false
        | .error _ t => match EGraph.rebuild t with
          | .error .. => false
          | .ok _ g' => (g'.table.get? (.derived .sum 4 4)).any fun e =>
            (g'.table.get? (.derived .sum 6 6)).any fun e' =>
              (g'.canonical e.node).key = .derived .sum 4 4 ∧
              (g'.canonical e'.node).key = .derived .sum 4 4 ∧
              (g'.find e.owner).toOption = some 5 ∧
              (g'.find e'.owner).toOption = some 7).toOption.map (·.1) =
                some true := by
    decide +kernel
  obtain ⟨⟨result, g₈⟩, hok, hresult⟩ := Option.map_eq_some_iff.1 hrun
  obtain ⟨a₁, g₁, h₁, hok⟩ := bind_inv (fromEmpty_inv (toOption_inv hok))
  obtain ⟨a₂, g₂, h₂, hok⟩ := bind_inv hok
  obtain ⟨a₃, g₃, h₃, hok⟩ := bind_inv hok
  obtain ⟨a₄, g₄, h₄, hok⟩ := bind_inv hok
  obtain ⟨a₅, g₅, h₅, hok⟩ := bind_inv hok
  obtain ⟨a₆, g₆, h₆, hok⟩ := bind_inv hok
  obtain ⟨a₇, g₇, h₇, hok⟩ := bind_inv hok
  obtain ⟨a₈, g₈, h₈, hok⟩ := bind_inv hok
  rw [get_bind] at hok
  obtain ⟨rfl, rfl⟩ := pure_inv hok
  have hterms : Reached g₅ :=
    .run (.addTerm _) (.run (.addTerm _) (.run (.addTerm _) (.run (.addTerm _)
      (.run (.addTerm _) .empty ⟨a₁, h₁⟩) ⟨a₂, h₂⟩) ⟨a₃, h₃⟩) ⟨a₄, h₄⟩) ⟨a₅, h₅⟩
  have hreached : Reached g₈ :=
    .run (.merge 4 6) (.run (.merge 0 3) (.run (.merge 1 2) hterms
      ⟨a₆, h₆⟩) ⟨a₇, h₇⟩) ⟨a₈, h₈⟩
  cases hfirst : EGraph.rebuild g₈ with
  | ok u t => simp only [hfirst] at hresult; cases hresult
  | error err t =>
      cases hsecond : EGraph.rebuild t with
      | error err' t' => simp only [hfirst, hsecond] at hresult; cases hresult
      | ok u g' =>
          simp only [hfirst, hsecond] at hresult
          obtain ⟨e, he, hinner⟩ := (Option.any_eq_true _ _).1 hresult
          obtain ⟨e', he', hfound⟩ := (Option.any_eq_true _ _).1 hinner
          obtain ⟨hsame, hsame', hfind, hfind'⟩ := of_decide_eq_true hfound
          refine ⟨g₈, t, g', err, _, _, e, e', hreached, hfirst, hsecond, he, he',
            hsame.trans hsame'.symm, fun heq => ?_, fun heq => ?_⟩
          · rw [heq, hfind'] at hfind
            cases hfind
          · rw [hsame'] at heq
            cases heq

end EGraph

end Datapath

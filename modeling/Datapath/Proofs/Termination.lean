import Datapath.Proofs.Conflicts
import Datapath.Proofs.Sessions

/-!
# Datapath.Proofs.Termination

Repairs come to an end.

A rebuild repairs classes until none is pending. While it does, more classes become
pending and literals are added, and `EGraph.rebuild` is therefore given a number of
passes in advance. `Repairs` is the loop without it, as a relation to the result of
the loop and to the number of repairs that it takes.

The loop ends because every class that becomes pending is paid for. Two classes have
been united then, and fewer classes are without a literal (`card_unvalued_absorb`),
while a class that a repair adds has a literal from the beginning. So whatever a
repair does, there are never more pending classes and classes without a literal
together than before (`Affords`), and the class that it is about is no longer
pending. That the argument of a node may lie in the class of the node itself does not
matter.
-/

namespace Datapath.EGraph

variable {g g' g'' : EGraph} {id x y z : ClassId} {todo : List ClassId}
  {key node : Node ClassId} {e : Entry}
  {n m : ℕ} {r q : EStateM.Result GraphError EGraph Unit}

/-! ## The loop -/

/-- Repairs the class that a number belongs to. -/
def repairAt (id : ClassId) : GraphM Unit := do repair ((← get).root id)

/-- With the classes `todo` left of a pass, the loop goes on from the graph to the
result `r`, and repairs `n` classes until then. -/
inductive Repairs :
    List ClassId → EGraph → ℕ → EStateM.Result GraphError EGraph Unit → Prop
  /-- A pass is over, and it was the last one. -/
  | done {g : EGraph} (idle : g.pending = #[]) : Repairs [] g 0 (.ok () g)
  /-- A pass is over, and the next one is about the classes that are pending by
  now. -/
  | pass {g : EGraph} {n : ℕ} {r : EStateM.Result GraphError EGraph Unit}
      (due : g.pending ≠ #[])
      (rest : Repairs g.pending.toList { g with pending := #[] } n r) :
      Repairs [] g n r
  | next {g g' : EGraph} {id : ClassId} {todo : List ClassId} {n : ℕ}
      {r : EStateM.Result GraphError EGraph Unit} (run : repairAt id g = .ok () g')
      (rest : Repairs todo g' n r) : Repairs (id :: todo) g (n + 1) r
  /-- A repair fails, and what is left of the pass is not done. -/
  | fail {g g' : EGraph} {id : ClassId} {todo : List ClassId} {err : GraphError}
      (run : repairAt id g = .error err g') :
      Repairs (id :: todo) g 1 (.error err g')

/-- The loop takes its course: from a graph it leads to one result, by one number of
repairs. -/
theorem Repairs.unique (h : Repairs todo g n r) (h' : Repairs todo g m q) :
    m = n ∧ q = r := by
  induction h generalizing m q with
  | done idle =>
      cases h' with
      | done => exact ⟨rfl, rfl⟩
      | pass due => exact absurd idle due
  | pass due _ ih =>
      cases h' with
      | done idle => exact absurd idle due
      | pass _ rest => exact ih rest
  | next run _ ih =>
      cases h' with
      | next run' rest =>
          rw [run] at run'
          cases run'
          obtain ⟨rfl, rfl⟩ := ih rest
          exact ⟨rfl, rfl⟩
      | fail run' =>
          rw [run] at run'
          cases run'
  | fail run =>
      cases h' with
      | next run' =>
          rw [run] at run'
          cases run'
      | fail run' =>
          rw [run] at run'
          cases run'
          exact ⟨rfl, rfl⟩

/-- What is left of a pass is repaired before the next passes. -/
theorem repairs_of_forM {rest : GraphM Unit}
    (hrest : ∀ t, (∀ t', rest t = .ok () t' → t'.pending = #[]) →
      ∃ n, Repairs [] t n (rest t))
    (hidle : ∀ g', (do todo.forM repairAt; rest) g = .ok () g' → g'.pending = #[]) :
    ∃ n, Repairs todo g n ((do todo.forM repairAt; rest) g) := by
  induction todo generalizing g with
  | nil => exact hrest g hidle
  | cons id todo ih =>
      cases hrun : repairAt id g with
      | ok u t =>
          have hgo : (do (id :: todo).forM repairAt; rest) g =
              (do todo.forM repairAt; rest) t := by
            exact (congrFun (bind_assoc (repairAt id) _ _) g).trans (bind_ok hrun)
          rw [hgo] at hidle ⊢
          obtain ⟨n, hn⟩ := ih hidle
          -- this repair counts, and the rest of the pass goes on behind it
          exact ⟨n + 1, .next hrun hn⟩
      | error err t =>
          have hstop : (do (id :: todo).forM repairAt; rest) g = .error err t := by
            exact (congrFun (bind_assoc (repairAt id) _ _) g).trans (bind_error hrun)
          rw [hstop]
          exact ⟨1, .fail hrun⟩

/-- The loop does what its bounded passes do, unless they are too few. -/
theorem repairs_of_rebuildPasses (passes : ℕ)
    (hidle : ∀ g', rebuildPasses passes g = .ok () g' → g'.pending = #[]) :
    ∃ n, Repairs [] g n (rebuildPasses passes g) := by
  induction passes generalizing g with
  | zero => exact ⟨0, .done (hidle g rfl)⟩
  | succ passes ih =>
      by_cases hempty : g.pending = #[]
      · have hdone : rebuildPasses (passes + 1) g = .ok () g := by
          unfold rebuildPasses
          rw [get_bind, hempty]
          rfl
        rw [hdone]
        exact ⟨0, .done hempty⟩
      · have hpass : rebuildPasses (passes + 1) g =
            (do g.pending.toList.forM repairAt; rebuildPasses passes)
              { g with pending := #[] } := by
          rw [rebuildPasses, get_bind, if_neg (by simpa using hempty)]
          exact bind_ok rfl
        rw [hpass] at hidle ⊢
        -- the passes that are left have been shown to be the loop
        obtain ⟨n, hn⟩ := repairs_of_forM (fun t ht => ih ht) hidle
        exact ⟨n, .pass hempty hn⟩

/-! ## What a repair may spend -/

/-- There are no more pending classes and classes without a literal together than
before. -/
def Affords (g g' : EGraph) : Prop :=
  g'.pending.size + g'.unvalued.card ≤ g.pending.size + g.unvalued.card

theorem Affords.refl (g : EGraph) : Affords g g := le_rfl

theorem Affords.trans (h : Affords g g') (h' : Affords g' g'') : Affords g g'' :=
  Nat.le_trans h' h

theorem Affords.of_eq (hpending : g'.pending = g.pending)
    (hunvalued : g'.unvalued = g.unvalued) : Affords g g' := by
  rw [Affords, hpending, hunvalued]

theorem Affords.of_enlists (h : Enlists g g') : Affords g g' :=
  .of_eq h.pending
    (unvalued_congr h.sets fun r => by rw [HasLiteral, HasLiteral, h.nodes])

/-- A union makes one class pending and takes one that has no literal, or gives it
one. -/
theorem affords_unite (h : g.WellFormed) (hx : x < g.issued) (hy : y < g.issued)
    (hu : unite x y g = .ok z g') : Affords g g' := by
  rcases unite_cases h hx hy hu with ⟨-, rfl, -⟩ | ⟨w, l, hj, rfl, -⟩
  · exact .refl _
  · have hcard := card_unvalued_absorb h hj
    have hsize : (g.absorb w l).pending.size = g.pending.size + 1 :=
      Array.size_push _
    rw [Affords, hsize]
    omega

/-- A literal may be added for nothing. -/
theorem affords_equate (h : g.WellFormed) {v : Binary64} (hy : y < g.issued)
    (hr : equate v y g = .ok z g') : Affords g g' := by
  obtain ⟨x, t, henter, hunite⟩ := bind_inv hr
  rcases enter_cases henter with ⟨e, he, rfl, rfl⟩ | ⟨hnew, rfl, rfl⟩
  · exact affords_unite h (h.root_lt (h.owner_lt he)) hy hunite
  · have ht : (g.issue (.literal v)).WellFormed :=
      h.issue hnew (by simp [Node.children])
    have hissue : Affords g (g.issue (.literal v)) :=
      .of_eq (pending_issue g _) (unvalued_issue_literal h v)
    refine hissue.trans (affords_unite ht ?_ ?_ hunite)
    · exact issued_lt_issue _ _
    · exact lt_issue hy _

/-- Nor does folding a parent again cost anything, since the literal counts for the
union. -/
theorem affords_refold (h : g.WellFormed) {u : Unit} (hy : y < g.issued)
    (hr : refold node y g = .ok u g') : Affords g g' := by
  obtain ⟨v, z, -, hz⟩ | ⟨-, rfl⟩ := refold_cases hr
  · exact affords_equate h hy hz
  · exact .refl _

/-- A node that is dropped pays with the union that it causes, and one that is moved
costs nothing. -/
theorem affords_rekey (h : g.WellFormed) {u : Unit}
    (he : g.table.get? e.key = some e)
    (hr : rekey e (g.canonical e.node) (g.root e.owner) g = .ok u g') :
    Affords g g' := by
  obtain ⟨e', z, hc, hu⟩ | ⟨-, rfl⟩ := rekey_cases hr
  · obtain ⟨hne, he'⟩ := congruent?_inv hc
    have hdrop : Affords g (g.dropKey e.key (g.root e.owner)) :=
      .of_eq rfl (unvalued_congr (dropKey_sameFrame g _ _).sets
        (hasLiteral_dropKey h he hne))
    exact hdrop.trans
      (affords_unite (h.dropKey he) (h.root_lt (h.owner_lt he)) (h.owner_lt he') hu)
  · have hframe := restore_sameFrame g e (g.canonical e.node) (g.root e.owner)
    exact .of_eq hframe.pending
      (unvalued_congr hframe.sets (hasLiteral_restore h he))

/-- So bringing a parent up to date can be afforded. -/
theorem affords_repairParent (h : g.WellFormed) {u : Unit}
    (hr : repairParent key g = .ok u g') : Affords g g' := by
  obtain ⟨-, rfl⟩ | ⟨e, t, rfl, he, hrekey, hfold⟩ := repairParent_cases hr
  · exact .refl _
  · obtain ⟨step, -⟩ := rekey_steps h he hrekey
    have hlisted := enlist_enlists t (g.canonical e.node).key
    have howner : g.root e.owner < (t.enlist (g.canonical e.node).key).issued := by
      rw [hlisted.issued]
      exact lt_of_rekey h he hrekey (h.root_lt (h.owner_lt he))
    exact (affords_rekey h he hrekey).trans <| (Affords.of_enlists hlisted).trans <|
      affords_refold ((step.wellFormed h).of_enlists hlisted) howner hfold

/-- A repair spends no more than it takes, whatever is in the class. -/
theorem affords_repair (h : g.WellFormed) {u : Unit} (hr : repair id g = .ok u g') :
    Affords g g' := by
  have hclear : Affords g (g.cleared id) :=
    .of_eq rfl (unvalued_congr rfl fun r => by
      rw [HasLiteral, HasLiteral, (sameContent_cleared g id).nodes])
  exact repair_induction (P := fun _ s => Affords g s) h hclear
    (fun _ _ _ _ hs ha hrun => ha.trans (affords_repairParent hs hrun))
    (fun _ _ ha hlast => ha.trans (.of_enlists hlast)) hr

/-- The loop repairs no more classes than are left to be repaired or without a
literal. -/
theorem Repairs.le (h : Repairs todo g n r) (hw : g.WellFormed) :
    n ≤ todo.length + g.pending.size + g.unvalued.card := by
  induction h with
  | done => exact Nat.zero_le _
  | @pass g n r due rest ih =>
      have hn := ih ((steps_take_pending g).wellFormed hw)
      have hunvalued :
          ({ g with pending := #[] } : EGraph).unvalued = g.unvalued := rfl
      rw [hunvalued, Array.length_toList, Array.size_empty] at hn
      rw [List.length_nil]
      omega
  | @next g g' id todo n r run rest ih =>
      have hrun : repair (g.root id) g = .ok () g' := run
      have hn := ih ((repair_steps hw hrun).wellFormed hw)
      -- the class that was repaired is one less to be done
      have hafford : Affords g g' := affords_repair hw hrun
      rw [Affords] at hafford
      rw [List.length_cons]
      omega
  | fail =>
      rw [List.length_cons]
      omega

/-! ## Rebuilding -/

/-- In every graph that a session leads to, whatever has failed in it, the loop of a
rebuild comes to an end. It repairs at most as many classes as are pending or have
been issued, and its only result is that of `rebuild`: no class is pending any more,
or two constants are in conflict. On the maps, where every number is looked up with a
check, a rebuild ends in the same way. -/
theorem rebuild_finishes (requests : List Request) :
    let g := stateAfter perform .empty requests
    (∃ n ≤ g.pending.size + g.issued,
      Repairs [] g n (rebuild g) ∧ ∀ m q, Repairs [] g m q → m = n ∧ q = rebuild g) ∧
    ((∃ g', rebuild g = .ok () g' ∧ g'.pending = #[]) ∨
      ∃ id existing incoming g',
        rebuild g = .error (.constantConflict id existing incoming) g') ∧
    Concrete.Agree Concrete.rebuild rebuild
      (stateAfter Concrete.perform .empty requests) g := by
  intro g
  have hm := Concrete.models_after requests
  have hw : g.WellFormed := hm.wellFormed
  refine ⟨?_, ?_, Concrete.agree_rebuild hm⟩
  · obtain ⟨n, hn⟩ : ∃ n, Repairs [] g n (rebuild g) :=
      repairs_of_rebuildPasses _ fun g' hrun => rebuild_pending hw (u := ()) hrun
    have hle := hn.le hw
    have hcard := card_unvalued_le g
    refine ⟨n, ?_, hn, fun m q hm => hn.unique hm⟩
    rw [List.length_nil] at hle
    omega
  · cases conforms_rebuild hw with
    | ok _ run => exact Or.inl ⟨_, run, rebuild_pending hw run⟩
    | conflict _ run => exact Or.inr ⟨_, _, _, _, run⟩

end Datapath.EGraph

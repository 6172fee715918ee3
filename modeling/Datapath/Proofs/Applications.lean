import Datapath.Proofs.Matching

/-!
# Datapath.Proofs.Applications

What equations offer in a graph.

Collecting the applications of a round does not fail, since a match binds variables
to classes that exist (`exists_applications`), and each application stands where
there is an instance of the left side (`offered_of_mem_applications`). In a graph
that has just been rebuilt, they are all the matches of the left sides whose guard
holds (`mem_applications`).
-/

namespace Datapath

/-! ## Filtering with a test that may fail -/

section

variable {ε α : Type} {p : α → Except ε Bool} {l r : List α}

theorem exists_filterM (h : ∀ a ∈ l, ∃ b, p a = .ok b) :
    ∃ r, l.filterM p = .ok r := by
  -- the loop collects what it keeps in reverse, so it is taken up with any
  -- collection
  have haux (acc : List α) : ∃ r, l.filterAuxM p acc = .ok r := by
    induction l generalizing acc with
    | nil => exact ⟨acc, rfl⟩
    | cons a rest ih =>
        obtain ⟨b, hb⟩ := h a List.mem_cons_self
        rw [List.filterAuxM, hb]
        exact ih (fun a' ha' => h a' (List.mem_cons_of_mem _ ha')) _
  obtain ⟨kept, hkept⟩ := haux []
  refine ⟨kept.reverse, ?_⟩
  rw [List.filterM, hkept]
  rfl

/-- What passes the test is kept. -/
theorem mem_filterM (h : l.filterM p = .ok r) {a : α} :
    a ∈ r ↔ a ∈ l ∧ p a = .ok true := by
  -- again with what has been kept so far
  have haux (l acc r : List α) (h : l.filterAuxM p acc = .ok r) :
      a ∈ r ↔ a ∈ acc ∨ a ∈ l ∧ p a = .ok true := by
    induction l generalizing acc with
    | nil =>
        cases h
        simp
    | cons b rest ih =>
        obtain ⟨keep, hkeep, hrest⟩ := except_bind_inv h
        rw [ih _ hrest]
        by_cases hab : a = b
        · subst hab
          cases keep <;> simp [hkeep]
        · cases keep <;> simp [hab]
  obtain ⟨kept, hkept, hrev⟩ := except_bind_inv h
  cases hrev
  rw [List.mem_reverse, haux l [] kept hkept]
  simp

end

/-- The left side has no literal that equals nothing. A literal NaN would never be
found, not even in a class that has one, and so the search would not be exact. -/
def Equation.Matchable (eqn : Equation) : Prop :=
  ∀ v, .literal v ∈ eqn.lhs.parts → v.level ≠ none

namespace EGraph

variable {g g' : EGraph} {s : Subst} {eqn : Equation} {equations : List Equation}
  {app : Application} {apps : List Application}

/-! ## Guards -/

/-- A constant that was looked up is that of a class that was issued. -/
theorem constantAt_inv {ref : Int} {c : Option Binary64}
    (h : g.constantAt ref = .ok c) :
    ref.toNat < g.issued ∧ g.constant? ref.toNat = c := by
  obtain ⟨id, hid, hc⟩ := except_bind_inv h
  obtain ⟨-, hlt, rfl⟩ := find_inv hid
  cases hc
  exact ⟨hlt, rfl⟩

/-- All variables are bound to classes that have a constant, and these are read in
order. -/
theorem constantsOf_eq_some {names : List String} {values : List Binary64} :
    g.constantsOf s names = .ok (some values) ↔ List.Forall₂ (fun name v =>
      ∃ ref, s.get? name = some ref ∧ g.constantAt ref = .ok (some v))
        names values := by
  induction names generalizing values with
  | nil => simp [constantsOf, pure, Except.pure, eq_comm]
  | cons name rest ih =>
      constructor
      · intro h
        -- one name at a time: it is bound, its class has a constant, and the others
        -- follow
        unfold constantsOf at h
        cases hs : s.get? name with
        | none => rw [hs] at h; cases h
        | some ref =>
            rw [hs] at h
            obtain ⟨value, hat, hmatch⟩ := except_bind_inv h
            cases value with
            | none => cases hmatch
            | some v =>
                obtain ⟨others, hothers, hcons⟩ := except_bind_inv hmatch
                cases others with
                | none => cases hcons
                | some vs =>
                    cases hcons
                    exact .cons ⟨ref, hs, hat⟩ (ih.1 hothers)
      · intro h
        cases h with
        | cons hfirst hrest =>
            obtain ⟨ref, hs, hat⟩ := hfirst
            rw [constantsOf, hs]
            dsimp only
            rw [hat, ih.2 hrest]
            rfl

/-- A guard lets an equation be applied if its condition holds of the constants of
its variables. So all of them have to be known; an equation without a condition is
always applied. -/
theorem guard_eq_true : eqn.guard g s = .ok true ↔ ∀ c, eqn.condition = some c →
    ∃ values, g.constantsOf s c.vars = .ok (some values) ∧
      c.check values = true := by
  unfold Equation.guard
  cases eqn.condition with
  | none => exact ⟨fun _ _ hc => (by cases hc), fun _ => rfl⟩
  | some c =>
      constructor
      · intro h c' hc'
        cases hc'
        obtain ⟨values, hvalues, hcheck⟩ := except_bind_inv h
        cases values with
        | none => cases hcheck
        | some vs => exact ⟨vs, hvalues, Except.ok.inj hcheck⟩
      · intro h
        obtain ⟨values, hvalues, hcheck⟩ := h c rfl
        dsimp only
        rw [hvalues, ← hcheck]
        rfl

/-- Reading the constants of bound variables does not fail, though it may find that
one of them is not known. -/
theorem exists_constantsOf (hs : g.BoundIn s) (names : List String) :
    ∃ values, g.constantsOf s names = .ok values := by
  induction names with
  | nil => exact ⟨_, rfl⟩
  | cons name rest ih =>
      unfold constantsOf
      cases hget : s.get? name with
      | none => exact ⟨_, rfl⟩
      | some ref =>
          obtain ⟨others, hothers⟩ := ih
          have hat : g.constantAt ref =
              .ok (g.record (g.root ref.toNat)).constant := by
            rw [constantAt, find_of_issued (hs name ref hget)]
            rfl
          dsimp only
          rw [hat, hothers]
          cases (g.record (g.root ref.toNat)).constant <;> exact ⟨_, rfl⟩

/-- Nor does asking a guard. -/
theorem exists_guard (hs : g.BoundIn s) (eqn : Equation) :
    ∃ b, eqn.guard g s = .ok b := by
  unfold Equation.guard
  cases eqn.condition with
  | none => exact ⟨_, rfl⟩
  | some c =>
      obtain ⟨values, hvalues⟩ := exists_constantsOf hs c.vars
      dsimp only
      rw [hvalues]
      cases values <;> exact ⟨_, rfl⟩

/-! ## Collecting applications -/

/-- The class of an application holds the instance of the left side, and the guard
lets it be made. -/
structure Offered (g : EGraph) (app : Application) : Prop where
  lt : app.id < g.issued
  boundIn : g.BoundIn app.subst
  realizes : g.Realizes app.subst app.equation.lhs app.id
  guard : app.equation.guard g app.subst = .ok true

/-- A match that the search finds is in an issued class, which holds the instance of
the left side. -/
theorem realizes_of_mem_candidates (hw : g.WellFormed) (h : app ∈ g.candidates eqn) :
    app.equation = eqn ∧ app.id < g.issued ∧ g.BoundIn app.subst ∧
      g.Realizes app.subst eqn.lhs app.id := by
  obtain ⟨found, hsearch, hsubst⟩ := List.mem_flatMap.1 h
  obtain ⟨s, hs, rfl⟩ := List.mem_map.1 hsubst
  obtain ⟨id, hid, rfl⟩ := List.mem_map.1 (List.mem_filter.1 hsearch).1
  obtain ⟨hlt, -⟩ := (mem_classIds hw).1 hid
  obtain ⟨hprolongs, hlhs⟩ := realizes_of_mem_matchIn hw hlt hs
  exact ⟨rfl, hlt, hprolongs.boundIn (boundIn_nil g), hlhs⟩

/-- What a round collects is offered by the graph it was collected in. -/
theorem offered_of_mem_applications (hw : g.WellFormed)
    (happs : g.applications equations = .ok apps)
    (hmem : app ∈ apps) : app.equation ∈ equations ∧ g.Offered app := by
  obtain ⟨hcand, hguard⟩ := (mem_filterM happs).1 hmem
  obtain ⟨eqn, heqn, hfound⟩ := List.mem_flatMap.1 hcand
  obtain ⟨rfl, hlt, hbound, hlhs⟩ := realizes_of_mem_candidates hw hfound
  exact ⟨heqn, hlt, hbound, hlhs, hguard⟩

/-- In a well-formed graph, collecting the applications of a round does not fail. -/
theorem exists_applications (hw : g.WellFormed) (equations : List Equation) :
    ∃ apps, g.applications equations = .ok apps := by
  refine exists_filterM fun app happ => ?_
  obtain ⟨eqn, -, hcand⟩ := List.mem_flatMap.1 happ
  obtain ⟨-, -, hbound, -⟩ := realizes_of_mem_candidates hw hcand
  exact exists_guard hbound _

/-- After a rebuild, what the search finds for an equation are exactly the matches of
its left side. -/
theorem mem_candidates (hg : g.Rebuilt) (hm : eqn.Matchable) :
    app ∈ g.candidates eqn ↔
      app.equation = eqn ∧ g.IsMatch eqn.lhs app.id app.subst := by
  obtain ⟨eqn', id, s⟩ := app
  rw [← hg.mem_matchIn hm]
  simp only [candidates, search, List.mem_flatMap, List.mem_filter, List.mem_map]
  constructor
  · rintro ⟨found, ⟨⟨k, hk, rfl⟩, -⟩, t, ht, heq⟩
    cases heq
    exact ⟨rfl, hk, ht⟩
  · -- a class with a match is not left out of the search
    rintro ⟨rfl, hid, hs⟩
    refine ⟨_, ⟨⟨id, hid, rfl⟩, ?_⟩, s, hs, rfl⟩
    cases hmatch : g.matchIn eqn'.lhs id [] with
    | nil => rw [hmatch] at hs; exact absurd hs List.not_mem_nil
    | cons => rfl

/-- The applications of a round are the matches whose guard holds. This is what later
theorems use of a round; how the search comes to them does not matter. -/
theorem mem_applications (hg : g.Rebuilt) (hm : ∀ eqn ∈ equations, eqn.Matchable)
    (happs : g.applications equations = .ok apps) :
    app ∈ apps ↔ app.equation ∈ equations ∧
    g.IsMatch app.equation.lhs app.id app.subst ∧
      app.equation.guard g app.subst = .ok true := by
  rw [mem_filterM happs, List.mem_flatMap, ← and_assoc]
  refine and_congr_left fun _ => ⟨?_, ?_⟩
  · rintro ⟨eqn, heqn, hcand⟩
    obtain ⟨rfl, hmatch⟩ := (mem_candidates hg (hm eqn heqn)).1 hcand
    exact ⟨heqn, hmatch⟩
  · rintro ⟨heqn, hmatch⟩
    exact ⟨_, heqn, (mem_candidates hg (hm _ heqn)).2 ⟨rfl, hmatch⟩⟩

/-! ## Invariants of runs -/

theorem Rebuilt.applyAll (hg : g.Rebuilt) {n : ℕ}
    (ha : EGraph.applyAll apps g = .ok n g') :
    g'.Rebuilt := by
  obtain ⟨g₁, heach, hrebuild⟩ := applyAll_inv ha
  exact ⟨g₁, hg.calls.trans (applyEach_calls hg.wellFormed heach), hrebuild⟩

/-- A property of graphs that is kept by steps, and by the applications that the
equations offer in a rebuilt graph with the property, also when they are made later
in the round. -/
structure Kept (P : EGraph → Prop) (equations : List Equation) : Prop where
  steps : ∀ {g g'}, g.WellFormed → P g → Steps g g' → P g'
  apply : ∀ {g apps app t t' b}, g.Rebuilt → P g →
    g.applications equations = .ok apps →
    app ∈ apps → t.WellFormed → Extends g t → P t → applyAt app t = .ok b t' → P t'

namespace Kept

variable {P : EGraph → Prop} {n : ℕ} {o : Options}

/-- The applications are made one after the other, in graphs that extend the one they
were collected in. -/
theorem applyEach (hP : Kept P equations) (hg : g.Rebuilt) (h : P g)
    (happs : g.applications equations = .ok apps)
    (ha : EGraph.applyEach apps g = .ok n g') :
    g'.WellFormed ∧ P g' := by
  -- the equations were offered in `g`, so `g` has to be remembered along the way
  have hmade : g'.WellFormed ∧ Extends g g' ∧ P g' := by
    refine applyEach_induction (P := fun t => t.WellFormed ∧ Extends g t ∧ P t) ?_
      ⟨hg.wellFormed, .refl g, h⟩ ha
    rintro app hmem t t' b ⟨hw, hext, ht⟩ hrun
    have hcalls := applyAt_calls hw hrun
    exact ⟨Calls.wellFormed hw hcalls, hext.trans (Calls.extends hw hcalls),
      hP.apply hg h happs hmem hw hext ht hrun⟩
  exact ⟨hmade.1, hmade.2.2⟩

theorem applyAll (hP : Kept P equations) (hg : g.Rebuilt) (h : P g)
    (happs : g.applications equations = .ok apps)
    (ha : EGraph.applyAll apps g = .ok n g') : P g' := by
  obtain ⟨g₁, heach, hrebuild⟩ := applyAll_inv ha
  obtain ⟨hw, h₁⟩ := hP.applyEach hg h happs heach
  exact hP.steps hw h₁ (rebuild_steps hw hrebuild)

/-- A single application of an equation keeps the property, from any graph that was
reached without a failure. -/
theorem applyOnce (hP : Kept P [eqn]) (c : Calls empty g) (h : P g)
    (ha : EGraph.applyOnce eqn g = .ok n g') : P g' ∧ g'.Rebuilt := by
  obtain ⟨g₁, apps, hrebuild, happs, hall⟩ := applyOnce_inv ha
  have hw := Calls.wellFormed wellFormed_empty c
  have hg₁ : g₁.Rebuilt := ⟨g, c, hrebuild⟩
  exact ⟨hP.applyAll hg₁ (hP.steps hw h (rebuild_steps hw hrebuild)) happs hall,
    hg₁.applyAll hall⟩

/-- A run keeps the property, as it is a repair and then one round after the
other. -/
theorem saturate (hP : Kept P equations) (c : Calls empty g) (h : P g)
    {stats : Stats} (hs : EGraph.saturate equations o g = .ok stats g') :
    P g' ∧ g'.Rebuilt := by
  obtain ⟨g₁, p, hrebuild, hrounds⟩ := saturate_inv hs
  have hw := Calls.wellFormed wellFormed_empty c
  refine saturateRounds_induction (P := fun t => P t ∧ t.Rebuilt) ?_
    ⟨hP.steps hw h (rebuild_steps hw hrebuild), g, c, hrebuild⟩ hrounds
  rintro t t' apps n ⟨ht, hrebuilt⟩ happs hall
  exact ⟨hP.applyAll hrebuilt ht happs hall, hrebuilt.applyAll hall⟩

/-- A run that ends as saturated has a last round, which united nothing. -/
theorem lastRound (hP : Kept P equations) (c : Calls empty g) (h : P g)
    {stats : Stats} (hs : EGraph.saturate equations o g = .ok stats g')
    (hsat : stats.saturated = true) :
    ∃ t apps, (P t ∧ t.Rebuilt) ∧ t.applications equations = .ok apps ∧
      EGraph.applyAll apps t = .ok 0 g' := by
  obtain ⟨g₁, hrebuild, hrounds⟩ := saturate_run hs
  have hw := Calls.wellFormed wellFormed_empty c
  refine saturateRounds_last (P := fun t => P t ∧ t.Rebuilt) ?_
    ⟨hP.steps hw h (rebuild_steps hw hrebuild), g, c, hrebuild⟩ rfl hrounds hsat
  rintro t t' apps n ⟨ht, hrebuilt⟩ happs hall
  exact ⟨hP.applyAll hrebuilt ht happs hall, hrebuilt.applyAll hall⟩

/-- Two such properties can be kept side by side, so that either can rely on the
other. -/
theorem and {Q : EGraph → Prop} (hP : Kept P equations) (hQ : Kept Q equations) :
    Kept (fun g => P g ∧ Q g) equations where
  steps hw h hsteps := ⟨hP.steps hw h.1 hsteps, hQ.steps hw h.2 hsteps⟩
  apply hg h happs hmem hw hext ht hrun :=
    ⟨hP.apply hg h.1 happs hmem hw hext ht.1 hrun,
      hQ.apply hg h.2 happs hmem hw hext ht.2 hrun⟩

end Kept

theorem extends_kept (g : EGraph) (equations : List Equation) :
    Kept (Extends g) equations where
  steps hw h hsteps := h.trans (Steps.extends hw hsteps)
  apply _ _ _ _ hw _ ht hrun := ht.trans (Calls.extends hw (applyAt_calls hw hrun))

end EGraph

end Datapath

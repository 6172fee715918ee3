import Datapath.Proofs.Embedding

/-!
# Datapath.Proofs.Confluence

The verdict of a run that saturates does not depend on the order of its rules or
terms.

The graph in which the last round of a saturated run begins is closed: in the
completion of its snapshot every instance that the rules offer there equals the class
that it was offered at (`ClosedUnder`). Any other run with these rules is embedded in
this graph, round by round. What matches in the other run matches in the closed
graph, with a guard that holds there as well, so the application unites classes that
stand for one class already. Two terms that the other run finds equivalent therefore
stand for one class of the closed graph (`equivalent_of_equivalent`), and of two runs
that saturate each decides what the other does (`prove_equivalent_eq`).
-/

namespace Datapath

/-- Computed widths are not matched, and only those of variables are added. -/
structure Equation.Plain (eqn : Equation) : Prop where
  lhs : eqn.lhs.Underived
  rhs : eqn.rhs.Shallow

/-- No rule of the catalog matches a computed width, and those that they add are sums
and shifts of variables. -/
theorem plain_of_mem_catalog {rule : Rule} (h : rule ∈ catalog) :
    rule.toEquation.Plain := by
  simp only [catalog, List.mem_cons, List.not_mem_nil, or_false] at h
  constructor
  · rcases h with rfl | rfl | rfl | rfl | rfl | rfl <;>
      simp [Pattern.Underived, Rule.toEquation, Catalog.commuteAdd,
        Catalog.commuteMul, Catalog.mergeLeftShift, Catalog.unmergeLeftShift,
        Catalog.multToAdd, Catalog.leftShiftMult,
        Pattern.parts]
  · rcases h with rfl | rfl | rfl | rfl | rfl | rfl <;>
      simp [Pattern.Shallow, Rule.toEquation, Catalog.commuteAdd, Catalog.commuteMul,
        Catalog.mergeLeftShift, Catalog.unmergeLeftShift, Catalog.multToAdd,
        Catalog.leftShiftMult, Pattern.parts] <;>
      exact fun _ _ _ _ hl hr => ⟨⟨_, hl⟩, _, hr⟩

namespace EGraph

open Completed

variable {g g' t t' : EGraph} {ν : ClassId → ClassId} {s : Subst} {app : Application}
  {apps : List Application} {equations : List Equation} {o : Options} {p q : Pattern}
  {ref : Int} {x y : ClassId}

/-! ## Closed graphs -/

/-- In the completion of the snapshot, the right sides that the equations offer equal
the classes that they are offered at. -/
def ClosedUnder (g : EGraph) (equations : List Equation) : Prop :=
  ∀ app : Application, app.equation ∈ equations →
    g.IsMatch app.equation.lhs app.id app.subst →
    app.equation.guard g app.subst = .ok true →
      ∀ ρ, Binds g (fun i => known (g.root i)) app.subst ρ →
        g.snapshot.completion.value ρ app.equation.rhs = known (g.root app.id)

/-- An application that unites nothing has found its right side where it was made. -/
theorem Follows.quiet {D : Type} {M : Interpretation D} {ν ν₁ : ClassId → D}
    {ρ : String → D} (hfold : M.FoldsOn fun _ => True) (hw : t.WellFormed)
    (hf : Follows M ν g ν₁ t)
    (hid : app.id < g.issued) (hρ : Binds g ν app.subst ρ)
    (ha : applyAt app t = .ok false t') :
    (∃ ν', Follows M ν g ν' t') ∧ M.value ρ app.equation.rhs = ν app.id := by
  obtain ⟨ref, t₁, hi, -, -, ⟨-, hroot, rfl⟩ | ⟨htrue, -⟩⟩ := applyAt_cases ha
  · obtain ⟨ν₂, f₂, m₂⟩ :=
      hf.sound.instantiated hfold zeroBlind_true hw (hρ.follows hf) hi
      fun _ _ _ _ => trivial
    have hall := hf.trans f₂
    exact ⟨⟨ν₂, hall⟩, by
      rw [← m₂.eq, ← f₂.sound.of_root_eq hroot, hall.agree _ hid]⟩
  · cases htrue

/-- The classes that variables stand for, if the classes they are bound to stand for
others. -/
def image (ν : ClassId → ClassId) (s : Subst) (name : String) : ClassId :=
  ν ((s.get? name).getD 0).toNat

theorem image_eq {name : String} (h : s.get? name = some ref) :
    image ν s name = ν ref.toNat := by
  rw [image, h, Option.getD_some]

/-- The graph in which a round begins that unites nothing is closed. Each application
of the round is made in a graph that is sound for the completion, with the classes of
the first graph among the values; as it unites nothing, the right side has the value
of the class of the match. -/
theorem closedUnder_of_quiet (hg : g.Rebuilt) (hE : ∀ eqn ∈ equations, eqn.Matchable)
    (happs : g.applications equations = .ok apps)
    (hquiet : applyAll apps g = .ok 0 g') :
    g.ClosedUnder equations := by
  have hclosed := hg.repaired.closed
  have hstart := hg.sound_snapshot.completed hclosed
  have hissued {app : Application} (happ : app ∈ apps) :
      app.id < g.issued ∧ g.BoundIn app.subst := by
    obtain ⟨-, hmatch, -⟩ := (mem_applications hg hE happs).1 happ
    exact ⟨((mem_classIds hg.wellFormed).1 hmatch.mem).1,
      hmatch.boundIn hg.wellFormed⟩
  obtain ⟨g₁, heach, -⟩ := applyAll_inv hquiet
  -- the invariant of the round is soundness for the completion
  have hmade := (applyEach_quiet (P := fun t => t.WellFormed ∧ ∃ ν', Follows
    g.snapshot.completion (fun i => known (g.root i)) g ν' t) (fun h => h.1) ?_
    ⟨hg.wellFormed, _, .refl hstart⟩ heach).2
  · intro app heqn hmatch hguard ρ hρ
    have happ : app ∈ apps := (mem_applications hg hE happs).2 ⟨heqn, hmatch, hguard⟩
    obtain ⟨t, t', ⟨hw, ν₁, hf⟩, ha, -⟩ := hmade app happ
    exact (hf.quiet hclosed.foldsOn hw (hissued happ).1 hρ ha).2
  · rintro app happ t t' ⟨hw, ν₁, hf⟩ ha
    obtain ⟨hid, hs⟩ := hissued happ
    refine ⟨Calls.wellFormed hw (applyAt_calls hw ha), ?_⟩
    have hbinds : Binds g (fun i => known (g.root i)) app.subst
        fun name => known (image g.root app.subst name) :=
      fun name r hget => ⟨hs name r hget, congrArg known (image_eq hget).symm⟩
    exact (hf.quiet hclosed.foldsOn hw hid hbinds ha).1

/-! ## Runs embedded in closed graphs -/

/-- Where an equation is offered in an embedded graph, the class stands for the right
side. The match is carried over to the closed graph by the embedding: the left side
occurs in the class that its class stands for, with variables at the classes that
theirs stand for, and the guard reads the same numbers there. -/
theorem ClosedUnder.value_rhs (hclosed : g.ClosedUnder equations) (hg : g.Rebuilt)
    (hgn : g.Numeric) (ht : t.Rebuilt) (htn : t.Numeric)
    (h : Sound g.snapshot.completion.semantics (fun i => known (ν i)) t)
    (heqn : app.equation ∈ equations) (harith : app.equation.Arithmetic)
    (hplain : app.equation.Plain)
    (hmatch : t.IsMatch app.equation.lhs app.id app.subst)
    (hguard : app.equation.guard t app.subst = .ok true) :
    g.snapshot.completion.value (fun name => known (image ν app.subst name))
      app.equation.rhs = known (ν app.id) := by
  have hoccurs := occurs_of_realizes hplain.lhs h (fun name r => image_eq)
    (hmatch.realizes ht.canonical ht.wellFormed)
  -- the left side is an operation, so the class holds a node
  have hmem : ν app.id ∈ g.classIds := by
    obtain ⟨n, -, hlhs⟩ := harith.lhs
    rw [hlhs] at hoccurs
    obtain ⟨m, -, hm⟩ := Pattern.occurs_ofNode.1 hoccurs
    exact (hg.mem_of_snapshot hm).1
  have hmatchg := hg.isMatch hmem hoccurs
  have hget {name : String} {r : Int} (hs : app.subst.get? name = some r) :
      (assign (image ν app.subst) app.equation.lhs.occurrences).get? name =
        some (ν r.toNat : Int) ∧ ν r.toNat < g.issued ∧
        g.root (ν r.toNat) = ν r.toNat := by
    have hname := hmatch.mem_occurrences hs
    have hclass := hmatchg.assign_mem hname
    rw [image_eq hs] at hclass
    exact ⟨get?_assign_eq_some.2 ⟨hname, by rw [image_eq hs]⟩,
      (mem_classIds hg.wellFormed).1 hclass⟩
  have hguardg : app.equation.guard g
      (assign (image ν app.subst) app.equation.lhs.occurrences) = .ok true :=
    guard_of_sound hg hgn.widths htn.widths h
      (fun name r hs => ⟨(hget hs).1, (hget hs).2.1⟩) hguard
  have hvalue := hclosed ⟨app.equation, ν app.id, _⟩ heqn hmatchg hguardg
    (fun name => known (image ν app.subst name)) fun name r hs => ?_
  · rw [hvalue, ((mem_classIds hg.wellFormed).1 hmem).2]
  · obtain ⟨k, hk, rfl⟩ := hmatchg.classes _ (mem_of_get?_eq_some hs)
    obtain ⟨hlt, hroot⟩ := (mem_classIds hg.wellFormed).1 hk
    have himage : k = image ν app.subst name :=
      Nat.cast_inj.1 (get?_assign_eq_some.1 hs).2
    exact ⟨⟨Int.natCast_nonneg k, hlt⟩, congrArg known (hroot.trans himage)⟩

/-- The images of variables are the values of the numbers they are bound to. -/
theorem valued_image (ν : ClassId → ClassId) (s : Subst) :
    Valued (fun i => known (ν i)) s fun name => known (image ν s name) :=
  fun _ _ hs => congrArg known (image_eq hs).symm

/-- Applications that are offered in a graph embedded in a closed one keep it
embedded. The nodes that an application adds have values as parts of the right side,
and it unites classes that stand for one class of the closed graph. -/
theorem embedsIn_kept (hclosed : g.ClosedUnder equations) (hg : g.Rebuilt)
    (hgn : g.Numeric) (harith : ∀ eqn ∈ equations, eqn.Arithmetic)
    (hplain : ∀ eqn ∈ equations, eqn.Plain) :
    Kept (fun t => t.Numeric ∧ t.EmbedsIn g) equations where
  steps hw h hsteps := ⟨h.1.steps hsteps, h.2.steps hg.repaired hw hsteps⟩
  apply {t₀ apps app t t' b} ht₀ h₀ happs happ hw hext h hrun := by
    refine ⟨(numeric_kept harith).apply ht₀ h₀.1 happs happ hw hext h.1 hrun, ?_⟩
    obtain ⟨heqn, hmatch, hguard⟩ :=
      (mem_applications ht₀
        (fun eqn heqn => (harith eqn heqn).matchable) happs).1 happ
    have hs := (hmatch.boundIn ht₀.wellFormed).of_extends hext
    have hrhs {ν : ClassId → ClassId} {u : EGraph} (hu : Extends t₀ u)
        (hν : Sound g.snapshot.completion.semantics (fun i => known (ν i)) u) :=
      hclosed.value_rhs hg hgn ht₀ h₀.1 (hν.of_extends ht₀.wellFormed hu) heqn
        (harith _ heqn) (hplain _ heqn) hmatch hguard
    obtain ⟨ref, t₁, hi, hid, ⟨-, hlt⟩, hrest⟩ := applyAt_inv hrun
    obtain ⟨ν, hν⟩ := h.2
    have h₁ : t₁.EmbedsIn g :=
      EmbedsIn.instantiate hg.repaired hw hν hs (valued_image ν _)
        (fun q hq => Pattern.exists_value_of_part (hplain _ heqn).rhs
          (hrhs hext hν) hq) hi
    rcases hrest with ⟨-, rfl⟩ | ⟨r, hu⟩
    · exact h₁
    · -- in the embedding of the new graph, too, the class stands for the right side
      obtain ⟨ν₁, hν₁⟩ := h₁
      have hcalls := instantiate_calls hw hi
      have hw₁ := Calls.wellFormed hw hcalls
      refine ⟨ν₁, hν₁.unite hw₁ (hw₁.root_lt hid) (hw₁.root_lt hlt) ?_ hu⟩
      rw [hν₁.root app.id, hν₁.root ref.toNat,
        ← hrhs (hext.trans (Calls.extends hw hcalls)) hν₁]
      exact hν₁.value_of_realizes (valued_image ν₁ _)
        (refers_of_instantiate hw hs hi).2

/-- A ground term that the closed graph holds can be added to an embedded graph. -/
theorem EmbedsIn.addGround (hg : g.Rebuilt) (hp : g.Realizes [] p x)
    (hw : t.WellFormed) (h : t.EmbedsIn g) (ha : EGraph.addGround p t = .ok ref t') :
    t'.EmbedsIn g := by
  obtain ⟨ν, hν⟩ := h
  refine EmbedsIn.instantiate hg.repaired hw hν (boundIn_nil t)
    (ρ := fun _ => known 0) (fun _ _ hs => by cases hs)
      (fun q hq => ?_) (addGround_inv ha).2
  obtain ⟨y, hy⟩ := hp.part hq
  exact ⟨g.root y, (hg.sound_snapshot.completed hg.repaired.closed).value_of_realizes
    (fun _ _ hs => by cases hs) hy⟩

/-! ## Queries -/

/-- A query loads its terms and ends in a saturated graph that holds them. -/
theorem prove_run {lhs rhs : String} {v : Verdict}
    (hrun : prove lhs rhs equations o = .ok (v, g))
    (hp : Pattern.parse lhs = .ok p) (hq : Pattern.parse rhs = .ok q) :
    ∃ l r g₁ g₂, addGround p .empty = .ok l g₁ ∧ addGround q g₁ = .ok r g₂ ∧
      Calls .empty g₂ ∧ g₂.Numeric ∧ g₂.Refers [] p l ∧ g₂.Refers [] q r ∧
      saturate equations o g₂ = .ok v.stats g ∧
      (v.equivalent = true ↔ g.root l.toNat = g.root r.toNat) := by
  obtain ⟨p', q', l, r, g₁, g₂, hp', hq', hl, hr, hsettle⟩ := prove_inv hrun
  obtain rfl : p = p' := Except.ok.inj (hp.symm.trans hp')
  obtain rfl : q = q' := Except.ok.inj (hq.symm.trans hq')
  obtain ⟨hpvars, hil⟩ := addGround_inv hl
  obtain ⟨hqvars, hir⟩ := addGround_inv hr
  obtain ⟨h₁, -⟩ := numeric_empty.addGround (Pattern.loadable_of_parse hp hpvars) hl
  obtain ⟨h₂, -⟩ := h₁.addGround (Pattern.loadable_of_parse hq hqvars) hr
  have c₁ := addGround_calls wellFormed_empty hl
  have c₂ := addGround_calls h₁.wellFormed hr
  -- the run starts in the graph with both terms, and its verdict compares their
  -- roots
  obtain ⟨hsat, -, -, hverdict⟩ := settle_run hsettle
  refine ⟨l, r, g₁, g₂, hl, hr, c₁.trans c₂, h₂, ?_, ?_, hsat, ?_⟩
  · exact (refers_of_instantiate wellFormed_empty (boundIn_nil _) hil).of_extends
      (Calls.extends h₁.wellFormed c₂)
  · exact refers_of_instantiate h₁.wellFormed (boundIn_nil _) hir
  · rw [hverdict, decide_eq_true_iff]

/-- A run that saturates has come through a closed graph, which decides its verdict:
that in which its last round begins. What this graph knows the final one knows as
well. -/
theorem exists_closed_of_prove {lhs rhs : String} {v : Verdict}
    (harith : ∀ eqn ∈ equations, eqn.Arithmetic)
    (hrun : prove lhs rhs equations o = .ok (v, g))
    (hsat : v.stats.saturated = true) (hp : Pattern.parse lhs = .ok p)
    (hq : Pattern.parse rhs = .ok q) :
    ∃ (t : EGraph) (x y : ClassId), t.Rebuilt ∧ t.Numeric ∧ t.ClosedUnder equations ∧
      t.Realizes [] p x ∧ t.Realizes [] q y ∧
      (t.root x = t.root y → v.equivalent = true) := by
  obtain ⟨l, r, g₁, g₂, -, -, c₂, h₂, hl, hr, hsaturate, hverdict⟩ :=
    prove_run hrun hp hq
  obtain ⟨t, apps, ⟨⟨hn, hext⟩, ht⟩, happs, hquiet⟩ :=
    ((numeric_kept harith).and (extends_kept g₂ equations)).lastRound c₂
      ⟨h₂, .refl g₂⟩ hsaturate hsat
  refine ⟨t, l.toNat, r.toNat, ht, hn,
    closedUnder_of_quiet ht
      (fun eqn heqn => (harith eqn heqn).matchable) happs hquiet,
    hl.2.of_extends hext, hr.2.of_extends hext, fun hroot => hverdict.2 ?_⟩
  exact (Calls.extends hn.wellFormed
    (applyAll_calls hn.wellFormed hquiet)).root_eq hroot

/-- A run with equations under which a graph is closed finds only those terms
equivalent that stand for one class of the graph. The empty graph is embedded in any
other, and loading the terms and saturating keep the run embedded. -/
theorem root_eq_of_prove {lhs rhs : String} {v : Verdict} {u : EGraph}
    (hclosed : t.ClosedUnder equations) (ht : t.Rebuilt) (hn : t.Numeric)
    (harith : ∀ eqn ∈ equations, eqn.Arithmetic)
    (hplain : ∀ eqn ∈ equations, eqn.Plain)
    (hrun : prove lhs rhs equations o = .ok (v, u)) (hp : Pattern.parse lhs = .ok p)
    (hq : Pattern.parse rhs = .ok q) (hx : t.Realizes [] p x)
    (hy : t.Realizes [] q y) (heq : v.equivalent = true) : t.root x = t.root y := by
  obtain ⟨l, r, u₁, u₂, hl, hr, c₂, h₂, hpl, hqr, hsaturate, hverdict⟩ :=
    prove_run hrun hp hq
  have hempty : EmbedsIn .empty t := ⟨fun _ => 0, sound_empty _ _⟩
  have w₁ := Calls.wellFormed wellFormed_empty (addGround_calls wellFormed_empty hl)
  have hu₂ := (hempty.addGround ht hx wellFormed_empty hl).addGround ht hy w₁ hr
  obtain ⟨⟨-, ν, hν⟩, -⟩ :=
    (embedsIn_kept hclosed ht hn harith hplain).saturate c₂ ⟨h₂, hu₂⟩ hsaturate
  have hext := Calls.extends h₂.wellFormed (saturate_calls h₂.wellFormed hsaturate)
  have hsnapshot := ht.sound_snapshot.completed ht.repaired.closed
  have hground {D : Type} {ν : ClassId → D} {ρ : String → D} : Valued ν [] ρ :=
    fun _ _ hs => by cases hs
  -- both terms have a value in the completion, which their classes stand for in both
  -- graphs
  have hl' := hν.value_of_realizes (ρ := fun _ => known 0) hground
    (hpl.2.of_extends hext)
  have hr' := hν.value_of_realizes (ρ := fun _ => known 0) hground
    (hqr.2.of_extends hext)
  rw [hsnapshot.value_of_realizes hground hx] at hl'
  rw [hsnapshot.value_of_realizes hground hy, ← hν.of_root_eq
    (hverdict.1 heq), ← hl'] at hr'
  exact (known_injective hr').symm

end EGraph

/-! ## Order -/

/-- If a run that saturates is given all rules of another one, in which the terms may
be swapped, it finds equivalent what the other does. -/
theorem equivalent_of_equivalent {lhs rhs : String} {rules rules' : List Rule}
    {o o' : Options} {v v' : Verdict} {g g' : EGraph}
    (hcatalog : ∀ rule ∈ rules, rule ∈ catalog)
    (hrules : ∀ rule ∈ rules', rule ∈ rules)
    (hrun : prove lhs rhs (rules.map Rule.toEquation) o = .ok (v, g))
    (hsat : v.stats.saturated = true)
    (hrun' : prove lhs rhs (rules'.map Rule.toEquation) o' = .ok (v', g') ∨
      prove rhs lhs (rules'.map Rule.toEquation) o' = .ok (v', g'))
    (heq : v'.equivalent = true) : v.equivalent = true := by
  have harith {rules : List Rule} (h : ∀ rule ∈ rules, rule ∈ catalog) :
      ∀ eqn ∈ rules.map Rule.toEquation, eqn.Arithmetic ∧ eqn.Plain := by
    intro eqn heqn
    obtain ⟨rule, hmem, rfl⟩ := List.mem_map.1 heqn
    exact ⟨arithmetic_of_mem_catalog (h rule hmem),
      plain_of_mem_catalog (h rule hmem)⟩
  obtain ⟨p, q, -, -, -, -, hp, hq, -⟩ := EGraph.prove_inv hrun
  obtain ⟨t, x, y, ht, hn, hclosed, hx, hy, hdecides⟩ :=
    EGraph.exists_closed_of_prove (fun eqn h => (harith hcatalog eqn h).1)
      hrun hsat hp hq
  -- a graph that is closed under all rules is closed under some of them
  have hclosed' : t.ClosedUnder (rules'.map Rule.toEquation) := by
    intro app happ
    obtain ⟨rule, hmem, heqn⟩ := List.mem_map.1 happ
    exact hclosed app (List.mem_map.2 ⟨rule, hrules rule hmem, heqn⟩)
  have harith' := harith fun rule hmem => hcatalog rule (hrules rule hmem)
  refine hdecides ?_
  rcases hrun' with hrun' | hrun'
  · exact EGraph.root_eq_of_prove hclosed' ht hn (fun eqn h => (harith' eqn h).1)
      (fun eqn h => (harith' eqn h).2) hrun' hp hq hx hy heq
  · exact (EGraph.root_eq_of_prove hclosed' ht hn (fun eqn h => (harith' eqn h).1)
      (fun eqn h => (harith' eqn h).2) hrun' hq hp hy hx heq).symm

/-- Two queries about the same terms, in either order, with the same rules of the
catalog, in any order and with repetitions, have the same verdict if both saturate.
The limits may differ, as long as neither run was stopped by its own. -/
theorem prove_equivalent_eq {lhs rhs : String} {rules rules' : List Rule}
    {o o' : Options} {v v' : Verdict} {g g' : EGraph}
    (hcatalog : ∀ rule ∈ rules, rule ∈ catalog)
    (hrules : ∀ rule, rule ∈ rules ↔ rule ∈ rules')
    (hrun : prove lhs rhs (rules.map Rule.toEquation) o = .ok (v, g))
    (hrun' : prove lhs rhs (rules'.map Rule.toEquation) o' = .ok (v', g') ∨
      prove rhs lhs (rules'.map Rule.toEquation) o' = .ok (v', g'))
    (hsat : v.stats.saturated = true) (hsat' : v'.stats.saturated = true) :
    v.equivalent = v'.equivalent := by
  have hcatalog' : ∀ rule ∈ rules', rule ∈ catalog := fun rule h =>
    hcatalog rule ((hrules rule).2 h)
  refine Bool.eq_iff_iff.2 ⟨fun heq => ?_, fun heq => ?_⟩
  · rcases hrun' with hrun' | hrun'
    · exact equivalent_of_equivalent hcatalog'
        (fun rule h => (hrules rule).1 h) hrun' hsat' (Or.inl hrun) heq
    · exact equivalent_of_equivalent hcatalog'
        (fun rule h => (hrules rule).1 h) hrun' hsat' (Or.inr hrun) heq
  · exact equivalent_of_equivalent hcatalog (fun rule h => (hrules rule).2 h) hrun
      hsat hrun' heq

/-- Two runs that swap the terms and list the rules differently. -/
theorem prove_equivalent_eq_swapped : ∃ v v' g g',
    prove "(+ 8 8 unsign A 8 unsign B)" "(+ 8 8 unsign B 8 unsign A)"
      ([Catalog.commuteAdd, Catalog.commuteMul].map Rule.toEquation) {} =
        .ok (v, g) ∧
    prove "(+ 8 8 unsign B 8 unsign A)" "(+ 8 8 unsign A 8 unsign B)"
      ([Catalog.commuteMul, Catalog.commuteAdd,
        Catalog.commuteMul].map Rule.toEquation)
      { roundLimit := 9 } = .ok (v', g') ∧
    v.stats.saturated = true ∧ v'.stats.saturated = true ∧
    v.equivalent = v'.equivalent := by
  have hrun : (prove "(+ 8 8 unsign A 8 unsign B)" "(+ 8 8 unsign B 8 unsign A)"
      ([Catalog.commuteAdd, Catalog.commuteMul].map Rule.toEquation) {}).toOption.map
      (·.1.stats.saturated) = some true := by
    decide +kernel
  have hrun' : (prove "(+ 8 8 unsign B 8 unsign A)" "(+ 8 8 unsign A 8 unsign B)"
      ([Catalog.commuteMul, Catalog.commuteAdd,
        Catalog.commuteMul].map Rule.toEquation)
      { roundLimit := 9 }).toOption.map (·.1.stats.saturated) = some true := by
    decide +kernel
  obtain ⟨⟨v, g⟩, hok, hsat⟩ := Option.map_eq_some_iff.1 hrun
  obtain ⟨⟨v', g'⟩, hok', hsat'⟩ := Option.map_eq_some_iff.1 hrun'
  refine ⟨v, v', g, g', toOption_inv hok, toOption_inv hok', hsat, hsat', ?_⟩
  exact prove_equivalent_eq (by simp [catalog]) (by simp [or_comm, or_left_comm])
    (toOption_inv hok) (Or.inr (toOption_inv hok')) hsat hsat'

end Datapath

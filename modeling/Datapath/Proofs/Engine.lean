import Datapath.Proofs.Applications
import Datapath.Proofs.Interpretation
import Datapath.Rule.Catalog

/-!
# Datapath.Proofs.Engine

Soundness of the prover.

If an interpretation validates all equations, saturation keeps the graph sound. The
applications of a round are collected in the graph with which the round begins, and
made one after the other while the graph changes. This does no harm, because what
justifies an application is a fact about values (`Justified`), and the numbers that a
graph has issued keep their values. A verdict that two terms are equivalent therefore
means that they have the same value (`value_eq_of_prove`), whatever made the run end.
-/

namespace Datapath

variable {D : Type}

namespace EGraph

variable {M : Interpretation D} {ok : Binary64 → Prop} {ν ν' : ClassId → D}
  {g g' : EGraph} {ρ : String → D} {s : Subst} {eqn : Equation}
  {equations : List Equation} {app : Application}

/-! ## Justified applications -/

/-- A guard lets an equation be applied only where the values of its variables enable
it. -/
theorem enables_of_guard (h : Sound M.semantics ν g) (hok : Within ok g)
    (hρ : Valued ν s ρ) (hg : eqn.guard g s = .ok true) :
    M.EnablesOn ok ρ eqn.condition := by
  cases hcond : eqn.condition with
  | none => exact trivial
  | some c =>
      obtain ⟨values, hvalues, hcheck⟩ := guard_eq_true.1 hg c hcond
      refine ⟨values, (constantsOf_eq_some.1 hvalues).imp fun name v hread => ?_,
        hcheck⟩
      obtain ⟨ref, hs, hat⟩ := hread
      obtain ⟨hlt, hconst⟩ := constantAt_inv hat
      rw [← hρ name ref hs]
      exact ⟨Interpretation.shows_iff.1 (h.constant hlt hconst), hok _ hlt v hconst⟩

/-- The class at which an equation is to be applied has the value of its right
side. -/
def Justified (M : Interpretation D) (ν : ClassId → D) (g : EGraph)
    (app : Application) : Prop :=
  app.id < g.issued ∧ ∃ ρ, Binds g ν app.subst ρ ∧
    ν app.id = M.value ρ app.equation.rhs

/-- The numbers in an application keep their values, so it stays justified. -/
theorem Justified.follows (h : Justified M ν g app) (hf : Follows M ν g ν' g') :
    Justified M ν' g' app := by
  obtain ⟨hlt, ρ, hbinds, hval⟩ := h
  exact ⟨Nat.lt_of_lt_of_le hlt hf.issued_le, ρ, hbinds.follows hf,
    (hf.agree _ hlt).trans hval⟩

/-- What valid equations offer in a sound graph is justified. -/
theorem Offered.justified (ho : g.Offered app) (h : Sound M.semantics ν g)
    (hok : Within ok g) (hvalid : M.ValidatesOn ok app.equation) :
    Justified M ν g app := by
  -- unbound variables may have any value
  let ρ : String → D := fun name => ν ((app.subst.get? name).getD 0).toNat
  have hρ : Valued ν app.subst ρ := fun name ref href => by
    show _ = ν ((app.subst.get? name).getD 0).toNat
    rw [href, Option.getD_some]
  refine ⟨ho.lt, ρ, fun name ref href =>
    ⟨ho.boundIn name ref href, hρ name ref href⟩, ?_⟩
  rw [← h.value_of_realizes hρ ho.realizes]
  exact hvalid ρ (enables_of_guard h hok hρ ho.guard)

/-! ## Applying equations -/

section

variable (hfold : M.FoldsOn ok) (hz : ZeroBlind ok)
include hfold hz

/-- An application that is justified keeps a graph sound. The class of the instance
has the value of the right side, and so has the class that it is united with. -/
theorem Sound.applied (hw : g.WellFormed) (h : Sound M.semantics ν g)
    (hj : Justified M ν g app)
    {b : Bool} (ha : applyAt app g = .ok b g') (hok : Within ok g') :
    ∃ ν', Follows M ν g ν' g' := by
  obtain ⟨ref, g₁, hi, hid, ⟨-, hlt⟩, hrest⟩ := applyAt_inv ha
  obtain ⟨hidg, ρ, hbinds, hval⟩ := hj
  have hw₁ := Calls.wellFormed hw (instantiate_calls hw hi)
  -- the set has the constants of the graph before the union if it has those after it
  have hok₁ : Within ok g₁ := by
    rcases hrest with ⟨-, rfl⟩ | ⟨r, hu⟩
    · exact hok
    · exact hok.of_extends hz
        (hw₁.extends_unite (hw₁.root_lt hid) (hw₁.root_lt hlt) hu)
  obtain ⟨ν₁, f₁, m₁⟩ := h.instantiated hfold hz hw hbinds hi hok₁
  refine ⟨ν₁, f₁.issued_le.trans ?_, f₁.agree, ?_⟩
  · rcases hrest with ⟨-, rfl⟩ | ⟨r, hu⟩
    · exact le_rfl
    · exact (hw₁.extends_unite (hw₁.root_lt hid) (hw₁.root_lt hlt) hu).issued_le
  · rcases hrest with ⟨-, rfl⟩ | ⟨r, hu⟩
    · exact f₁.sound
    · refine f₁.sound.unite hw₁ (hw₁.root_lt hid) (hw₁.root_lt hlt) ?_ hu
      rw [f₁.sound.root, f₁.sound.root, m₁.eq, f₁.agree _ hidg, hval]

/-- Applications that are justified at the start of a round stay so until they are
made. The set `ok` is known to have the constants of the last graph only, and so of
those before it, as later graphs know more: this is why the invariant of the loop has
it as a hypothesis. -/
theorem Sound.appliedAll (hw : g.WellFormed) (h : Sound M.semantics ν g)
    {apps : List Application} (hj : ∀ app ∈ apps, Justified M ν g app) {n : Nat}
    (ha : applyAll apps g = .ok n g') (hok : Within ok g') :
    ∃ ν', Follows M ν g ν' g' := by
  obtain ⟨g₁, heach, hrebuild⟩ := applyAll_inv ha
  have hw₁ := Calls.wellFormed hw (applyEach_calls hw heach)
  have hsteps := rebuild_steps hw₁ hrebuild
  have hok₁ := hok.of_extends hz (Steps.extends hw₁ hsteps)
  have hmade : Calls g g₁ ∧ (Within ok g₁ → ∃ ν', Follows M ν g ν' g₁) := by
    refine applyEach_induction
      (P := fun t => Calls g t ∧ (Within ok t → ∃ ν', Follows M ν g ν' t)) ?_
      ⟨.refl, fun _ => ⟨ν, .refl h⟩⟩ heach
    intro app happ s t b hinv happly
    obtain ⟨hcalls, hs⟩ := hinv
    have hws := Calls.wellFormed hw hcalls
    have hstep := applyAt_calls hws happly
    refine ⟨hcalls.trans hstep, fun hokt => ?_⟩
    obtain ⟨νs, fs⟩ := hs (hokt.of_extends hz (Calls.extends hws hstep))
    obtain ⟨νt, ft⟩ :=
      fs.sound.applied hfold hz hws ((hj app happ).follows fs) happly hokt
    exact ⟨νt, fs.trans ft⟩
  obtain ⟨ν₁, f₁⟩ := hmade.2 hok₁
  obtain ⟨ν', f'⟩ := f₁.sound.steps hfold hz hw₁ hsteps hok
  exact ⟨ν', f₁.trans f'⟩

/-- Saturation with valid equations keeps a graph sound. What a round applies was
offered in the graph with which it began, which was sound, and so it is justified
there. -/
theorem Sound.saturated (hvalid : ∀ eqn ∈ equations, M.ValidatesOn ok eqn)
    (hw : g.WellFormed) (h : Sound M.semantics ν g) {o : Options} {stats : Stats}
    (hs : saturate equations o g = .ok stats g') (hok : Within ok g') :
    ∃ ν', Follows M ν g ν' g' := by
  obtain ⟨g₁, p, hrebuild, hrounds⟩ := saturate_inv hs
  have hsteps := rebuild_steps hw hrebuild
  have hdone : Calls g g' ∧ (Within ok g' → ∃ ν', Follows M ν g ν' g') := by
    refine saturateRounds_induction
      (P := fun t => Calls g t ∧ (Within ok t → ∃ ν', Follows M ν g ν' t)) ?_
      ⟨.single (.rebuild hrebuild), fun hok₁ =>
        h.steps hfold hz hw hsteps hok₁⟩ hrounds
    intro s t apps n hinv happs hall
    obtain ⟨hcalls, hs⟩ := hinv
    have hws := Calls.wellFormed hw hcalls
    have hround := applyAll_calls hws hall
    refine ⟨hcalls.trans hround, fun hokt => ?_⟩
    have hoks := hokt.of_extends hz (Calls.extends hws hround)
    obtain ⟨νs, fs⟩ := hs hoks
    have hj : ∀ app ∈ apps, Justified M νs s app := fun app hmem => by
      obtain ⟨heqn, hoffered⟩ := offered_of_mem_applications hws happs hmem
      exact hoffered.justified fs.sound hoks (hvalid _ heqn)
    obtain ⟨νt, ft⟩ := fs.sound.appliedAll hfold hz hws hj hall hokt
    exact ⟨νt, fs.trans ft⟩
  exact hdone.2 hok

end

/-! ## Verdicts -/

/-- A query saturates the graph and then compares the roots of its two terms. -/
theorem settle_run {o : Options} {l r : Int} {v : Verdict}
    (h : settle equations o l r g = .ok v g') :
    saturate equations o g = .ok v.stats g' ∧ l.toNat < g'.issued ∧
    r.toNat < g'.issued ∧
      v.equivalent = decide (g'.root l.toNat = g'.root r.toNat) := by
  obtain ⟨stats, g₁, hsat, hfinds⟩ := bind_inv h
  obtain ⟨a, g₂, ha, hfind⟩ := bind_inv hfinds
  obtain ⟨hfa, rfl⟩ := ask_inv ha
  obtain ⟨b, g₃, hb, hlast⟩ := bind_inv hfind
  obtain ⟨hfb, rfl⟩ := ask_inv hb
  obtain ⟨rfl, rfl⟩ := pure_inv hlast
  obtain ⟨-, hl, rfl⟩ := find_inv hfa
  obtain ⟨-, hr, rfl⟩ := find_inv hfb
  exact ⟨hsat, hl, hr, rfl⟩

theorem settle_inv {o : Options} {l r : Int} {v : Verdict}
    (h : settle equations o l r g = .ok v g') :
    (∃ stats, saturate equations o g = .ok stats g') ∧ l.toNat < g'.issued ∧
    r.toNat < g'.issued ∧
      v.equivalent = decide (g'.root l.toNat = g'.root r.toNat) :=
  ⟨⟨v.stats, (settle_run h).1⟩, (settle_run h).2⟩

/-- A query that has a verdict has parsed both texts and added both terms, the first
one to the empty graph. -/
theorem prove_inv {lhs rhs : String} {o : Options} {v : Verdict}
    (h : prove lhs rhs equations o = .ok (v, g)) :
    ∃ p q l r g₁ g₂, Pattern.parse lhs = .ok p ∧ Pattern.parse rhs = .ok q ∧
      addGround p .empty = .ok l g₁ ∧ addGround q g₁ = .ok r g₂ ∧
      settle equations o l r g₂ = .ok v g := by
  have hrun := fromEmpty_inv h
  obtain ⟨l, g₁, hl, hrest⟩ := bind_inv hrun
  obtain ⟨r, g₂, hr, hlast⟩ := bind_inv hrest
  obtain ⟨p, hp, hal⟩ := load_inv hl
  obtain ⟨q, hq, har⟩ := load_inv hr
  exact ⟨p, q, l, r, g₁, g₂, hp, hq, hal, har, loading_inv hlast⟩

/-- A query ends in a well-formed graph. -/
theorem wellFormed_of_prove {lhs rhs : String} {o : Options} {v : Verdict}
    (h : prove lhs rhs equations o = .ok (v, g)) : g.WellFormed := by
  obtain ⟨p, q, l, r, g₁, g₂, -, -, hal, har, hsettle⟩ := prove_inv h
  obtain ⟨-, hil⟩ := addGround_inv hal
  obtain ⟨-, hir⟩ := addGround_inv har
  obtain ⟨⟨stats, hsat⟩, -⟩ := settle_inv hsettle
  have w₁ :=
    Calls.wellFormed wellFormed_empty (instantiate_calls wellFormed_empty hil)
  have w₂ := Calls.wellFormed w₁ (instantiate_calls w₁ hir)
  exact Calls.wellFormed w₂ (saturate_calls w₂ hsat)

/-- Terms that are found equivalent have the same value, if the constants of the last
graph are in a set in which the interpretation respects computed widths and validates
the equations. The values of the two terms are those of the classes that they were
added to, and in the end these are one class. -/
theorem value_eq_of_prove_within (hfold : M.FoldsOn ok) (hz : ZeroBlind ok)
    (hvalid : ∀ eqn ∈ equations, M.ValidatesOn ok eqn) {lhs rhs : String}
    {o : Options} {v : Verdict}
    (hrun : prove lhs rhs equations o = .ok (v, g)) (hok : Within ok g)
    (heq : v.equivalent = true) :
    ∃ p q, Pattern.parse lhs = .ok p ∧ Pattern.parse rhs = .ok q ∧ p.vars = [] ∧
      q.vars = [] ∧ ∀ ρ, M.value ρ p = M.value ρ q := by
  obtain ⟨p, q, l, r, g₁, g₂, hp, hq, hal, har, hsettle⟩ := prove_inv hrun
  obtain ⟨hpv, hil⟩ := addGround_inv hal
  obtain ⟨hqv, hir⟩ := addGround_inv har
  obtain ⟨⟨stats, hsat⟩, -, -, hverdict⟩ := settle_inv hsettle
  refine ⟨p, q, hp, hq, hpv, hqv, fun ρ => ?_⟩
  have w₁ :=
    Calls.wellFormed wellFormed_empty (instantiate_calls wellFormed_empty hil)
  have w₂ := Calls.wellFormed w₁ (instantiate_calls w₁ hir)
  have ok₂ := hok.of_extends hz (Calls.extends w₂ (saturate_calls w₂ hsat))
  have ok₁ := ok₂.of_extends hz (Calls.extends w₁ (instantiate_calls w₁ hir))
  have hbinds {t : EGraph} {ν : ClassId → D} : Binds t ν [] ρ :=
    fun _ _ h => by cases h
  -- the values of both terms last until the end, where their classes are one
  obtain ⟨ν₁, f₁, m₁⟩ :=
    (sound_empty M.semantics fun _ => M.literal .nan).instantiated hfold hz
      wellFormed_empty hbinds hil ok₁
  obtain ⟨ν₂, f₂, m₂⟩ := f₁.sound.instantiated hfold hz w₁ hbinds hir ok₂
  obtain ⟨ν', f'⟩ := f₂.sound.saturated hfold hz hvalid w₂ hsat hok
  rw [← (m₁.follows (f₂.trans f')).eq, ← (m₂.follows f').eq]
  rw [heq, eq_comm, decide_eq_true_eq] at hverdict
  exact f'.sound.of_root_eq hverdict

end EGraph

/-- The interpretation gives computed widths of known numbers the value of the
literal they compute. -/
abbrev Interpretation.RespectsFolding (M : Interpretation D) : Prop :=
  M.FoldsOn fun _ => True

/-- The sides of an equation have the same value for all values of its variables of
which its condition holds. -/
abbrev Interpretation.Validates (M : Interpretation D) (eqn : Equation) : Prop :=
  M.ValidatesOn (fun _ => True) eqn

/-- In every interpretation that respects folding and validates the equations, terms
that are found equivalent have the same value. -/
theorem value_eq_of_prove {M : Interpretation D} (hfold : M.RespectsFolding)
    {equations : List Equation} (hvalid : ∀ eqn ∈ equations, M.Validates eqn)
    {lhs rhs : String} {o : Options} {v : Verdict} {g : EGraph}
    (hrun : prove lhs rhs equations o = .ok (v, g))
    (heq : v.equivalent = true) :
    ∃ p q, Pattern.parse lhs = .ok p ∧ Pattern.parse rhs = .ok q ∧ p.vars = [] ∧
      q.vars = [] ∧ ∀ ρ, M.value ρ p = M.value ρ q :=
  EGraph.value_eq_of_prove_within hfold (fun _ _ => trivial) hvalid hrun
    (fun _ _ _ _ => trivial) heq

/-- The interpretation that counts the letters of the symbols in the operands of a
term. -/
def letters : Interpretation Nat where
  literal _ := 0
  sign _ := 0
  symbol name := name.length
  derived _ _ _ := 0
  binary _ _ _ _ a _ _ b := a + b

/-- Two sums that commutativity proves equivalent have as many letters. -/
theorem value_eq_of_prove_commuteAdd :
    ∃ v g, prove "(+ 17 16 unsign A 16 unsign B)" "(+ 17 16 unsign B 16 unsign A)"
        [Catalog.commuteAdd.toEquation] {} = .ok (v, g) ∧ v.equivalent = true ∧
      ∃ p q, Pattern.parse "(+ 17 16 unsign A 16 unsign B)" = .ok p ∧
        Pattern.parse "(+ 17 16 unsign B 16 unsign A)" = .ok q ∧ p.vars = [] ∧
        q.vars = [] ∧ ∀ ρ, letters.value ρ p = letters.value ρ q := by
  have hrun : (prove "(+ 17 16 unsign A 16 unsign B)"
      "(+ 17 16 unsign B 16 unsign A)"
      [Catalog.commuteAdd.toEquation] {}).toOption.map
      (·.1.equivalent) = some true := by
    decide +kernel
  obtain ⟨⟨v, g⟩, hok, heq⟩ := Option.map_eq_some_iff.1 hrun
  have hprove := toOption_inv hok
  refine ⟨v, g, hprove, heq, value_eq_of_prove (M := letters) (fun _ _ _ _ _ => rfl)
    (fun eqn heqn ρ _ => ?_) hprove heq⟩
  obtain rfl := List.mem_singleton.1 heqn
  exact Nat.add_comm _ _

end Datapath

import Datapath.Proofs.Confluence

/-!
# Datapath.Proofs.Limits

What higher limits do to a query.

What a round does depends on its graph and on the equations; the limits only decide
whether there is another one. So a run with higher limits comes through the graph in
which a run with lower limits ends (`saturateRounds_through`), and whatever it does
from there takes no equality back. With rules of the catalog it does not fail there
either, so what was proved stays proved (`prove_equivalent_of_le`).
-/

namespace Datapath

namespace EGraph

variable {g g₁ g' : EGraph} {equations : List Equation} {o o' : Options}

/-- A round that stays within the limit on classes, and what it leaves to do. The
progress that is handed on depends on the progress so far, but the graph does not:
this is why runs with different limits can be compared at all. -/
theorem saturateRounds_succ {apps : List Application} {unions : ℕ} (rounds : ℕ)
    (p : Progress) (hsize : ¬ o.classLimit < g.size)
    (happs : g.applications equations = .ok apps)
    (hall : applyAll apps g = .ok unions g₁) :
    ∃ q, saturateRounds equations o (rounds + 1) p g =
      if unions = 0 then .ok (q.stopSaturated o) g₁
      else saturateRounds equations o rounds q g₁ := by
  have hask : ask (·.applications equations) g = .ok apps g := by rw [ask, happs]
  refine ⟨p.countRound o apps.length unions g₁.size, ?_⟩
  rw [saturateRounds, get_bind, if_neg hsize, bind_ok hask, bind_ok hall, get_bind]
  split <;> rfl

/-- A run with higher limits comes through the graph in which a run with lower ones
ends, after which it has some rounds left. The induction is on the rounds of the
lower run; where that one stops for want of rounds or of classes, the higher one has
nothing more to do for the statement. -/
theorem saturateRounds_through {n n' : ℕ} {p p₁ : Progress} (p' : Progress)
    (hrounds : n ≤ n') (hclasses : o.classLimit ≤ o'.classLimit)
    (h : saturateRounds equations o n p g = .ok p₁ g₁) :
    ∃ m q, saturateRounds equations o' n' p' g =
      saturateRounds equations o' m q g₁ := by
  induction n generalizing g p n' p' with
  | zero =>
      obtain ⟨-, rfl⟩ := pure_inv h
      exact ⟨n', p', rfl⟩
  | succ n ih =>
      obtain ⟨m, rfl⟩ : ∃ m, n' = m + 1 := ⟨n' - 1, by omega⟩
      obtain ⟨-, rfl⟩ | ⟨apps, unions, t, hsize, happs, hall, hrest⟩ :=
        saturateRounds_succ_inv h
      · exact ⟨m + 1, p', rfl⟩
      · -- the same round is made under the higher limits
        obtain ⟨q, hq⟩ :=
          saturateRounds_succ m p' (by omega : ¬ o'.classLimit < _) happs hall
        rw [hq]
        rcases hrest with ⟨hnone, rfl⟩ | ⟨hsome, hrest⟩
        · exact ⟨0, q.stopSaturated o', if_pos hnone⟩
        · rw [if_neg hsome]
          exact ih _ (by omega) hrest

/-- What a run with higher limits ends in knows what a run with lower limits ends in.
Both start with the same repair; the higher run comes through the graph in which the
lower one ends, and the rounds that follow only extend it. -/
theorem extends_of_saturate {stats stats' : Stats} (hw : g.WellFormed)
    (hrounds : o.roundLimit ≤ o'.roundLimit)
    (hclasses : o.classLimit ≤ o'.classLimit)
    (h : saturate equations o g = .ok stats g₁)
    (h' : saturate equations o' g = .ok stats' g') : Extends g₁ g' := by
  have hw₁ := Calls.wellFormed hw (saturate_calls hw h)
  obtain ⟨t, hrebuild, hrun⟩ := saturate_run h
  obtain ⟨t', hrebuild', hrun'⟩ := saturate_run h'
  obtain rfl : t = t' := by
    rw [hrebuild] at hrebuild'
    cases hrebuild'
    rfl
  obtain ⟨m, q, hthrough⟩ :=
    saturateRounds_through {} (Int.toNat_le_toNat hrounds) hclasses hrun
  rw [hthrough] at hrun'
  -- every round that follows keeps what `g₁` knows
  refine saturateRounds_induction (P := fun s => s.WellFormed ∧ Extends g₁ s) ?_
    ⟨hw₁, .refl g₁⟩ hrun' |>.2
  rintro s s' apps n ⟨hs, hext⟩ - hall
  have c := applyAll_calls hs hall
  exact ⟨Calls.wellFormed hs c, hext.trans (Calls.extends hs c)⟩

end EGraph

/-- Higher limits lose no proof. If a query with rules of the catalog finds its terms
equivalent, then with at least as many rounds and classes allowed it has a verdict
too, and this verdict is the same. -/
theorem prove_equivalent_of_le {lhs rhs : String} {rules : List Rule}
    {o o' : Options} {v : Verdict} {g : EGraph}
    (hrules : ∀ rule ∈ rules, rule ∈ catalog)
    (hrounds : o.roundLimit ≤ o'.roundLimit)
    (hclasses : o.classLimit ≤ o'.classLimit)
    (hrun : prove lhs rhs (rules.map Rule.toEquation) o = .ok (v, g))
    (heq : v.equivalent = true) :
    ∃ v' g', prove lhs rhs (rules.map Rule.toEquation) o' = .ok (v', g') ∧
      v'.equivalent = true := by
  obtain ⟨p, q, _, _, _, _, hp, hq, hlhs, hrhs, -⟩ := EGraph.prove_inv hrun
  obtain ⟨v', g', hrun', -⟩ :=
    prove_succeeds hp hq (EGraph.addGround_inv hlhs).1 (EGraph.addGround_inv hrhs).1
    hrules o'
  refine ⟨v', g', hrun', ?_⟩
  obtain ⟨l, r, g₁, g₂, hl, hr, -, h₂, -, -, hsat, hverdict⟩ :=
    EGraph.prove_run hrun hp hq
  obtain ⟨l', r', g₁', g₂', hl', hr', -, -, -, -, hsat', hverdict'⟩ :=
    EGraph.prove_run hrun' hp hq
  -- both load the same terms into the same graph
  obtain ⟨rfl, rfl⟩ : l = l' ∧ g₁ = g₁' := by
    rw [hl] at hl'
    cases hl'
    exact ⟨rfl, rfl⟩
  obtain ⟨rfl, rfl⟩ : r = r' ∧ g₂ = g₂' := by
    rw [hr] at hr'
    cases hr'
    exact ⟨rfl, rfl⟩
  exact hverdict'.2
    ((EGraph.extends_of_saturate h₂.wellFormed hrounds hclasses hsat hsat').root_eq
    (hverdict.1 heq))

/-- One round with few classes proves that the operands of a sum can be swapped, and
so does a run with the default limits. -/
theorem prove_equivalent_of_le_commuteAdd : ∃ v v' g g',
    prove "(+ 9 8 unsign A 7 unsign B)" "(+ 9 7 unsign B 8 unsign A)"
      ([Catalog.multToAdd, Catalog.commuteAdd].map Rule.toEquation)
      { roundLimit := 1, classLimit := 8 } =
        .ok (v, g) ∧
    v.stats.ending = .roundLimit ∧ v.equivalent = true ∧
    prove "(+ 9 8 unsign A 7 unsign B)" "(+ 9 7 unsign B 8 unsign A)"
      ([Catalog.multToAdd, Catalog.commuteAdd].map Rule.toEquation) {} =
        .ok (v', g') ∧
    v'.equivalent = true := by
  have hrun : (prove "(+ 9 8 unsign A 7 unsign B)" "(+ 9 7 unsign B 8 unsign A)"
      ([Catalog.multToAdd, Catalog.commuteAdd].map Rule.toEquation)
      { roundLimit := 1, classLimit := 8 }).toOption.map
        (fun result => (result.1.stats.ending, result.1.equivalent)) =
          some (.roundLimit, true) := by
    decide +kernel
  obtain ⟨⟨v, g⟩, hok, hfound⟩ := Option.map_eq_some_iff.1 hrun
  obtain ⟨hending, heq⟩ := Prod.mk.inj hfound
  obtain ⟨v', g', hrun', heq'⟩ :=
    @prove_equivalent_of_le _ _ _ _ {} _ _
      (by simp [catalog]) (by decide) (by decide)
    (toOption_inv hok) heq
  exact ⟨v, v', g, g', toOption_inv hok, hending, heq, hrun', heq'⟩

end Datapath

import Datapath.Proofs.Failures

/-!
# Datapath.Proofs.Diagnostics

The report about a rule agrees with the solver.

`Rule.matchesIn` collects the known constants of all variables of the left side and
then looks the values for the condition up by name, while the guard of the exported
equation finds them one by one. Both come to the same answer because the left side
binds the variables of the condition (`constantsOf_eq_of_valuationOf`). So the
matches that the report says hold are the applications that the solver makes, in the
same order (`Rule.firings`). A run that asks the reports instead of the guards, with
the same limits and counts (`Rule.saturateFired`), is therefore the run of the solver
(`Rule.saturate_toEquation`).
-/

namespace Datapath

/-! ## Lists of computations that succeed -/

section

variable {ε α β : Type} {l : List α}

/-- Computations that all succeed succeed one after the other, with results of which
the same is known. -/
theorem exists_mapM {f : α → Except ε β} {P : α → β → Prop}
    (h : ∀ a ∈ l, ∃ b, f a = .ok b ∧ P a b) :
    ∃ bs, l.mapM f = .ok bs ∧ List.Forall₂ P l bs := by
  induction l with
  | nil => exact ⟨[], rfl, .nil⟩
  | cons a rest ih =>
      obtain ⟨b, hb, hP⟩ := h a List.mem_cons_self
      obtain ⟨bs, hbs, hrest⟩ := ih fun a' ha' => h a' (List.mem_cons_of_mem _ ha')
      refine ⟨b :: bs, ?_, .cons hP hrest⟩
      rw [List.mapM_cons, hb, hbs]
      rfl

/-- The same with the results given. -/
theorem mapM_eq_ok {f : α → Except ε β} {d : α → β} (h : ∀ a ∈ l, f a = .ok (d a)) :
    l.mapM f = .ok (l.map d) := by
  obtain ⟨bs, hbs, hd⟩ := exists_mapM (P := fun a b => d a = b)
    fun a ha => ⟨d a, h a ha, rfl⟩
  have heq : l.map d = bs :=
    List.forall₂_eq_eq_eq ▸ List.forall₂_map_left_iff.2 hd
  rw [hbs, heq]

/-- A selection by tests that succeed is the selection by their answers. The loop
collects what it keeps in reverse, so the induction is about any list that it has so
far. -/
theorem filterM_eq_ok {p : α → Except ε Bool} {q : α → Bool}
    (h : ∀ a ∈ l, p a = .ok (q a)) : l.filterM p = .ok (l.filter q) := by
  have haux (acc : List α) : l.filterAuxM p acc =
      .ok ((l.filter q).reverse ++ acc) := by
    induction l generalizing acc with
    | nil => rfl
    | cons a rest ih =>
        rw [List.filterAuxM, h a List.mem_cons_self]
        refine (ih (fun a' ha' => h a' (List.mem_cons_of_mem _ ha')) _).trans ?_
        cases hq : q a <;> simp [hq]
  rw [List.filterM, haux]
  simp [bind, Except.bind, pure, Except.pure]

/-- Of elements with answers to a test, those are selected whose answer is true. -/
theorem filterMap_zip {γ : Type} {p : β → Bool} {q : α → Bool} (f : α → γ)
    {bs : List β} (h : List.Forall₂ (fun a b => p b = q a) l bs) :
    ((l.zip bs).filterMap fun (a, b) => if p b then some (f a) else none) =
      (l.filter q).map f := by
  induction h with
  | nil => rfl
  | @cons a b _ _ hab _ ih =>
      rw [List.zip_cons_cons, List.filterMap_cons, ih, List.filter_cons]
      dsimp only
      rw [hab]
      cases q a <;> rfl

end

namespace EGraph

variable {g g' : EGraph} {s : Subst} {names : List String} {values : Valuation}
  {name : String}

/-! ## Two ways to find constants -/

theorem exists_constantAt {ref : Int} (h : g.Issued ref) :
    ∃ c, g.constantAt ref = .ok c := by
  rw [constantAt, find_of_issued h]
  exact ⟨_, rfl⟩

/-- The constant that a variable stands for under a substitution, if it stands for
one. -/
def boundConstant (g : EGraph) (s : Subst) (name : String) :
    Except GraphError (Option Binary64) :=
  match s.get? name with
  | some ref => g.constantAt ref
  | none => return none

theorem exists_boundConstant (hs : g.BoundIn s) (name : String) :
    ∃ c, g.boundConstant s name = .ok c := by
  unfold boundConstant
  cases hget : s.get? name with
  | none => exact ⟨none, rfl⟩
  | some ref => exact exists_constantAt (hs name ref hget)

/-- Constants are collected name by name, and left out where there is none. -/
theorem valuationOf_cons (g : EGraph) (s : Subst) (name : String)
    (rest : List String) : g.valuationOf s (name :: rest) = (do
      let value ← g.boundConstant s name
      let others ← g.valuationOf s rest
      match value with
      | some v => return (name, v) :: others
      | none => return others) := by
  rw [valuationOf, boundConstant]
  cases s.get? name <;> rfl

/-- So collecting them does not fail. -/
theorem exists_valuationOf (hs : g.BoundIn s) (names : List String) :
    ∃ values, g.valuationOf s names = .ok values := by
  induction names with
  | nil => exact ⟨[], rfl⟩
  | cons name rest ih =>
      obtain ⟨others, hothers⟩ := ih
      obtain ⟨c, hc⟩ := exists_boundConstant hs name
      rw [valuationOf_cons, hc, hothers]
      cases c <;> exact ⟨_, rfl⟩

/-- The values that are collected for a list of names are those that these names
stand for. A name that comes up twice has the same value both times, so the first one
that is found will do. -/
theorem get?_valuationOf (h : g.valuationOf s names = .ok values)
    {c : Option Binary64} (hc : g.boundConstant s name = .ok c) :
    Bindings.get? values name = if name ∈ names then c else none := by
  induction names generalizing values with
  | nil =>
      cases h
      rfl
  | cons n rest ih =>
      rw [valuationOf_cons] at h
      obtain ⟨value, hvalue, h⟩ := except_bind_inv h
      obtain ⟨others, hothers, h⟩ := except_bind_inv h
      have hrest := ih hothers
      by_cases hn : n = name
      · subst hn
        obtain rfl : value = c := Except.ok.inj (hvalue.symm.trans hc)
        cases value with
        | none =>
            cases h
            simpa using hrest
        | some v =>
            cases h
            simp [Bindings.get?]
      · have hmem : name ∈ n :: rest ↔ name ∈ rest := by simp [Ne.symm hn]
        cases value with
        | none =>
            cases h
            simpa only [hmem] using hrest
        | some v =>
            cases h
            simpa only [hmem, Bindings.get?, if_neg hn] using hrest

/-- Values that are among those collected are found by name as they are found one by
one. If one of them is missing, both ways of looking find nothing. -/
theorem constantsOf_eq_of_valuationOf (hs : g.BoundIn s)
    (h : g.valuationOf s names = .ok values)
    {reads : List String} (hreads : ∀ name ∈ reads, name ∈ names) :
    g.constantsOf s reads = .ok (reads.mapM (Bindings.get? values)) := by
  induction reads with
  | nil => rfl
  | cons name rest ih =>
      obtain ⟨hname, hrest⟩ := List.forall_mem_cons.1 hreads
      obtain ⟨c, hc⟩ := exists_boundConstant hs name
      have hget := get?_valuationOf h hc
      rw [if_pos hname] at hget
      rw [List.mapM_cons, hget]
      rw [boundConstant] at hc
      unfold constantsOf
      -- a variable that is not bound has no value on either side
      cases hbound : s.get? name with
      | none =>
          rw [hbound] at hc
          cases hc
          rfl
      | some ref =>
          rw [hbound] at hc
          dsimp only at hc ⊢
          rw [hc, ih hrest]
          cases c with
          | none => rfl
          | some v => cases List.mapM (Bindings.get? values) rest <;> rfl

end EGraph

/-! ## Reports -/

namespace Rule

variable {g g' : EGraph} {s : Subst} {r : Rule}

/-- The report says what the guard of the exported equation says. -/
theorem guard_eq_holdsOn (hs : g.BoundIn s) {constants : Valuation}
    (h : g.valuation s r.lhs = .ok constants) :
    r.toEquation.guard g s = .ok (r.holdsOn constants) := by
  have hread := EGraph.constantsOf_eq_of_valuationOf hs h r.condition_bound
  unfold Equation.guard holdsOn holds reads
  rw [toEquation]
  dsimp only
  cases hc : r.condition with
  | none => rfl
  | some c =>
      rw [hc] at hread
      rw [Condition.varsOf] at hread ⊢
      dsimp only
      rw [hread]
      cases List.mapM (Bindings.get? constants) c.vars <;> rfl

/-- What a match reports about the class `id` under `s`. -/
structure Reports (r : Rule) (g : EGraph) (id : ClassId) (s : Subst)
    (m : Match) : Prop where
  ref : m.ref = id
  constants : g.valuation s r.lhs = .ok m.constants
  holds : r.toEquation.guard g s = .ok m.holds

/-- A match under a substitution by issued numbers can be reported. -/
theorem exists_matchAt (hs : g.BoundIn s) (r : Rule) (id : ClassId) :
    ∃ m, r.matchAt g id s = .ok m ∧ r.Reports g id s m := by
  obtain ⟨constants, hconstants⟩ := EGraph.exists_valuationOf hs r.lhs.vars
  refine ⟨⟨id, constants, r.holdsOn constants⟩, ?_, rfl, hconstants,
    guard_eq_holdsOn hs hconstants⟩
  rw [matchAt, EGraph.valuation, hconstants]
  rfl

/-- The places where a search finds the left side of a rule, with the substitutions
there. -/
def places (r : Rule) (g : EGraph) : List (ClassId × Subst) :=
  (g.search r.lhs).flatMap fun found => found.substs.map (found.id, ·)

/-- The application of a rule at a place. -/
def applicationAt (r : Rule) (place : ClassId × Subst) : Application :=
  ⟨r.toEquation, place.1, place.2⟩

/-- The candidates of the exported equation are the applications at all places. -/
theorem candidates_toEquation (r : Rule) (g : EGraph) :
    g.candidates r.toEquation = (r.places g).map r.applicationAt := by
  simp [EGraph.candidates, places, List.map_flatMap, toEquation, applicationAt,
    Function.comp_def]

theorem boundIn_of_mem_places (hw : g.WellFormed) {id : ClassId}
    (h : (id, s) ∈ r.places g) : g.BoundIn s := by
  have hmem : r.applicationAt (id, s) ∈ g.candidates r.toEquation := by
    rw [candidates_toEquation]
    exact List.mem_map_of_mem h
  exact (EGraph.realizes_of_mem_candidates hw hmem).2.2.1

/-- The report has one match for every place, in the same order. -/
theorem exists_matchesIn (hw : g.WellFormed) (r : Rule) :
    ∃ found, r.matchesIn g = .ok found ∧
    List.Forall₂ (fun place m => r.Reports g place.1 place.2 m)
      (r.places g) found := by
  refine exists_mapM fun ⟨id, s⟩ hplace => ?_
  exact exists_matchAt (boundIn_of_mem_places hw hplace) r id

/-- The applications of a rule at the places where its report says that it holds. -/
def firings (r : Rule) (g : EGraph) : Except GraphError (List Application) := do
  let found ← r.matchesIn g
  return ((r.places g).zip found).filterMap fun (place, m) =>
    if m.holds then some (r.applicationAt place) else none

/-- What the guard of an application answers. -/
def passes (g : EGraph) (app : Application) : Bool :=
  (app.equation.guard g app.subst).toOption.getD false

/-- Where the variables are bound, the guard answers and does not fail. -/
theorem guard_eq_passes (hs : g.BoundIn s) (eqn : Equation) (id : ClassId) :
    eqn.guard g s = .ok (passes g ⟨eqn, id, s⟩) := by
  obtain ⟨b, hb⟩ := EGraph.exists_guard hs eqn
  rw [passes, hb]
  rfl

/-- The matches that the report says hold are the candidates that pass the guard, in
order. -/
theorem firings_eq (hw : g.WellFormed) (r : Rule) :
    r.firings g = .ok ((g.candidates r.toEquation).filter (passes g)) := by
  obtain ⟨found, hfound, hreports⟩ := exists_matchesIn hw r
  have hanswers : List.Forall₂ (fun place m =>
      Match.holds m = (passes g ∘ r.applicationAt) place)
      (r.places g) found := by
    refine List.forall₂_iff_zip.2 ⟨hreports.length_eq, fun {place m} hmem => ?_⟩
    have hreport := (List.forall₂_iff_zip.1 hreports).2 hmem
    have hbound := boundIn_of_mem_places hw (List.of_mem_zip hmem).1
    exact Except.ok.inj (hreport.holds.symm.trans (guard_eq_passes hbound _ _))
  rw [candidates_toEquation, List.filter_map, ← filterMap_zip _ hanswers,
    firings, hfound]
  rfl

/-- The guard of every candidate of some equations answers. -/
theorem guard_of_mem_candidates (hw : g.WellFormed) {equations : List Equation}
    {app : Application} (happ : app ∈ equations.flatMap g.candidates) :
    app.equation.guard g app.subst = .ok (passes g app) := by
  obtain ⟨eqn, -, hcand⟩ := List.mem_flatMap.1 happ
  exact guard_eq_passes (EGraph.realizes_of_mem_candidates hw hcand).2.2.1 _ _

/-- So the equations offer their candidates that pass the guard. -/
theorem applications_eq (hw : g.WellFormed) (equations : List Equation) :
    g.applications equations =
      .ok ((equations.flatMap g.candidates).filter (passes g)) :=
  filterM_eq_ok fun _ happ => guard_of_mem_candidates hw happ

/-- The applications that the solver collects for some rules are those that the
reports about the rules say hold, rule by rule. -/
theorem applications_map_toEquation (hw : g.WellFormed) (rules : List Rule) :
    g.applications (rules.map toEquation) =
      List.flatten <$> rules.mapM (·.firings g) := by
  rw [applications_eq hw, mapM_eq_ok fun r _ => firings_eq hw r,
    List.filter_flatMap, List.flatMap_map, List.flatMap_def]
  rfl

/-- For one rule the solver collects what its report says holds. -/
theorem applications_toEquation (hw : g.WellFormed) (r : Rule) :
    g.applications [r.toEquation] = r.firings g := by
  refine (applications_map_toEquation hw [r]).trans ?_
  rw [List.mapM_cons, firings_eq hw]
  exact congrArg Except.ok (List.append_nil _)

/-- In a well-formed graph, the solver collects the same applications whether it asks
the guards of the equations or the reports about the rules. -/
theorem ask_applications (hw : g.WellFormed) (rules : List Rule) :
    EGraph.ask (·.applications (rules.map toEquation)) g =
      EGraph.ask (fun t => List.flatten <$> rules.mapM (·.firings t)) g := by
  rw [EGraph.ask, EGraph.ask, applications_map_toEquation hw]

/-- Applying the exported equation once is the repair followed by the matches that
the report of the repaired graph says hold. -/
theorem applyOnce_toEquation (hw : g.WellFormed) (r : Rule) :
    EGraph.applyOnce r.toEquation g =
      (do EGraph.rebuild; EGraph.applyAll (← EGraph.ask r.firings) : GraphM ℕ) g := by
  refine bind_eq_bind rfl fun u t hrebuild => ?_
  have hwt := EGraph.Steps.wellFormed hw (EGraph.rebuild_steps hw hrebuild)
  refine bind_eq_bind ?_ fun apps t' _ => rfl
  rw [EGraph.ask, EGraph.ask, applications_toEquation hwt]

/-! ## Saturation -/

/-- At most `rounds` more rounds, each of which makes the applications at the matches
that the reports about the rules say hold, rule by rule and in the order of the
reports, and then repairs the graph. Neither an equation nor its guard is asked.

The limits and the counts are those of a run of the solver: a round begins only with
as many classes as are allowed, it counts every match that it acts on, and one
without a union is the last. -/
def firedRounds (rules : List Rule) (o : Options) :
    (rounds : ℕ) → Progress → GraphM Progress
  | 0, p => return p
  | rounds + 1, p => do
    let classes := (← get).size
    if o.classLimit < classes then return p.stopAtLimit o classes
    let fired ← EGraph.ask fun g => List.flatten <$> rules.mapM (·.firings g)
    let unions ← EGraph.applyAll fired
    let p := p.countRound o fired.length unions (← get).size
    if unions = 0 then return p.stopSaturated o
    firedRounds rules o rounds p

/-- A repair and then all rounds that are allowed, led by the reports about the
rules. -/
def saturateFired (rules : List Rule) (o : Options) : GraphM Stats := do
  EGraph.rebuild
  let p ← firedRounds rules o o.roundLimit.toNat {}
  return { p with classes := (← get).size }

/-- Rounds led by the equations are rounds led by the reports. -/
theorem saturateRounds_toEquation (hw : g.WellFormed) (rules : List Rule)
    (o : Options) (rounds : ℕ) (p : Progress) :
    EGraph.saturateRounds (rules.map toEquation) o rounds p g =
      firedRounds rules o rounds p g := by
  induction rounds generalizing g p with
  | zero => rfl
  | succ rounds ih =>
      unfold EGraph.saturateRounds firedRounds
      rw [get_bind, get_bind]
      split
      · rfl
      · refine bind_eq_bind (ask_applications hw rules) fun fired t hask => ?_
        obtain ⟨-, rfl⟩ := EGraph.ask_inv hask
        refine bind_eq_bind rfl fun unions t' hall => ?_
        rw [get_bind, get_bind]
        split
        · rfl
        · -- the next round begins in a graph that the applications left well-formed
          exact ih (EGraph.Calls.wellFormed hw (EGraph.applyAll_calls hw hall)) _

/-- A run of the solver on exported rules, whether it ends or fails, is the run led
by the reports about them. -/
theorem saturate_toEquation (hw : g.WellFormed) (rules : List Rule) (o : Options) :
    EGraph.saturate (rules.map toEquation) o g = saturateFired rules o g := by
  refine bind_eq_bind rfl fun u t hrebuild => ?_
  have hwt := EGraph.Steps.wellFormed hw (EGraph.rebuild_steps hw hrebuild)
  exact bind_eq_bind (saturateRounds_toEquation hwt rules o _ _) fun p t' _ => rfl

/-- The report about a rule lists what a search for its left side finds, in order,
with the answers of the guard that the solver asks, and the solver acts on the
matches that the report says hold. A single application of the rule is the repair
followed by those matches, and a run of the solver on any rules is the run led by the
reports about them, also where it fails. -/
theorem matchesIn_agrees (r : Rule) (hg : EGraph.Visited g) :
    (∃ found, r.matchesIn g = .ok found ∧ List.Forall₂ (fun place m =>
      r.Reports g place.1 place.2 m ∧ (r.condition = none → m.holds = true))
        (r.places g) found) ∧
    g.applications [r.toEquation] = r.firings g ∧
    EGraph.applyOnce r.toEquation g =
      (do EGraph.rebuild; EGraph.applyAll (← EGraph.ask r.firings) : GraphM ℕ) g ∧
    ∀ rules o,
      g.applications (rules.map toEquation) =
        List.flatten <$> rules.mapM (·.firings g) ∧
      EGraph.saturate (rules.map toEquation) o g = saturateFired rules o g := by
  have hw := hg.wellFormed
  refine ⟨?_, applications_toEquation hw r, applyOnce_toEquation hw r, fun rules o =>
    ⟨applications_map_toEquation hw rules, saturate_toEquation hw rules o⟩⟩
  obtain ⟨found, hfound, hreports⟩ := exists_matchesIn hw r
  refine ⟨found, hfound, hreports.imp fun place m hm => ⟨hm, fun hnone => ?_⟩⟩
  have hguard := hm.holds
  rw [Equation.guard, toEquation, hnone] at hguard
  exact (Except.ok.inj hguard).symm

/-- After a merge that failed, the report about doubling lists a factor of enough
width, where it holds, and one that is too narrow. The solver acts on the first of
them alone: it unites in the first round, finds nothing new in the second, and has
acted on one match in each. -/
theorem matchesIn_agrees_multToAdd : ∃ g g' found stats, EGraph.Visited g ∧
    Catalog.multToAdd.matchesIn g = .ok found ∧ found.map (·.holds) = [true, false] ∧
    List.Forall₂ (fun place m => Catalog.multToAdd.Reports g place.1 place.2 m ∧
      (Catalog.multToAdd.condition = none → m.holds = true))
        (Catalog.multToAdd.places g) found ∧
    EGraph.saturate ([Catalog.multToAdd].map toEquation) {} g = .ok stats g' ∧
    saturateFired [Catalog.multToAdd] {} g = .ok stats g' ∧
    stats.rounds = 2 ∧ stats.applied = 2 ∧ stats.unions = 1 ∧
    stats.ending = .saturated := by
  have hrun : (EGraph.fromEmpty (ε := LoadError) do
      let _ ← EGraph.load "(* 8 8 unsign A 8 unsign 2)"
      let _ ← EGraph.load "(* 9 8 unsign A 1 unsign 2)"
      let g ← get
      let failed := match EGraph.merge 0 3 g with
        | .ok .. => false
        | .error .. => true
      let acted :=
        match EGraph.saturate ([Catalog.multToAdd].map toEquation) {} g with
        | .ok stats _ => decide
            (stats.rounds = 2 ∧ stats.applied = 2 ∧ stats.unions = 1 ∧
              stats.ending = .saturated)
        | .error .. => false
      return (failed, acted,
        (Catalog.multToAdd.matchesIn g).toOption.map (·.map Match.holds))
      ).toOption.map (·.1) = some (true, true, some [true, false]) := by
    decide +kernel
  obtain ⟨⟨result, t⟩, hok, hresult⟩ := Option.map_eq_some_iff.1 hrun
  obtain ⟨a₁, g₁, h₁, hok⟩ := bind_inv (EGraph.fromEmpty_inv (toOption_inv hok))
  obtain ⟨a₂, g, h₂, hok⟩ := bind_inv hok
  rw [get_bind] at hok
  obtain ⟨rfl, rfl⟩ := pure_inv hok
  simp only [Prod.mk.injEq] at hresult
  obtain ⟨hfailed, hacted, hmatches⟩ := hresult
  obtain ⟨holds, hholds, hmap⟩ := Option.map_eq_some_iff.1 hmatches
  have hvisited : EGraph.Visited g :=
    .run (.addText _) (.run (.addText _) .empty ⟨a₁, h₁⟩) ⟨a₂, h₂⟩
  cases hmerge : EGraph.merge 0 3 g with
  | ok => rw [hmerge] at hfailed; cases hfailed
  | error err t =>
      obtain rfl := EGraph.merge_error hmerge
      cases hsat : EGraph.saturate ([Catalog.multToAdd].map toEquation) {} t with
      | error => rw [hsat] at hacted; cases hacted
      | ok stats g' =>
          have hafter : EGraph.Visited t := .fail (.merge 0 3) hvisited ⟨err, hmerge⟩
          obtain ⟨⟨found, hfound, hreports⟩, -, -, hruns⟩ :=
            matchesIn_agrees Catalog.multToAdd hafter
          have hfired := (hruns [Catalog.multToAdd] {}).2.symm.trans hsat
          rw [hsat] at hacted
          cases (toOption_inv hholds).symm.trans hfound
          exact ⟨t, g', _, stats, hafter, hfound, hmap, hreports, hsat, hfired,
            of_decide_eq_true hacted⟩

end Rule

end Datapath

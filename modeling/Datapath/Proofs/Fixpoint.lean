import Datapath.Proofs.Failures
import Datapath.Proofs.Quiet
import Datapath.Proofs.Retrieval

/-!
# Datapath.Proofs.Fixpoint

What follows a run that ended as saturated.

A run ends as saturated when the applications of a round have united nothing. That is
not always a fixpoint. The unions that a computed width makes with its number are not
counted, and the number may be one that a rule looks for (`saturated_again_unites`).
A run is repeated without effect if no right side adds computed widths, as a round
then leaves the graph unchanged (`fixpoint_of_underived`), and if the rules look for
operations or symbols, as those of the catalog do: of the classes that the last round
adds to a graph without failures none but numbers are new, so whatever matches after
the round has matched before it (`fixpoint_of_anchored`).
-/

namespace Datapath

/-- A loop each round of which leaves the state alone if its result is of a certain
kind leaves it alone if all results are. -/
theorem mapM_unchanged {ε σ α β : Type} {f : α → EStateM ε σ β} {I : σ → Prop}
    {Q : β → Prop} {l : List α} {bs : List β} {s s' : σ}
    (step : ∀ a ∈ l, ∀ t b t', I t → f a t = .ok b t' → I t' ∧ (Q b → t' = t))
    (h : I s) (hrun : l.mapM f s = .ok bs s') :
    I s' ∧ bs.length = l.length ∧ ((∀ b ∈ bs, Q b) → s' = s) := by
  induction l generalizing s bs with
  | nil =>
      rw [List.mapM_nil] at hrun
      obtain ⟨rfl, rfl⟩ := pure_inv hrun
      exact ⟨h, rfl, fun _ => rfl⟩
  | cons a rest ih =>
      rw [List.mapM_cons] at hrun
      obtain ⟨b, s₁, hb, hrest⟩ := bind_inv hrun
      obtain ⟨bs', s₂, hbs, hpure⟩ := bind_inv hrest
      obtain ⟨rfl, rfl⟩ := pure_inv hpure
      obtain ⟨h₁, hsame⟩ := step a List.mem_cons_self s b s₁ h hb
      obtain ⟨h₂, hlength, hrests⟩ :=
        ih (fun a' ha' => step a' (List.mem_cons_of_mem _ ha')) h₁ hbs
      refine ⟨h₂, by rw [List.length_cons, hlength, List.length_cons],
        fun hall => ?_⟩
      rw [hrests fun b' hb' => hall b' (List.mem_cons_of_mem _ hb'),
        hsame (hall b List.mem_cons_self)]

namespace EGraph

open Completed

variable {b t u u' g g' : EGraph} {equations : List Equation}
  {apps : List Application} {app : Application}
  {o : Options} {id x y : ClassId} {node : Node ClassId} {s : Subst}
  {p : Pattern} {ref : Int}

/-! ## Fixpoints -/

/-- Nothing is pending, and what the equations offer is there already. -/
structure Fixpoint (g : EGraph) (equations : List Equation) : Prop where
  pending : g.pending = #[]
  idle : ∃ apps, g.applications equations = .ok apps ∧ ∀ app ∈ apps,
    applyAt app g = .ok false g

/-- With nothing pending there is nothing to repair. -/
theorem rebuild_of_pending (h : g.pending = #[]) : EGraph.rebuild g = .ok () g := by
  unfold EGraph.rebuild
  rw [get_bind, rebuildPasses, get_bind, h]
  rfl

/-- Applications that change nothing one by one change nothing together. -/
theorem applyEach_of_idle (h : ∀ app ∈ apps, applyAt app g = .ok false g) :
    applyEach apps g = .ok 0 g := by
  unfold applyEach
  induction apps with
  | nil => rfl
  | cons app rest ih =>
      rw [List.foldlM_cons, bind_assoc, bind_ok (h app List.mem_cons_self)]
      exact ih fun app' happ => h app' (List.mem_cons_of_mem _ happ)

namespace Fixpoint

/-- A round on a fixpoint finds what is there already, so it is the last one. The run
may also stop before it, at the limit on classes. -/
theorem rounds (h : g.Fixpoint equations) (rounds : ℕ) (p : Progress) :
    ∃ p', saturateRounds equations o rounds p g = .ok p' g ∧
      p'.unions = p.unions := by
  obtain ⟨apps, happs, hidle⟩ := h.idle
  cases rounds with
  | zero => exact ⟨p, rfl, rfl⟩
  | succ rounds =>
      have hall : applyAll apps g = .ok 0 g := by
        rw [applyAll, bind_ok (applyEach_of_idle hidle),
          bind_ok (rebuild_of_pending h.pending)]
        rfl
      have hask : ask (·.applications equations) g = .ok apps g := by
        rw [ask, happs]
      rw [saturateRounds, get_bind]
      split
      · refine ⟨_, rfl, ?_⟩
        unfold Progress.stopAtLimit Progress.note
        split <;> rfl
      · rw [bind_ok hask, bind_ok hall, get_bind, if_pos rfl]
        refine ⟨_, rfl, ?_⟩
        unfold Progress.stopSaturated Progress.countRound Progress.note
        split <;> rfl

/-- A run on a fixpoint unites nothing and leaves the graph as it is. -/
theorem saturate (h : g.Fixpoint equations) (o : Options) :
    ∃ stats, EGraph.saturate equations o g = .ok stats g ∧ stats.unions = 0 := by
  obtain ⟨p, hrounds, hp⟩ := h.rounds (o := o) o.roundLimit.toNat {}
  refine ⟨{ p with classes := g.size }, ?_, hp⟩
  rw [EGraph.saturate, bind_ok (rebuild_of_pending h.pending),
    bind_ok hrounds, get_bind]
  rfl

end Fixpoint

/-! ## Rounds that add no computed widths -/

/-- Nodes have been added to the graph `b`, and no classes were united. -/
structure Grown (b u : EGraph) : Prop where
  wellFormed : u.WellFormed
  issued_le : b.issued ≤ u.issued
  root : ∀ x, u.root x = b.root x
  stored : ∀ ⦃key e⦄, u.table.get? key = some e → b.table.get? key = some e ∨
    b.issued ≤ e.owner

namespace Grown

theorem refl (hb : b.WellFormed) : Grown b b :=
  ⟨hb, le_rfl, fun _ => rfl, fun _ _ h => Or.inl h⟩

theorem lt_of_root_lt (hb : b.WellFormed) (h : Grown b u)
    (hx : u.root x < b.issued) : x < b.issued := by
  by_contra hle
  rw [h.root, hb.root_of_le (Nat.le_of_not_lt hle)] at hx
  exact hle hx

/-- A node that is in an old class was there, and so were its children. A new node
gets a new class, and as no computed width is added this class is united with no
other. -/
theorem intern (hb : b.WellFormed) (h : Grown b u) (hn : ¬ node.IsDerived)
    (hc : ∀ c ∈ node.children, c < u.issued)
    (hi : EGraph.intern node u = .ok id u') :
    Grown b u' ∧ (id < b.issued → u' = u ∧ ∀ c ∈ node.children, c < b.issued) := by
  rcases intern_cases hi with ⟨e, he, rfl, rfl⟩ | ⟨hnew, ⟨-, rfl, rfl⟩ | ⟨v, hv, -⟩⟩
  · refine ⟨h, fun hlt => ⟨rfl, fun c hc => ?_⟩⟩
    rcases h.stored he with hold | howner
    · exact hb.child_lt hold c (by rwa [Node.children_key])
    · exact absurd (h.lt_of_root_lt hb hlt) (Nat.not_lt.2 howner)
  · refine ⟨⟨h.wellFormed.issue hnew hc, ?_, fun x => ?_, fun key e he => ?_⟩,
      fun hlt => ?_⟩
    · rw [issued_issue]
      exact h.issued_le.trans (Nat.le_succ _)
    · rw [root_issue h.wellFormed.ranked, h.root]
    · rcases get?_issue_inv he with ⟨-, rfl⟩ | he
      · exact Or.inr h.issued_le
      · exact h.stored he
    · exact absurd hlt (Nat.not_lt.2 h.issued_le)
  · obtain ⟨fn, l, r, -, -, rfl, -⟩ := foldDerived?_inv hv
    exact absurd trivial hn

/-- An instance that is in an old class was there. By induction on the pattern: the
layer was found in an old class, so its children are in old classes, and so are the
slots. -/
theorem instantiate (hb : b.WellFormed) (h : Grown b u) (hs : u.BoundIn s)
    (hp : p.Underived) (hi : EGraph.instantiate s p u = .ok ref u') :
    Grown b u' ∧ (ref.toNat < b.issued → u' = u) := by
  induction p using Pattern.layers generalizing u u' ref with
  | var name =>
      unfold EGraph.instantiate at hi
      cases hget : s.get? name with
      | some r =>
          rw [hget] at hi
          obtain ⟨rfl, rfl⟩ := pure_inv hi
          exact ⟨h, fun _ => rfl⟩
      | none => rw [hget] at hi; cases hi
  | node n ih =>
      rw [instantiate_ofNode] at hi
      obtain ⟨refs, u₁, hrefs, hlast⟩ := bind_inv hi
      obtain ⟨id, ha, rfl⟩ := map_inv hlast
      -- a slot that ends in an old class was there
      have hslot : ∀ q ∈ n.children, ∀ t r t', Grown b t ∧ t.BoundIn s →
          EGraph.instantiate s q t = .ok r t' →
          (Grown b t' ∧ t'.BoundIn s) ∧ (r.toNat < b.issued → t' = t) := by
        intro q hq t r t' ht hrun
        obtain ⟨ht', hsame⟩ := ih q hq ht.1 ht.2 (hp.child hq) hrun
        have hext := Calls.extends ht.1.wellFormed
          (instantiate_calls ht.1.wellFormed hrun)
        exact ⟨⟨ht', ht.2.of_extends hext⟩, hsame⟩
      obtain ⟨⟨h₁, -⟩, hlength, hsame⟩ := mapM_unchanged hslot ⟨h, hs⟩ hrefs
      obtain ⟨hchildren, hhead⟩ := Node.children_withChildren hlength.symm (0 : Int)
      generalize (n.map fun _ => (0 : Int)).withChildren refs =
        m at ha hchildren hhead
      obtain ⟨hc, hintern⟩ := add_inv ha
      have hcanon := canonical_children h₁.wellFormed (children_toNat_lt hc)
      have hderived : ¬ (u₁.canonical (m.map Int.toNat)).IsDerived := by
        rw [canonical, Node.isDerived_map,
          Node.isDerived_map, ← Node.isDerived_map (fun _ => ()) m, hhead,
          Node.isDerived_map]
        exact hp.not_isDerived
      obtain ⟨h', hold⟩ :=
        h₁.intern hb hderived (fun c hmem => (hcanon c hmem).1) hintern
      refine ⟨h', fun hlt => ?_⟩
      -- a node in an old class has its children in old classes
      obtain ⟨rfl, hchild⟩ := hold hlt
      refine hsame fun r hr => h₁.lt_of_root_lt hb (hchild _ ?_)
      rw [canonical, Node.children_map, Node.children_map, hchildren]
      exact List.mem_map_of_mem (List.mem_map_of_mem hr)

/-- An application that unites nothing has found the right side. -/
theorem applyAt (hb : b.WellFormed) (hid : app.id < b.issued)
    (hs : b.BoundIn app.subst)
    (hp : app.equation.rhs.Underived) (ha : EGraph.applyAt app b = .ok false g') :
    g' = b := by
  obtain ⟨ref, b₁, hi, -, -, ⟨-, hroot, rfl⟩ | ⟨htrue, -⟩⟩ := applyAt_cases ha
  · obtain ⟨h, hsame⟩ := (refl hb).instantiate hb hs hp hi
    refine hsame (h.lt_of_root_lt hb ?_)
    rw [← hroot, h.root]
    exact hb.root_lt hid
  · cases htrue

end Grown

/-- A round that unites nothing and adds no computed widths ends where it began, in a
fixpoint. The right side of each application is in the class of its match, which is
an old one, so it was there. -/
theorem fixpoint_of_underived (hw : t.WellFormed) (hpending : t.pending = #[])
    (hrhs : ∀ eqn ∈ equations, eqn.rhs.Underived)
    (happs : t.applications equations = .ok apps)
    (hquiet : applyAll apps t = .ok 0 g') : g'.Fixpoint equations := by
  obtain ⟨t₁, heach, hrebuild⟩ := applyAll_inv hquiet
  have hstep : ∀ app ∈ apps, ∀ u u', u = t →
      applyAt app u = .ok false u' → u' = t := by
    rintro app happ u u' rfl ha
    obtain ⟨heqn, hoffered⟩ := offered_of_mem_applications hw happs happ
    exact Grown.applyAt hw hoffered.lt hoffered.boundIn (hrhs _ heqn) ha
  obtain ⟨rfl, hmade⟩ :=
    applyEach_quiet (P := fun u => u = t) (fun h => h ▸ hw) hstep rfl heach
  rw [rebuild_of_pending hpending] at hrebuild
  obtain rfl : t₁ = g' := by
    cases hrebuild
    rfl
  refine ⟨hpending, apps, happs, fun app happ => ?_⟩
  obtain ⟨u, u', rfl, ha, -⟩ := hmade app happ
  rwa [hstep app happ u u' rfl ha] at ha

end EGraph

/-- An equation that looks for an operation or a symbol, without computed widths. -/
structure Equation.Anchored (eqn : Equation) : Prop where
  lhs : ∃ n : Node Pattern, n.value? = none ∧ eqn.lhs = .ofNode n
  underived : eqn.lhs.Underived

/-- Every rule of the catalog looks for an operation without computed widths. -/
theorem anchored_of_mem_catalog {rule : Rule} (h : rule ∈ catalog) :
    rule.toEquation.Anchored := by
  refine ⟨?_, (plain_of_mem_catalog h).lhs⟩
  obtain ⟨n, hn, hlhs⟩ := (arithmetic_of_mem_catalog h).lhs
  refine ⟨n, ?_, hlhs⟩
  cases n <;> first | rfl | exact hn.elim

namespace EGraph

open Completed

variable {t g : EGraph} {equations : List Equation} {apps : List Application}
  {app : Application} {id x : ClassId} {s s' : Subst} {p : Pattern}

/-- If patterns match one after the other, each of them matches its class. -/
theorem exists_mem_matchIn_of_mem_matchAll {pairs : List (Pattern × ClassId)}
    (h : s' ∈ g.matchAll pairs s) :
    ∀ q ∈ pairs, ∃ r r', r' ∈ g.matchIn q.1 q.2 r := by
  induction pairs generalizing s with
  | nil => exact fun q hq => absurd hq List.not_mem_nil
  | cons q rest ih =>
      obtain ⟨r, hfirst, hrest⟩ := List.mem_flatMap.1 h
      exact List.forall_mem_cons.2 ⟨⟨s, r, hfirst⟩, ih hrest⟩

/-- A pattern with NaN matches nothing, since NaN compares equal to no number. -/
theorem level_of_mem_matchIn (h : s' ∈ g.matchIn p id s) :
    ∀ v, .literal v ∈ p.parts → v.level ≠ none := by
  induction p using Pattern.layers generalizing id s s' with
  | var name => exact fun v hv => by cases List.mem_singleton.1 hv
  | node n ih =>
      intro v hv
      rcases Pattern.mem_parts_ofNode.1 hv with heq | ⟨q, hq, hv⟩
      · cases n <;> cases heq
        intro hnone
        obtain ⟨m, -, hs⟩ := List.mem_flatMap.1 h
        cases m <;> simp [Binary64.numEq, Binary64.compares, hnone] at hs
      · obtain ⟨m, -, hhead, hslots⟩ := exists_of_mem_matchIn h
        have hlength : n.children.length = m.children.length := by
          have hchildren := congrArg (fun k : Node Unit => k.children.length) hhead
          simpa using hchildren
        obtain ⟨c, hc⟩ : ∃ c, (q, c) ∈ n.children.zip m.children := by
          obtain ⟨i, hi, rfl⟩ := List.getElem_of_mem hq
          exact ⟨m.children[i],
            List.mem_iff_getElem.2 ⟨i, by simp [← hlength, hi], by simp⟩⟩
        obtain ⟨r, r', hmatch⟩ := exists_mem_matchIn_of_mem_matchAll hslots _ hc
        exact ih q hq hmatch v hv

/-- So an equation that offers a candidate has no NaN on its left side. -/
theorem matchable_of_mem_candidates {eqn : Equation} (h : app ∈ g.candidates eqn) :
    eqn.Matchable := by
  obtain ⟨found, hsearch, hsubst⟩ := List.mem_flatMap.1 h
  obtain ⟨s, hs, -⟩ := List.mem_map.1 hsubst
  obtain ⟨id, -, rfl⟩ := List.mem_map.1 (List.mem_filter.1 hsearch).1
  exact level_of_mem_matchIn hs

/-- What the equations offer in a rebuilt graph are matches. -/
theorem isMatch_of_mem_applications (hg : g.Rebuilt)
    (happs : g.applications equations = .ok apps)
    (happ : app ∈ apps) :
    app.equation.Matchable ∧ g.IsMatch app.equation.lhs app.id app.subst := by
  obtain ⟨hcand, -⟩ := (mem_filterM happs).1 happ
  obtain ⟨eqn, -, hfound⟩ := List.mem_flatMap.1 hcand
  have hmatchable := matchable_of_mem_candidates hfound
  obtain ⟨rfl, hmatch⟩ := (mem_candidates hg hmatchable).1 hfound
  exact ⟨hmatchable, hmatch⟩

/-- A match whose guard holds is offered. -/
theorem mem_applications_of_isMatch (hg : g.Rebuilt)
    (happs : g.applications equations = .ok apps)
    (heqn : app.equation ∈ equations) (hm : app.equation.Matchable)
    (hmatch : g.IsMatch app.equation.lhs app.id app.subst)
    (hguard : app.equation.guard g app.subst = .ok true) : app ∈ apps :=
  (mem_filterM happs).2
    ⟨List.mem_flatMap.2 ⟨_, heqn, (mem_candidates hg hm).2 ⟨rfl, hmatch⟩⟩, hguard⟩

/-- Where a class holds the right side, an application changes nothing. -/
theorem Settled.applyAt_of_realizes (h : g.Settled) (hw : g.WellFormed)
    (hid : app.id < g.issued)
    (hs : g.BoundIn app.subst) (hp : g.Realizes app.subst app.equation.rhs app.id) :
    applyAt app g = .ok false g := by
  obtain ⟨ref, hrun, hissued, hroot, -⟩ := h.instantiate_of_realizes hw hs hp
  have hl : ask (·.find app.id) g = .ok (g.root app.id) g := by
    rw [ask, find_natCast hid]
  have hr : ask (·.find ref) g = .ok (g.root app.id) g := by
    rw [ask, find_of_issued hissued, hroot]
  rw [applyAt, bind_ok hrun, bind_ok hl, bind_ok hr, if_pos rfl]
  rfl

/-- A match in the first graph whose class, and whose variables, are in the classes
that an application in the second graph has for them. -/
structure Precedes (t g : EGraph) (app : Application) (k : ClassId)
    (σ : String → ClassId) : Prop where
  isMatch : t.IsMatch app.equation.lhs k (assign σ app.equation.lhs.occurrences)
  root_eq : g.root k = g.root app.id
  bound : ∀ {name}, name ∈ app.equation.lhs.occurrences →
    ∃ ref, app.subst.get? name = some ref ∧
    σ name < t.issued ∧ g.root ref.toNat = g.root (σ name)

/-- What an anchored left side matches after a quiet stretch, it has matched before.
In the completion of the earlier snapshot the classes of the later graph have values
(`Quiet`). The value of the left side is neither a number nor new, so it is an
earlier class, and with it the values of the variables are earlier classes. -/
theorem Quiet.exists_precedes (ht : t.Rebuilt) (hq : Quiet t g) (hg : g.Rebuilt)
    (heqn : app.equation.Anchored)
    (happ : Offered g app) : ∃ k σ, Precedes t g app k σ := by
  obtain ⟨ν, hf, hν⟩ := hq.values
  have hat {z : ClassId} (hz : z < g.issued) : Located t g ν z :=
    located ht hq.evaluated hg.founded hq.grows hf.sound hz
  -- the left side is neither a number nor new, so its value is a class of `t`
  let ρ : String → Completed ClassId :=
    fun name => ν ((app.subst.get? name).getD 0).toNat
  have hρ {name : String} {ref : Int} (hget : app.subst.get? name = some ref) :
      ν ref.toNat = ρ name := by
    simp only [ρ, hget, Option.getD_some]
  have hlhs : t.snapshot.completion.value ρ app.equation.lhs = ν app.id :=
    hf.sound.value_of_realizes (fun _ _ => hρ) happ.realizes
  obtain ⟨n, hn, hlayer⟩ := heqn.lhs
  obtain ⟨k, hk⟩ : ∃ k, t.snapshot.completion.value ρ app.equation.lhs = known k :=
    Semantics.exists_known_of_isElementary (hlayer ▸ heqn.underived) hn hlayer
      (hlhs ▸ hν _ happ.lt)
  have hoccurs := Semantics.occurs_of_value snapshot_key heqn.underived hk
  -- its variables are classes of `t`, too, so there is a match in `t`
  obtain ⟨σ, hσ⟩ : ∃ σ : String → ClassId, ∀ name j, ρ name = known j → σ name = j :=
    ⟨fun name => match ρ name with
      | known j => j
      | free _ => 0, fun name j h => by simp only [h]⟩
  have hclass : k ∈ t.classIds := by
    rw [hlayer] at hoccurs
    obtain ⟨m, -, hm⟩ := Pattern.occurs_ofNode.1 hoccurs
    exact (ht.mem_of_snapshot hm).1
  have hmatch : t.IsMatch app.equation.lhs k
      (assign σ app.equation.lhs.occurrences) :=
    ht.isMatch hclass (hoccurs.imp (A := fun _ => True) (fun _ _ _ _ => trivial)
      (fun {name j} _ h => hσ name j h) (fun _ h => h) trivial)
  refine ⟨k, σ, hmatch, ((hat happ.lt).root_eq k (hlhs.symm.trans hk)).symm,
    fun {name} hname => ?_⟩
  obtain ⟨j, hj⟩ := hoccurs.exists_bound hname
  obtain ⟨z, ref, hget, -⟩ := happ.realizes.exists_bound hname
  refine ⟨ref, hget,
    ((mem_classIds ht.wellFormed).1 (hmatch.assign_mem hname)).1, ?_⟩
  rw [hσ name j hj]
  exact (hat (happ.boundIn name ref hget).2).root_eq j ((hρ hget).trans hj)

namespace Precedes

variable {k : ClassId} {σ : String → ClassId}

/-- The guard held at the earlier match, as no constant has changed. -/
theorem guard (h : Precedes t g app k σ) (hq : Quiet t g)
    (hmatch : g.IsMatch app.equation.lhs app.id app.subst)
    (hguard : app.equation.guard g app.subst = .ok true) :
    app.equation.guard t (assign σ app.equation.lhs.occurrences) = .ok true := by
  refine guard_eq_true.2 fun c hc => ?_
  obtain ⟨values, hvalues, hcheck⟩ := guard_eq_true.1 hguard c hc
  refine ⟨values, constantsOf_eq_some.2 ((constantsOf_eq_some.1 hvalues).imp ?_),
    hcheck⟩
  rintro name v ⟨ref, hget, hconst⟩
  have hname := hmatch.mem_occurrences hget
  obtain ⟨ref', hget', hlt, hroot⟩ := h.bound hname
  obtain rfl : ref' = ref := Option.some.inj (hget'.symm.trans hget)
  have hknown : t.constant? (σ name) = some v := by
    rw [← hq.constant _ hlt, constant?, ← hroot]
    exact (constantAt_inv hconst).2
  refine ⟨(σ name : Int), by rw [get?_assign, if_pos hname], ?_⟩
  rw [constantAt, find_natCast hlt, ← hknown]
  rfl

/-- What is held under the earlier match is held under the later one, by the same
class. -/
theorem realizes (h : Precedes t g app k σ)
    (hreal : g.Realizes (assign σ app.equation.lhs.occurrences) p k) :
    g.Realizes app.subst p app.id := by
  refine Realizes.congr ?_ h.root_eq
  refine hreal.imp (A := fun _ => True)
    (fun _ _ _ _ => trivial) (fun {name j} _ hbound => ?_) (fun _ h => h)
    trivial
  obtain ⟨ref, hget, hroot⟩ := hbound
  obtain ⟨hname, rfl⟩ := get?_assign_eq_some.1 hget
  obtain ⟨ref, hget', -, hsame⟩ := h.bound hname
  exact ⟨ref, hget', hsame.trans hroot⟩

end Precedes

/-- An application that is offered after a quiet round was offered when the round
began. What was made of it then is there for the later one, too, as both stand for
the same classes. -/
theorem Quiet.realizes_rhs (ht : t.Rebuilt) (hq : Quiet t g) (hg : g.Rebuilt)
    (heqn : app.equation.Anchored)
    {apps' : List Application} (happs : t.applications equations = .ok apps)
    (hmade : ∀ app ∈ apps, g.Realizes app.subst app.equation.rhs app.id)
    (happs' : g.applications equations = .ok apps') (happ : app ∈ apps') :
    g.Realizes app.subst app.equation.rhs app.id := by
  obtain ⟨hmem, hoffered⟩ := offered_of_mem_applications hg.wellFormed happs' happ
  obtain ⟨hmatchable, hmatch⟩ := isMatch_of_mem_applications hg happs' happ
  obtain ⟨k, σ, hprecedes⟩ := hq.exists_precedes ht hg heqn hoffered
  have hearlier :
      ⟨app.equation, k, assign σ app.equation.lhs.occurrences⟩ ∈ apps :=
    mem_applications_of_isMatch ht happs hmem hmatchable hprecedes.isMatch
      (hprecedes.guard hq hmatch hoffered.guard)
  exact hprecedes.realizes (hmade _ hearlier)

/-- A round without a union is followed by nothing new. The round is quiet, as
nothing but the numbers of computed widths was united in it, so whatever its graph
offers afterwards has its right side already. -/
theorem fixpoint_of_anchored (ht : t.Rebuilt) (hE : ∀ eqn ∈ equations, eqn.Anchored)
    (happs : t.applications equations = .ok apps)
    (hquiet : applyAll apps t = .ok 0 g) :
    g.Fixpoint equations := by
  have hg : g.Rebuilt := ht.applyAll hquiet
  have hoffered {app : Application} (happ : app ∈ apps) :=
    (offered_of_mem_applications ht.wellFormed happs happ).2
  obtain ⟨t₁, heach, hrebuild⟩ := applyAll_inv hquiet
  obtain ⟨hq₁, hmade⟩ := applyEach_quiet (P := Quiet t) Quiet.wellFormed
    (fun app happ u u' hu ha =>
      (hu.applyAt ht (hoffered happ).lt (hoffered happ).boundIn ha).1)
    (.refl ht) heach
  have hq := hq₁.steps ht (rebuild_steps hq₁.wellFormed hrebuild)
  obtain ⟨apps', happs'⟩ := exists_applications hg.wellFormed equations
  refine ⟨hg.repaired.pending, apps', happs', fun app happ => ?_⟩
  obtain ⟨hmem, ho⟩ := offered_of_mem_applications hg.wellFormed happs' happ
  refine hg.repaired.settled.applyAt_of_realizes hg.wellFormed ho.lt ho.boundIn ?_
  -- what the round made of its own applications is still there at its end
  refine hq.realizes_rhs ht hg (hE _ hmem) happs (fun app happ => ?_) happs' happ
  obtain ⟨u, u', hu, ha, hcalls⟩ := hmade app happ
  obtain ⟨hu', hreal⟩ := hu.applyAt ht (hoffered happ).lt (hoffered happ).boundIn ha
  exact (hreal.of_extends (Calls.extends hu'.wellFormed hcalls)).of_extends
    (Steps.extends hq₁.wellFormed (rebuild_steps hq₁.wellFormed hrebuild))

/-- A run that ended as saturated, repeated with any limits, unites nothing and
leaves the graph as it is, if no equation adds computed widths, or if no operation
has failed and every equation looks for an operation or a symbol that has no computed
width in it. -/
theorem saturate_eq_of_saturated {stats : Stats} (hg : Visited g)
    (hE : (∀ eqn ∈ equations, eqn.rhs.Underived) ∨ Reached g ∧
      ∀ eqn ∈ equations, eqn.Anchored)
    {o : Options} {g' : EGraph} (hrun : saturate equations o g = .ok stats g')
    (hsat : stats.saturated = true)
    (o' : Options) : ∃ stats', saturate equations o' g' = .ok stats' g' ∧
      stats'.unions = 0 := by
  refine Fixpoint.saturate ?_ o'
  obtain ⟨g₁, hrebuild, hrounds⟩ := saturate_run hrun
  rcases hE with hE | ⟨hreached, hE⟩
  · have hw := hg.wellFormed
    have hround : ∀ t t' apps n, t.WellFormed ∧ t.pending = #[] →
        t.applications equations = .ok apps →
        applyAll apps t = .ok n t' → t'.WellFormed ∧ t'.pending = #[] := by
      rintro t t' apps n ⟨ht, -⟩ - hall
      obtain ⟨t₁, heach, hrebuild⟩ := applyAll_inv hall
      have ht₁ := Calls.wellFormed ht (applyEach_calls ht heach)
      exact ⟨Calls.wellFormed ht (applyAll_calls ht hall),
        rebuild_pending ht₁ hrebuild⟩
    -- the graph of the last round is known to be well-formed and repaired, and no
    -- more
    obtain ⟨t, apps, ⟨ht, hpending⟩, happs, hquiet⟩ := saturateRounds_last hround
      ⟨Steps.wellFormed hw (rebuild_steps hw hrebuild), rebuild_pending hw hrebuild⟩
      rfl hrounds hsat
    exact fixpoint_of_underived ht hpending hE happs hquiet
  · obtain ⟨t, apps, ⟨-, ht⟩, happs, hquiet⟩ :=
      (extends_kept .empty equations).lastRound hreached.calls
        (Calls.extends wellFormed_empty hreached.calls) hrun hsat
    exact fixpoint_of_anchored ht hE happs hquiet

/-- Nested shifts are merged into one, whose amount is a sum with a computed width,
and then nothing more is found, also by a run of ten rounds that logs its
progress. -/
theorem saturate_eq_of_saturated_mergeLeftShift : ∃ g g' stats stats', Reached g ∧
    saturate ([Catalog.mergeLeftShift].map Rule.toEquation) {} g = .ok stats g' ∧
    stats.saturated = true ∧ stats.unions = 1 ∧
    saturate ([Catalog.mergeLeftShift].map Rule.toEquation)
      { roundLimit := 10, verbose := true } g' = .ok stats' g' ∧
    stats'.unions = 0 := by
  have hrun : (fromEmpty (ε := LoadError) do
      let _ ← EGraph.load "(<< 8 8 unsign (<< 8 5 unsign A 2 unsign B) 2 unsign C)"
      let stats ← EGraph.loading
        (EGraph.saturate ([Catalog.mergeLeftShift].map Rule.toEquation) {})
      return (stats.saturated, stats.unions)).toOption.map (·.1) =
        some (true, 1) := by
    decide +kernel
  obtain ⟨⟨result, t⟩, hok, hresult⟩ := Option.map_eq_some_iff.1 hrun
  obtain ⟨ref, g, hload, hok⟩ := bind_inv (fromEmpty_inv (toOption_inv hok))
  obtain ⟨stats, g', hsaturate, hok⟩ := bind_inv hok
  obtain ⟨rfl, rfl⟩ := pure_inv hok
  simp only [Prod.mk.injEq] at hresult
  have hreached : Reached g := .run (.addText _) .empty ⟨ref, hload⟩
  have hanchored : ∀ eqn ∈ [Catalog.mergeLeftShift].map Rule.toEquation,
      eqn.Anchored := by
    intro eqn heqn
    obtain ⟨rule, hrule, rfl⟩ := List.mem_map.1 heqn
    obtain rfl := List.mem_singleton.1 hrule
    exact anchored_of_mem_catalog (by simp [catalog])
  obtain ⟨stats', hagain, hunions⟩ := saturate_eq_of_saturated hreached.visited
    (Or.inr ⟨hreached, hanchored⟩) (loading_inv hsaturate) hresult.1
      { roundLimit := 10, verbose := true }
  exact ⟨g, g', stats, stats', hreached, loading_inv hsaturate, hresult.1, hresult.2,
    hagain, hunions⟩

/-! ## A run that stops too early -/

/-- Five is a computed width of four and four. -/
def fiveOfFours : Rule where
  name := "five-of-fours"
  lhs := .literal 5
  rhs := .derived .sum (.literal 4) (.literal 4)
  condition := none
  lhs_consistent := by decide
  rhs_consistent := by decide
  rhs_bound := by decide
  condition_bound := by decide

/-- Four is a symbol. -/
def fourIsSymbol : Rule where
  name := "four-is-symbol"
  lhs := .literal 4
  rhs := .symbol "A"
  condition := none
  lhs_consistent := by decide
  rhs_consistent := by decide
  rhs_bound := by decide
  condition_bound := by decide

/-- The one round of the first run adds four, and the width five, which is united
with five as it is added. The application itself finds nothing left to unite, so the
run ends as saturated, but the second rule has a match now: a second run unites the
class of four with that of the symbol. -/
theorem saturated_again_unites : ∃ g g' g'' stats stats', Reached g ∧
    saturate ([fiveOfFours, fourIsSymbol].map Rule.toEquation) {} g = .ok stats g' ∧
    stats.saturated = true ∧
    saturate ([fiveOfFours, fourIsSymbol].map Rule.toEquation) {} g' =
      .ok stats' g'' ∧
    stats'.unions = 1 ∧ g'.find 1 = .ok 1 ∧ g''.find 1 = .ok 2 := by
  have hrun : (fromEmpty (ε := GraphError) do
      let _ ← EGraph.addGround (.literal 5)
      let _ ← EGraph.addGround (.symbol "A")
      let stats ← EGraph.saturate
        ([fiveOfFours, fourIsSymbol].map Rule.toEquation) {}
      let g ← get
      let stats' ← EGraph.saturate
        ([fiveOfFours, fourIsSymbol].map Rule.toEquation) {}
      return (stats.saturated, stats'.unions, (g.find 1).toOption,
        ((← get).find 1).toOption)
      ).toOption.map (·.1) = some (true, 1, some 1, some 2) := by
    decide +kernel
  obtain ⟨⟨result, t⟩, hok, hresult⟩ := Option.map_eq_some_iff.1 hrun
  obtain ⟨a₁, g₁, h₁, hok⟩ := bind_inv (fromEmpty_inv (toOption_inv hok))
  obtain ⟨a₂, g, h₂, hok⟩ := bind_inv hok
  obtain ⟨stats, g', hfirst, hok⟩ := bind_inv hok
  rw [get_bind] at hok
  obtain ⟨stats', g'', hsecond, hok⟩ := bind_inv hok
  rw [get_bind] at hok
  obtain ⟨rfl, rfl⟩ := pure_inv hok
  simp only [Prod.mk.injEq] at hresult
  obtain ⟨hsat, hunions, hbefore, hafter⟩ := hresult
  have hreached : Reached g :=
    .run (.addTerm _) (.run (.addTerm _) .empty ⟨a₁, h₁⟩) ⟨a₂, h₂⟩
  exact ⟨g, g', g'', stats, stats', hreached, hfirst, hsat, hsecond, hunions,
    toOption_inv hbefore, toOption_inv hafter⟩

end EGraph

end Datapath

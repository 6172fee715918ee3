import Datapath.Proofs.Fixpoint
import Datapath.Proofs.Inverse
import Datapath.Proofs.NormalForm

/-!
# Datapath.Proofs.Completeness

Applying an equation loses no match.

The matches are collected before the first one is applied, and each application may
unite classes, so that the numbers in later matches are out of date by the time they
are used. No match is lost for that: every one of them is applied in some graph on
the way (`applyEach_made`), the class of the match then holds the right side
(`realizes_of_applyAt`), and what a class holds it holds from then on. The repair in
the end leaves a graph in which what a class holds is represented in it, so that
nothing is added when the right side is added once more (`applyOnce_complete`).

A ground instance of the left side is a match whose variables stand for the classes
of ground terms, and the constants of these classes are the numbers that the terms
come to. So adding both sides of an instance and applying the rule puts them into one
class.
-/

namespace Datapath

/-! ## Ground instances -/

namespace Node.Rel

/-- Relating a node whose children were renamed is relating the node up to the
renaming. -/
theorem map_left {α β γ : Type} {R : α → β → Prop} {f : γ → α} {m : Node γ}
    {n : Node β} : (m.map f).Rel R n ↔ m.Rel (fun c b => R (f c) b) n := by
  rw [Rel, Rel, map_map, children_map, List.forall₂_map_left_iff]

end Node.Rel

namespace Pattern

variable {κ : Type} {bound : String → κ → Prop} {has : Node κ → κ → Prop} {k : κ}
  {p q : Pattern} {θ : String → Pattern} {name : String} {v : Binary64}

/-- Replaces the variables of a pattern. -/
def substitute (θ : String → Pattern) : Pattern → Pattern
  | var name => θ name
  | literal value => literal value
  | sign s => sign s
  | symbol name => symbol name
  | derived fn left right => derived fn (left.substitute θ) (right.substitute θ)
  | binary op w wa sa a wb sb b =>
    binary op (w.substitute θ) (wa.substitute θ) (sa.substitute θ) (a.substitute θ)
      (wb.substitute θ) (sb.substitute θ) (b.substitute θ)

theorem substitute_ofNode (n : Node Pattern) :
    (ofNode n).substitute θ = ofNode (n.map (substitute θ)) := by
  cases n <;> rfl

theorem ofNode_ne_var (n : Node Pattern) : ofNode n ≠ var name := by
  cases n <;> exact Pattern.noConfusion

/-- An instance is found where the pattern is, with the variables where their terms
are. -/
theorem occurs_substitute :
    (p.substitute θ).Occurs bound has k ↔
      p.Occurs (fun name => (θ name).Occurs bound has) has k := by
  induction p using layers generalizing k with
  | var name => exact Iff.rfl
  | node n ih =>
      rw [substitute_ofNode, occurs_ofNode, occurs_ofNode]
      refine exists_congr fun m => and_congr_left fun _ =>
        Node.Rel.map_left.trans ⟨fun h => ?_, fun h => ?_⟩
      · exact h.imp fun q hq c _ => (ih q hq).1
      · exact h.imp fun q hq c _ => (ih q hq).2

/-- A part of an instance that has no slots comes from the pattern or from the term
for a variable. -/
theorem leaf_of_mem_parts_substitute (hq : q ∈ (p.substitute θ).parts)
    (hslots : q.slots = []) :
    (q ∈ p.parts ∧ ∀ name, q ≠ var name) ∨ ∃ name ∈ p.occurrences,
      q ∈ (θ name).parts := by
  induction p using layers with
  | var name => exact Or.inr ⟨name, by simp [occurrences], hq⟩
  | node n ih =>
      rw [substitute_ofNode] at hq
      rcases mem_parts_ofNode.1 hq with rfl | ⟨c, hc, hq⟩
      · -- the layer has no slots, so nothing was replaced in it
        rw [slots_ofNode, Node.children_map, List.map_eq_nil_iff] at hslots
        rw [Node.map_id_of fun c hc => absurd (hslots ▸ hc) List.not_mem_nil]
        exact Or.inl ⟨mem_parts_self _, fun name => ofNode_ne_var n⟩
      · rw [Node.children_map] at hc
        obtain ⟨slot, hslot, rfl⟩ := List.mem_map.1 hc
        rcases ih slot hslot hq with ⟨hpart, hvar⟩ | ⟨name, hname, hpart⟩
        · exact Or.inl ⟨mem_parts_trans (mem_parts_child hslot) hpart, hvar⟩
        · refine Or.inr ⟨name, ?_, hpart⟩
          rw [occurrences_ofNode]
          exact List.mem_flatMap.2 ⟨slot, hslot, hname⟩

/-- Instances by terms that can be loaded can be loaded. Their variables and literals
are parts without slots, so they come from the pattern, whose variables are gone, or
from one of the terms. -/
theorem Loadable.substitute (hp : ∀ v, .literal v ∈ p.parts → Binary64.IsWidth v)
    (hθ : ∀ name ∈ p.occurrences, (θ name).Loadable) :
    (p.substitute θ).Loadable where
  closed := by
    refine List.eq_nil_iff_forall_not_mem.2 fun name hname => ?_
    rw [mem_vars, mem_occurrences] at hname
    rcases leaf_of_mem_parts_substitute hname rfl with ⟨-, hvar⟩ | ⟨x, hx, hpart⟩
    · exact hvar name rfl
    · rw [← mem_occurrences, ← mem_vars, (hθ x hx).closed] at hpart
      exact List.not_mem_nil hpart
  literal v hv := by
    rcases leaf_of_mem_parts_substitute hv rfl with ⟨hpart, -⟩ | ⟨x, hx, hpart⟩
    · exact hp v hpart
    · exact (hθ x hx).literal v hpart

end Pattern

/-! ## Rules that were read -/

/-- A side of a rule that was read was parsed. -/
theorem Rule.side_inv {text : String}
    {p : { p : Pattern // p.widthMismatch? = none }}
    (h : Rule.side text = .ok p) : Pattern.parse text = .ok p.1 := by
  unfold Rule.side at h
  obtain ⟨q, hq, hcheck⟩ := except_bind_inv h
  have hparse : Pattern.parse text = .ok q := by
    cases hp : Pattern.parse text with
    | ok q' => rw [hp] at hq; cases hq; rfl
    | error e => rw [hp] at hq; cases hq
  split at hcheck
  · cases hcheck
    exact hparse
  · cases hcheck

/-- A text is read as a side if its widths agree. -/
theorem Rule.side_eq {text : String} {p : Pattern} (hp : Pattern.parse text = .ok p)
    (hwidths : p.widthMismatch? = none) : Rule.side text = .ok ⟨p, hwidths⟩ := by
  unfold Rule.side
  rw [hp]
  dsimp only [Except.mapError, bind, Except.bind]
  split
  · rfl
  · next mismatch hmismatch => rw [hwidths] at hmismatch; cases hmismatch

/-- The texts of the sides of a rule give the rule. -/
theorem Rule.ofTexts_eq {lhs rhs : String} (r : Rule)
    (hl : Pattern.parse lhs = .ok r.lhs)
    (hr : Pattern.parse rhs = .ok r.rhs) :
    Rule.ofTexts r.name lhs rhs r.condition = .ok r := by
  have hrhs : Rule.unbound r.lhs r.rhs.vars = [] := by
    simpa [Rule.unbound] using r.rhs_bound
  have hcond : Rule.unbound r.lhs (Condition.varsOf r.condition) = [] := by
    simpa [Rule.unbound] using r.condition_bound
  unfold Rule.ofTexts
  rw [Rule.side_eq hl r.lhs_consistent, Rule.side_eq hr r.rhs_consistent]
  dsimp only [bind, Except.bind]
  rw [dif_pos hrhs, dif_pos hcond]
  rfl

/-- The sides of a rule that was read are patterns that were read. -/
theorem Rule.ofTexts_inv {name lhs rhs : String}
    {condition : Option Condition} {r : Rule}
    (h : Rule.ofTexts name lhs rhs condition = .ok r) :
    Pattern.parse lhs = .ok r.lhs ∧ Pattern.parse rhs = .ok r.rhs ∧
    r.condition = condition := by
  unfold Rule.ofTexts at h
  obtain ⟨l, hl, h⟩ := except_bind_inv h
  obtain ⟨q, hq, h⟩ := except_bind_inv h
  dsimp only at h
  split at h
  · split at h
    · cases h
      exact ⟨Rule.side_inv hl, Rule.side_inv hq, rfl⟩
    · cases h
  · cases h

/-- Under a substitution by terms, the variables that the condition of a rule reads
come to these numbers. -/
def Rule.ComesTo (r : Rule) (θ : String → Pattern) : List Binary64 → Prop :=
  List.Forall₂ (fun name v => (θ name).normalForm.number? = some v) r.reads

/-- What loadable terms come to are widths, and in particular no negative zeros. -/
theorem Rule.ComesTo.isWidth {r : Rule} {θ : String → Pattern}
    {values : List Binary64} (h : r.ComesTo θ values)
    (hθ : ∀ name ∈ r.lhs.vars, (θ name).Loadable) :
    ∀ v ∈ values, Binary64.IsWidth v := by
  have hreads : ∀ name ∈ r.reads, (θ name).Loadable :=
    fun name hname => hθ name (r.condition_bound name hname)
  unfold Rule.ComesTo at h
  generalize r.reads = names at hreads h
  induction h with
  | nil => exact fun v hv => absurd hv List.not_mem_nil
  | cons hv _ ih =>
      obtain ⟨hname, hrest⟩ := List.forall_mem_cons.1 hreads
      exact List.forall_mem_cons.2
        ⟨Pattern.isWidth_normalForm hname.literal hv, ih hrest⟩

/-- The sign of a zero is all that a list of widths could lose. -/
theorem eq_of_map_withoutMinusZero {l l' : List Binary64}
    (hl : ∀ v ∈ l, Binary64.IsWidth v) (hl' : ∀ v ∈ l', Binary64.IsWidth v)
    (h : l.map Binary64.withoutMinusZero = l'.map Binary64.withoutMinusZero) :
    l = l' := by
  rwa [List.map_congr_left fun v hv => (hl v hv).withoutMinusZero,
    List.map_congr_left fun v hv => (hl' v hv).withoutMinusZero, List.map_id',
    List.map_id'] at h

namespace EGraph

variable {g g' : EGraph} {app : Application} {apps : List Application} {s : Subst}
  {p : Pattern} {x : ClassId}
  {σ : String → ClassId} {θ : String → Pattern} {r : Rule} {values : List Binary64}
  {n : Nat} {b : Bool} {v : Binary64}

/-! ## Every match is applied -/

/-- Every application of a round is made in some graph between the start and the end
of the round, and calls lead there and on from there. -/
theorem applyEach_made (hw : g.WellFormed) (h : applyEach apps g = .ok n g') :
    Calls g g' ∧ ∀ app ∈ apps, ∃ t b t', Calls g t ∧ applyAt app t = .ok b t' ∧
      Calls t' g' := by
  replace h := applied_of_applyEach h
  refine ⟨h.calls hw, ?_⟩
  induction h with
  | nil => exact fun app happ => absurd happ List.not_mem_nil
  | cons first others ih =>
      have hcalls := applyAt_calls hw first
      have hw₁ := Calls.wellFormed hw hcalls
      refine List.forall_mem_cons.2 ⟨⟨_, _, _, .refl, first, others.calls hw₁⟩,
        fun a ha => ?_⟩
      obtain ⟨t, b, t', hstart, hrun, hend⟩ := ih hw₁ a ha
      exact ⟨t, b, t', hcalls.trans hstart, hrun, hend⟩

/-- After an application, the class of the match holds the right side: either it was
there already, or the class that holds it was united with that of the match. -/
theorem realizes_of_applyAt (hw : g.WellFormed) (hs : g.BoundIn app.subst)
    (h : applyAt app g = .ok b g') :
    g'.Realizes app.subst app.equation.rhs app.id := by
  obtain ⟨ref, g₁, hi, hid, href, hrest⟩ := applyAt_inv h
  have hreal := (refers_of_instantiate hw hs hi).2
  have hw₁ := Calls.wellFormed hw (instantiate_calls hw hi)
  rcases hrest with ⟨hroot, rfl⟩ | ⟨z, hunite⟩
  · exact hreal.congr hroot.symm
  · have hid₁ := hw₁.root_lt hid
    have href₁ := hw₁.root_lt href.2
    have hext := hw₁.extends_unite hid₁ href₁ hunite
    obtain ⟨-, hjoined, -⟩ := unite_joins hw₁ hid₁ href₁ hunite
    -- the class of the match and that of the right side now have one root
    refine (hreal.of_extends hext).congr ?_
    rw [← hext.root_eq (hw₁.root_root ref.toNat), ← hjoined,
      hext.root_eq (hw₁.root_root _)]

/-- Once the matches have been applied and the graph has been repaired, the class of
each match holds the right side. -/
theorem realizes_of_applyAll (hw : g.WellFormed)
    (hs : ∀ app ∈ apps, g.BoundIn app.subst)
    (h : applyAll apps g = .ok n g') :
    ∀ app ∈ apps, g'.Realizes app.subst app.equation.rhs app.id := by
  intro app happ
  obtain ⟨g₁, heach, hrebuild⟩ := applyAll_inv h
  obtain ⟨-, hmade⟩ := applyEach_made hw heach
  obtain ⟨t, b, t', hstart, hrun, hend⟩ := hmade app happ
  have ht := Calls.wellFormed hw hstart
  have ht' := Calls.wellFormed ht (applyAt_calls ht hrun)
  have hreal :=
    realizes_of_applyAt ht ((hs app happ).of_extends (Calls.extends hw hstart)) hrun
  exact hreal.of_extends (Calls.extends ht' (hend.tail (.rebuild hrebuild)))

/-- What was collected binds its variables to issued numbers, so it can be applied to
the end. -/
theorem realizes_of_mem_applications {equations : List Equation} (hw : g.WellFormed)
    (happs : g.applications equations = .ok apps) (h : applyAll apps g = .ok n g')
    (hmem : app ∈ apps) : g'.Realizes app.subst app.equation.rhs app.id :=
  realizes_of_applyAll hw
    (fun _ happ => (offered_of_mem_applications hw happs happ).2.boundIn) h app hmem

/-! ## Matches out of date -/

/-- An instance that a repaired graph holds is represented, and found when it is
added, under the substitution that is up to date. -/
theorem Rebuilt.represented_refreshed {names : List String} (hg : g.Rebuilt)
    (hlit : ∀ v, .literal v ∈ p.parts → v.level ≠ none)
    (hsub : ∀ name ∈ p.occurrences, name ∈ names)
    (hx : x < g.issued) (hp : g.Realizes s p x) :
    g.Represented (assign (g.boundTo s) names) p (g.root x) ∧
      instantiate (assign (g.boundTo s) names) p g = .ok (g.root x) g := by
  have hw := hg.wellFormed
  refine ⟨(represented_assign hsub).2 (hg.representedBy hp), ?_⟩
  have hown : ∀ name ∈ p.occurrences,
      Bindings.get? (assign (g.boundTo s) names) name =
      Bindings.get? (assign (g.boundTo s) p.occurrences) name := fun name hname => by
    rw [get?_assign, get?_assign, if_pos (hsub name hname), if_pos hname]
  rw [instantiate_congr hown,
    hg.repaired.settled.instantiate_of_mem_matchIn hw (hw.root_lt hx)
    (hg.mem_matchIn_of_realizes hlit hx hp), hw.root_root]

/-! ## Ground instances are matches -/

/-- Adding a term returns a reference to a class that holds it. -/
theorem refers_of_addGround {ref : Int} (hw : g.WellFormed)
    (ha : addGround p g = .ok ref g') : g'.Refers [] p ref :=
  refers_of_instantiate hw (boundIn_nil g) (addGround_inv ha).2

/-- A class that holds a term knows the number that the term comes to, since in a
repaired graph computed widths have been evaluated. -/
theorem constant?_of_number (hg : Repaired g) (hp : g.Realizes s p x)
    (hv : p.normalForm.number? = some v) :
    ∃ c, g.constant? x = some c ∧ c.withoutMinusZero = v.withoutMinusZero := by
  obtain ⟨m, hm, hmv⟩ := exists_of_number? hv (hg.evaluated.realizes_normalForm hp)
  exact hg.constant?_of_represents hm hmv

/-- In a repaired graph, a term stands for one class at most. -/
theorem Settled.exists_root_of_realizes (h : g.Settled) (θ : String → Pattern) :
    ∃ σ : String → ClassId, ∀ name j, g.Realizes [] (θ name) j →
      σ name = g.root j := by
  classical
  refine ⟨fun name => if hex : ∃ j, g.Realizes [] (θ name) j then g.root hex.choose
    else 0, fun name j hj => ?_⟩
  dsimp only
  rw [dif_pos ⟨j, hj⟩]
  exact h.root_eq_of_realizes
    (Exists.choose_spec (p := fun j => g.Realizes [] (θ name) j) ⟨j, hj⟩) hj

/-- Where a graph holds an instance of a pattern by terms, the pattern matches with
the classes of the terms. In a repaired graph each term stands for one class, which
`σ` picks, so all occurrences of a variable agree. -/
theorem Rebuilt.isMatch_substitute (hg : g.Rebuilt) (hx : x < g.issued)
    (hp : g.Realizes [] (p.substitute θ) x) :
    ∃ σ : String → ClassId, g.IsMatch p (g.root x) (assign σ p.occurrences) ∧
      ∀ name ∈ p.occurrences, σ name < g.issued ∧
        g.Realizes [] (θ name) (σ name) := by
  have hw := hg.wellFormed
  obtain ⟨σ, hσ⟩ := hg.repaired.settled.exists_root_of_realizes θ
  have hocc := Pattern.occurs_substitute.1 hp
  have hmatch : g.IsMatch p (g.root x) (assign σ p.occurrences) := by
    refine hg.isMatch (hw.root_mem_classIds hx) ?_
    exact hocc.map g.root (A := fun _ => True)
      (fun _ _ _ _ => trivial) (fun {name k} _ hk => hσ name k hk)
      (fun _ hm => hg.repaired.settled.snapshot hm) trivial
  refine ⟨σ, hmatch, fun name hname => ?_⟩
  obtain ⟨j, hj⟩ := hocc.exists_bound hname
  refine ⟨((mem_classIds hw).1 (hmatch.assign_mem hname)).1, Realizes.congr hj ?_⟩
  rw [hσ name j hj, hw.root_root]

/-- The guard of a rule reads the numbers that the terms come to, up to the signs of
zeros. The induction is on the variables that the condition reads. -/
theorem Rebuilt.exists_constantsOf_comesTo (hg : g.Rebuilt)
    (hσ : ∀ name ∈ r.lhs.occurrences, σ name < g.issued ∧
      g.Realizes [] (θ name) (σ name))
    (hvalues : r.ComesTo θ values) : ∃ values',
      g.constantsOf (assign σ r.lhs.occurrences) r.reads = .ok (some values') ∧
      values'.map Binary64.withoutMinusZero = values.map Binary64.withoutMinusZero ∧
      ∀ v ∈ values', ∃ y < g.issued, g.constant? y = some v := by
  have hbound : ∀ name ∈ r.reads, name ∈ r.lhs.occurrences := fun name hname =>
    Pattern.mem_vars.1 (r.condition_bound name hname)
  unfold Rule.ComesTo at hvalues
  generalize r.reads = names at hbound hvalues
  induction hvalues with
  | nil => exact ⟨[], rfl, rfl, fun v hv => absurd hv List.not_mem_nil⟩
  | @cons name v rest others hv _ ih =>
      obtain ⟨hname, hrest⟩ := List.forall_mem_cons.1 hbound
      obtain ⟨hlt, hreal⟩ := hσ name hname
      obtain ⟨c, hc, hcv⟩ := constant?_of_number hg.repaired hreal hv
      obtain ⟨values', hconstants, hmap, hknown⟩ := ih hrest
      have hat : g.constantAt (σ name) = .ok (some c) := by
        rw [constantAt, find_natCast hlt, ← hc]
        rfl
      refine ⟨c :: values', ?_, by rw [List.map_cons, List.map_cons, hcv, hmap],
        List.forall_mem_cons.2 ⟨⟨σ name, hlt, hc⟩, hknown⟩⟩
      exact constantsOf_eq_some.2 (.cons ⟨_, by rw [get?_assign, if_pos hname], hat⟩
        (constantsOf_eq_some.1 hconstants))

/-- If the numbers that a guard reads satisfy the condition, the guard holds. -/
theorem guard_of_holds (hconstants : g.constantsOf s r.reads = .ok (some values))
    (h : r.holds values = true) : r.toEquation.guard g s = .ok true := by
  refine guard_eq_true.2 fun c hc => ?_
  have hcondition : r.condition = some c := hc
  unfold Rule.reads at hconstants
  unfold Rule.holds at h
  rw [hcondition] at hconstants h
  exact ⟨values, hconstants, h⟩

/-- Applying a rule once unites the two sides of a ground instance, if its condition
holds of what the terms for the variables come to. The instance of the left side is a
match with the classes of the terms, so its class holds the right side with them, and
this is where the instance of the right side is. -/
theorem find_eq_of_applyOnce {text : String} {a c : Int}
    (hp : Pattern.parse text = .ok r.lhs)
    (hg : Calls .empty g) (hl : g.Refers [] (r.lhs.substitute θ) a)
    (hr : g.Refers [] (r.rhs.substitute θ) c)
    (hvalues : r.ComesTo θ values)
    (hholds : ∀ g₁, rebuild g = .ok () g₁ → ∀ values',
      values'.map Binary64.withoutMinusZero = values.map Binary64.withoutMinusZero →
      (∀ v ∈ values', ∃ y < g₁.issued, g₁.constant? y = some v) →
      r.holds values' = true)
    (hrun : applyOnce r.toEquation g = .ok n g') :
    ∃ k, g'.find a = .ok k ∧ g'.find c = .ok k := by
  have hw := Calls.wellFormed wellFormed_empty hg
  obtain ⟨g₁, apps, hrebuild, happs, hall⟩ := applyOnce_inv hrun
  have hg₁ : g₁.Rebuilt := ⟨g, hg, hrebuild⟩
  have hw₁ := hg₁.wellFormed
  have hg' := hg₁.applyAll hall
  have hext : Extends g g₁ := Steps.extends hw (rebuild_steps hw hrebuild)
  have hext' : Extends g₁ g' := Calls.extends hw₁ (applyAll_calls hw₁ hall)
  obtain ⟨hissued, hlhs⟩ := hl.of_extends hext
  obtain ⟨σ, hmatch, hσ⟩ := hg₁.isMatch_substitute hissued.2 hlhs
  obtain ⟨values', hconstants, hmap, hknown⟩ :=
    hg₁.exists_constantsOf_comesTo hσ hvalues
  -- the instance is among what is applied
  have hmem : (⟨r.toEquation, g₁.root a.toNat,
      assign σ r.lhs.occurrences⟩ : Application) ∈ apps :=
    mem_applications_of_isMatch hg₁ happs List.mem_cons_self
      (level_of_parse hp) hmatch
      (guard_of_holds hconstants (hholds g₁ hrebuild values' hmap hknown))
  have hreal := realizes_of_mem_applications hw₁ happs hall hmem
  -- the terms for the variables are where the variables are, so the class holds the
  -- instance of the right side
  have hinstance : g'.Realizes [] (r.rhs.substitute θ) (g₁.root a.toNat) := by
    refine Pattern.occurs_substitute.2
      (hreal.imp (A := fun _ => True) (fun _ _ _ _ => trivial)
      (fun {name k} _ hbound => ?_) (fun _ hm => hm) trivial)
    obtain ⟨ref, hget, hroot⟩ := hbound
    obtain ⟨hname, rfl⟩ := get?_assign_eq_some.1 hget
    exact ((hσ name hname).2.of_extends hext').congr hroot
  obtain ⟨hissued', hrhs⟩ := (hr.of_extends hext).of_extends hext'
  refine ⟨_, find_of_issued (hissued.of_extends hext'), ?_⟩
  rw [find_of_issued hissued', ← hg'.repaired.settled.root_eq_of_realizes hinstance
    hrhs, hext'.root_eq (hw₁.root_root a.toNat)]

/-! ## No match is lost -/

/-- What a search finds and the guard admits is applied. -/
theorem mem_applications_of_mem_search {eqn : Equation} {found : Found}
    (happs : g.applications [eqn] = .ok apps)
    (hfound : found ∈ g.search eqn.lhs) (hs : s ∈ found.substs)
    (hguard : eqn.guard g s = .ok true) :
    (⟨eqn, found.id, s⟩ : Application) ∈ apps := by
  refine (mem_filterM happs).2
    ⟨List.mem_flatMap.2 ⟨eqn, List.mem_cons_self, ?_⟩, hguard⟩
  exact List.mem_flatMap.2 ⟨found, hfound, List.mem_map_of_mem hs⟩

/-- Applying a rule once adds the right side to the class of every match, under the
substitution that is up to date then. The numbers in the match are still issued after
the round, and refreshing replaces each of them by the root of its class. -/
theorem represented_of_applyOnce
    (hlit : ∀ v, .literal v ∈ r.rhs.parts → v.level ≠ none) (hg : Calls .empty g)
    (hrun : applyOnce r.toEquation g = .ok n g') : ∃ g₁, rebuild g = .ok () g₁ ∧
      ∀ found ∈ g₁.search r.lhs, ∀ s ∈ found.substs,
        r.toEquation.guard g₁ s = .ok true → ∃ t k,
        g'.refresh s r.lhs.vars = .ok t ∧ g'.find found.id = .ok k ∧
        g'.Represented t r.rhs k ∧
          instantiate t r.rhs g' = .ok (k : Int) g' := by
  obtain ⟨g₁, apps, hrebuild, happs, hall⟩ := applyOnce_inv hrun
  have hg₁ : g₁.Rebuilt := ⟨g, hg, hrebuild⟩
  have hw₁ := hg₁.wellFormed
  have hext : Extends g₁ g' := Calls.extends hw₁ (applyAll_calls hw₁ hall)
  refine ⟨g₁, hrebuild, fun found hfound s hs hguard => ?_⟩
  have hmem := mem_applications_of_mem_search happs hfound hs hguard
  obtain ⟨-, hoffered⟩ := offered_of_mem_applications hw₁ happs hmem
  have hreal := realizes_of_mem_applications hw₁ happs hall hmem
  have hlt : found.id < g'.issued := Nat.lt_of_lt_of_le hoffered.lt hext.issued_le
  obtain ⟨hrep, hadded⟩ := (hg₁.applyAll hall).represented_refreshed hlit
    (fun name hname =>
      Pattern.mem_vars.1 (r.rhs_bound name (Pattern.mem_vars.2 hname))) hlt hreal
  refine ⟨_, _, refresh_eq fun name hname => ?_, find_natCast hlt, hrep, hadded⟩
  obtain ⟨z, ref, hget, -⟩ := hoffered.realizes.exists_bound hname
  exact ⟨ref, hget, (hoffered.boundIn name ref hget).of_extends hext⟩

/-- Applying an equation between operations does not fail while constants are the
numbers of their classes. -/
theorem Numeric.succeeds_applyOnce (h : g.Numeric) {eqn : Equation}
    (harith : eqn.Arithmetic) : Succeeds (applyOnce eqn) g := by
  refine h.succeeds_rebuild.bind fun _ g₁ hrebuild => ?_
  have h₁ := h.steps (rebuild_steps h.wellFormed hrebuild)
  obtain ⟨apps, happs⟩ := exists_applications h₁.wellFormed [eqn]
  have hask : ask (·.applications [eqn]) g₁ = .ok apps g₁ := by rw [ask, happs]
  obtain ⟨n, g', hall⟩ :=
    h₁.succeeds_applyAll fun app hmem => ready_of_mem_applications h₁.wellFormed
    (fun e he => List.mem_singleton.1 he ▸ harith) happs hmem
  exact ⟨n, g', (bind_ok hask).trans hall⟩

/-- Both sides of an instance by loadable terms can be loaded, and applying the rule
once unites them. What is asked of the condition here is only that it holds of the
numbers themselves, since no zero has a sign in a graph of loaded terms. -/
theorem loaded_of_applyOnce {lhs rhs : String} (hl : Pattern.parse lhs = .ok r.lhs)
    (hr : Pattern.parse rhs = .ok r.rhs)
    (hθ : ∀ name ∈ r.lhs.vars, (θ name).Loadable)
    (hvalues : r.ComesTo θ values) (hholds : r.holds values = true) : ∃ a b g₁ g₂,
      addGround (r.lhs.substitute θ) .empty = .ok a g₁ ∧
      addGround (r.rhs.substitute θ) g₁ = .ok b g₂ ∧
      (r.toEquation.Arithmetic → ∃ n g', applyOnce r.toEquation g₂ = .ok n g') ∧
      ∀ n g', applyOnce r.toEquation g₂ = .ok n g' → ∃ k, g'.find a = .ok k ∧
        g'.find b = .ok k := by
  have hloadable {text : String} {p : Pattern} (hp : Pattern.parse text = .ok p)
      (hbound : ∀ name ∈ p.occurrences, name ∈ r.lhs.vars) :
      (p.substitute θ).Loadable :=
    .substitute (isWidth_of_parse hp) fun name hname => hθ name (hbound name hname)
  obtain ⟨a, g₁, ha⟩ :=
    numeric_empty.succeeds_addGround (hloadable hl fun _ => Pattern.mem_vars.2)
  have hn₁ :=
    (numeric_empty.addGround (hloadable hl fun _ => Pattern.mem_vars.2) ha).1
  have hrhs := hloadable hr fun name hname =>
    r.rhs_bound name (Pattern.mem_vars.2 hname)
  obtain ⟨b, g₂, hb⟩ := hn₁.succeeds_addGround hrhs
  have hn₂ := (hn₁.addGround hrhs hb).1
  refine ⟨a, b, g₁, g₂, ha, hb, hn₂.succeeds_applyOnce, fun n g' hrun => ?_⟩
  have hcalls := addGround_calls hn₁.wellFormed hb
  refine find_eq_of_applyOnce hl ((addGround_calls wellFormed_empty ha).trans hcalls)
    ((refers_of_addGround wellFormed_empty ha).of_extends
      (Calls.extends hn₁.wellFormed hcalls))
    (refers_of_addGround hn₁.wellFormed hb) hvalues
    (fun g₃ hrebuild values' hmap hknown => ?_) hrun
  -- no constant of the graph is a negative zero, so the condition is asked about the
  -- numbers themselves
  have hwidths := (hn₂.steps (rebuild_steps hn₂.wellFormed hrebuild)).widths
  rwa [eq_of_map_withoutMinusZero (fun v hv => by
    obtain ⟨y, hy, hc⟩ := hknown v hv
    exact hwidths y hy v hc) (hvalues.isWidth hθ) hmap]

/-- Applying a rule once loses no match, for every rule that was read.

Let the search after the rebuild at the start yield a class and a substitution for
which the guard holds. Once the rule has been applied, the class has the instance of
the right side under the substitution that binds each variable to the number that
stands for its class by then, and adding this instance adds nothing. It does not
matter how many matches there are, nor which classes the other ones unite.

In particular, the two sides of a ground instance are in one class once both have
been added and the rule has been applied, if the condition holds of the numbers that
the terms come to. In any graph that was reached, the condition has to hold whatever
the signs of zeros are, as a graph does not tell zeros apart. In the empty graph,
terms that can be loaded come to no negative zero, adding the two sides succeeds, and
a rule between operations, as those of the catalog are, is applied without an
error. -/
theorem applyOnce_complete {name lhs rhs : String}
    {condition : Option Condition} {r : Rule}
    (hr : Rule.ofTexts name lhs rhs condition = .ok r) :
    (∀ g n g', Reached g → applyOnce r.toEquation g = .ok n g' →
      ∃ g₁, rebuild g = .ok () g₁ ∧
      ∀ found ∈ g₁.search r.lhs, ∀ s ∈ found.substs,
        r.toEquation.guard g₁ s = .ok true → ∃ t k,
        g'.refresh s r.lhs.vars = .ok t ∧ g'.find found.id = .ok k ∧
        g'.Represented t r.rhs k ∧
          instantiate t r.rhs g' = .ok (k : Int) g') ∧
    (∀ g, Reached g → ∀ θ values, r.ComesTo θ values →
      (∀ values', values'.map Binary64.withoutMinusZero =
        values.map Binary64.withoutMinusZero →
        r.holds values' = true) →
      ∀ a b g₁ g₂ n g', addGround (r.lhs.substitute θ) g = .ok a g₁ →
        addGround (r.rhs.substitute θ) g₁ = .ok b g₂ →
        applyOnce r.toEquation g₂ = .ok n g' →
        ∃ k, g'.find a = .ok k ∧ g'.find b = .ok k) ∧
    ∀ θ values, (∀ name ∈ r.lhs.vars, (θ name).Loadable) → r.ComesTo θ values →
      r.holds values = true → ∃ a b g₁ g₂,
        addGround (r.lhs.substitute θ) .empty = .ok a g₁ ∧
        addGround (r.rhs.substitute θ) g₁ = .ok b g₂ ∧
        (r.toEquation.Arithmetic → ∃ n g', applyOnce r.toEquation g₂ = .ok n g') ∧
        ∀ n g', applyOnce r.toEquation g₂ = .ok n g' → ∃ k, g'.find a = .ok k ∧
          g'.find b = .ok k := by
  obtain ⟨hl, hr, -⟩ := Rule.ofTexts_inv hr
  refine ⟨fun g n g' hg hrun =>
    represented_of_applyOnce (level_of_parse hr) hg.calls hrun, ?_,
    fun θ values hθ hvalues hholds => loaded_of_applyOnce hl hr hθ hvalues hholds⟩
  intro g hg θ values hvalues hholds a b g₁ g₂ n g' ha hb hrun
  have hw := Calls.wellFormed wellFormed_empty hg.calls
  have hcalls := addGround_calls hw ha
  have hw₁ := Calls.wellFormed hw hcalls
  have hcalls₁ := addGround_calls hw₁ hb
  exact find_eq_of_applyOnce hl ((hg.calls.trans hcalls).trans hcalls₁)
    ((refers_of_addGround hw ha).of_extends (Calls.extends hw₁ hcalls₁))
    (refers_of_addGround hw₁ hb) hvalues
    (fun _ _ values' hmap _ => hholds values' hmap) hrun

/-- The terms for the variables when `A` is doubled in four bits. -/
def doubledTerms : String → Pattern
  | "sa" | "sb" => .sign .unsigned
  | "a" => .symbol "A"
  | _ => .literal 4

/-- A product by two is united with a sum, of higher rank, before the product around
it is taken, whose match still calls it by the number 6. Where only one product and
its sum have been added, the rule puts them into one class. -/
theorem applyOnce_complete_multToAdd :
    ∃ (g g₁ g' : EGraph) (n : Nat) (found : Found) (s t : Subst) (k : ClassId)
    (a b : Int) (g₂ g₃ g₄ : EGraph) (m : Nat) (k' : ClassId),
    Rule.ofTexts "mult-to-add" "(* ?wo ?wa ?sa ?a ?wb ?sb 2)"
      "(+ ?wo ?wa ?sa ?a ?wa ?sa ?a)"
      Catalog.multToAdd.condition = .ok Catalog.multToAdd ∧
    Reached g ∧ applyOnce Catalog.multToAdd.toEquation g = .ok n g' ∧
    rebuild g = .ok () g₁ ∧ found ∈ g₁.search Catalog.multToAdd.lhs ∧
    s ∈ found.substs ∧ Catalog.multToAdd.toEquation.guard g₁ s = .ok true ∧
    s.get? "a" = some 6 ∧ g'.refresh s Catalog.multToAdd.lhs.vars = .ok t ∧
    t.get? "a" = some 3 ∧ g'.find found.id = .ok k ∧
    g'.Represented t Catalog.multToAdd.rhs k ∧
    instantiate t Catalog.multToAdd.rhs g' = .ok (k : Int) g' ∧
    addGround (Catalog.multToAdd.lhs.substitute doubledTerms) .empty = .ok a g₂ ∧
    addGround (Catalog.multToAdd.rhs.substitute doubledTerms) g₂ = .ok b g₃ ∧
    applyOnce Catalog.multToAdd.toEquation g₃ = .ok m g₄ ∧ g₄.find a = .ok k' ∧
    g₄.find b = .ok k' := by
  have hread : Rule.ofTexts "mult-to-add" "(* ?wo ?wa ?sa ?a ?wb ?sb 2)"
      "(+ ?wo ?wa ?sa ?a ?wa ?sa ?a)"
      Catalog.multToAdd.condition = .ok Catalog.multToAdd :=
    Rule.ofTexts_eq Catalog.multToAdd (by decide +kernel) (by decide +kernel)
  obtain ⟨hcomplete, -, hinstances⟩ := applyOnce_complete hread
  have hrun : (fromEmpty (ε := LoadError) do
      let _ ← EGraph.load "(+ 4 4 unsign A 4 unsign A)"
      let _ ← EGraph.load "B"
      let _ ← EGraph.loading (EGraph.merge 3 4)
      let _ ← EGraph.load "(* 4 4 unsign (* 4 4 unsign A 4 unsign 2) 4 unsign 2)"
      let g ← get
      let _ ← EGraph.loading (EGraph.applyOnce Catalog.multToAdd.toEquation)
      let g' ← get
      match EGraph.rebuild g with
      | .ok _ g₁ =>
        return (g₁.search Catalog.multToAdd.lhs).any fun found =>
          found.substs.any fun s =>
            (Catalog.multToAdd.toEquation.guard g₁ s).toOption = some true ∧
            s.get? "a" = some 6 ∧
            ((g'.refresh s Catalog.multToAdd.lhs.vars).toOption.bind
              (·.get? "a")) = some 3
      | .error _ _ => return false).toOption.map (·.1) = some true := by
    decide +kernel
  obtain ⟨⟨result, t⟩, hok, hresult⟩ := Option.map_eq_some_iff.1 hrun
  obtain ⟨r₁, t₁, h₁, hok⟩ := bind_inv (fromEmpty_inv (toOption_inv hok))
  obtain ⟨r₂, t₂, h₂, hok⟩ := bind_inv hok
  obtain ⟨r₃, t₃, h₃, hok⟩ := bind_inv hok
  obtain ⟨r₄, g, h₄, hok⟩ := bind_inv hok
  rw [get_bind] at hok
  obtain ⟨n, g', happly, hok⟩ := bind_inv hok
  rw [get_bind] at hok
  have hg : Reached g :=
    .run (.addText _) (.run (.merge 3 4) (.run (.addText _) (.run (.addText _) .empty
      ⟨r₁, h₁⟩) ⟨r₂, h₂⟩) ⟨r₃, loading_inv h₃⟩) ⟨r₄, h₄⟩
  obtain ⟨g₁, hrebuild, hmatches⟩ := hcomplete g n g' hg (loading_inv happly)
  rw [hrebuild] at hok
  obtain ⟨rfl, -⟩ := pure_inv hok
  obtain ⟨found, hfound, hsubsts⟩ := List.any_eq_true.1 hresult
  obtain ⟨s, hs, hfacts⟩ := List.any_eq_true.1 hsubsts
  obtain ⟨hguard, hbefore, hafter⟩ := of_decide_eq_true hfacts
  obtain ⟨t, k, ht, hk, hrep, hadded⟩ :=
    hmatches found hfound s hs (toOption_inv hguard)
  rw [ht] at hafter
  have hterms : ∀ name ∈ Catalog.multToAdd.lhs.vars,
      Pattern.parse (doubledTerms name).toText = .ok (doubledTerms name) ∧
      (doubledTerms name).vars = [] := by
    decide +kernel
  have hvalues : Catalog.multToAdd.ComesTo doubledTerms
      [4, .ofNat Sign.unsigned.code, 4] :=
    .cons (by decide +kernel)
      (.cons (by decide +kernel) (.cons (by decide +kernel) .nil))
  obtain ⟨a, b, g₂, g₃, ha, hb, hsucceeds, hjoined⟩ := hinstances doubledTerms _
    (fun name hname =>
      Pattern.loadable_of_parse (hterms name hname).1 (hterms name hname).2) hvalues
    (by decide +kernel)
  obtain ⟨m, g₄, hunited⟩ :=
    hsucceeds (arithmetic_of_mem_catalog (by simp [catalog]))
  obtain ⟨k', hk'⟩ := hjoined m g₄ hunited
  exact ⟨g, g₁, g', n, found, s, t, k, a, b, g₂, g₃, g₄, m, k', hread, hg,
    loading_inv happly, hrebuild, hfound, hs,
    toOption_inv hguard, hbefore, ht, hafter, hk, hrep, hadded, ha, hb, hunited, hk'⟩

end EGraph

end Datapath

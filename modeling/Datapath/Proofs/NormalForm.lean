import Datapath.Proofs.Evaluated
import Datapath.Proofs.Numbers

/-!
# Datapath.Proofs.NormalForm

Loading ground terms decides their equality up to computed widths.

The **normal form** of a term replaces every computed width of numbers by its value,
bottom-up. Two terms get the same class when they are loaded into one graph exactly
if they have the same normal form (`find_eq_iff_normalForm_eq`).

* Normal forms are values in an interpretation of terms by patterns. A loaded graph
  is sound for it, so terms in one class have one normal form.
* Loaded graphs are `Evaluated`, although nothing has been repaired. So the class
  of a term holds the normal form, too, and there is one class at most that holds a
  given term.

Nor is there anything to repair: a query without equations answers what loading has
decided.
-/

namespace Datapath

/-! ## Normal forms -/

namespace Pattern

/-- The number that a literal or a sign is. -/
def number? : Pattern → Option Binary64
  | literal value => some value
  | sign s => some (.ofNat s.code)
  | _ => none

/-- A computed width, or its value if both arguments are numbers. -/
def foldWidth (fn : WidthFn) (left right : Pattern) : Pattern :=
  match left.number?, right.number? with
  | some a, some b => literal (fn.eval a b).withoutMinusZero
  | _, _ => derived fn left right

/-- Replaces computed widths of numbers by their values, bottom-up. Both zeros become
`0`. -/
def normalForm : Pattern → Pattern
  | var name => var name
  | literal value => literal value.withoutMinusZero
  | sign s => sign s
  | symbol name => symbol name
  | derived fn left right => foldWidth fn left.normalForm right.normalForm
  | binary op w wa sa a wb sb b =>
    binary op w.normalForm wa.normalForm sa.normalForm a.normalForm wb.normalForm
      sb.normalForm b.normalForm

/-- No computed width of a term is NaN. -/
def Evaluable (p : Pattern) : Prop :=
  ∀ fn l r, .derived fn l r ∈ p.parts → normalForm (.derived fn l r) ≠ .literal .nan

end Pattern

/-- Terms as their own values, up to computed widths. -/
def normal : Interpretation Pattern where
  literal := .literal
  sign := .sign
  symbol := .symbol
  derived := Pattern.foldWidth
  binary := .binary

theorem normal_value (p : Pattern) : normal.value .var p = p.normalForm := by
  induction p using Pattern.layers with
  | var name => rfl
  | node n ih =>
      rw [Interpretation.value_ofNode, Node.map_congr ih]
      cases n <;> rfl

/-- What is known of a term by its value is the number that the value is. -/
theorem number?_of_hasConstant {p : Pattern} {v : Binary64}
    (h : normal.HasConstant p v) :
    ∃ a, p.number? = some a ∧ a.withoutMinusZero = v.withoutMinusZero := by
  rcases h with rfl | ⟨s, rfl, hv⟩
  · exact ⟨v.withoutMinusZero, rfl, Binary64.withoutMinusZero_idem v⟩
  · refine ⟨.ofNat s.code, rfl, ?_⟩
    rw [hv, Binary64.withoutMinusZero_ofNat (by cases s <;> decide)]

/-- A computed width of two known numbers is replaced by its value. -/
theorem foldWidth_of_hasConstant {fn : WidthFn} {l r : Pattern} {a b : Binary64}
    (hl : normal.HasConstant l a) (hr : normal.HasConstant r b) :
    Pattern.foldWidth fn l r = .literal (fn.eval a b).withoutMinusZero := by
  obtain ⟨a', ha, haa⟩ := number?_of_hasConstant hl
  obtain ⟨b', hb, hbb⟩ := number?_of_hasConstant hr
  rw [Pattern.foldWidth, ha, hb]
  exact congrArg Pattern.literal (WidthFn.eval_congr haa hbb fn)

theorem normal_foldsOn : normal.FoldsOn fun _ => True :=
  fun ha hb _ _ _ => foldWidth_of_hasConstant ha hb

theorem Binary64.level_eq_none {v : Binary64} : v.level = none ↔ v = .nan := by
  cases v with
  | nan => exact ⟨fun _ => rfl, fun _ => rfl⟩
  | infinity =>
      exact ⟨fun h => absurd h (Option.some_ne_none _), fun h => by cases h⟩
  | finite => exact ⟨fun h => absurd h (Option.some_ne_none _), fun h => by cases h⟩

namespace EGraph

variable {g g' : EGraph} {x y z id : ClassId} {node : Node ClassId} {s : Subst}
  {p q : Pattern} {ref : Int} {v : Binary64} {o : Options}

/-! ## Normal forms in evaluated graphs -/

theorem exists_of_number? {a : Binary64} (ha : p.number? = some a)
    (hp : g.Realizes s p x) : ∃ m, g.Represents m x ∧ m.value? = some a := by
  cases p with
  | literal v => exact ⟨.literal v, hp, ha⟩
  | sign t => exact ⟨.sign t, hp, ha⟩
  | var | symbol | derived | binary => cases ha

/-- A class that holds an instance holds its normal form. -/
theorem Evaluated.realizes_normalForm {ok : Binary64 → Prop} (h : g.Evaluated ok)
    (hp : g.Realizes s p x) : g.Realizes s p.normalForm x := by
  induction p using Pattern.layers generalizing x with
  | var name => exact hp
  | node n ih =>
      obtain ⟨m, hrel, hm⟩ := Pattern.occurs_ofNode.1 hp
      -- the classes of the slots hold the normal forms of the slots
      have hlayer : g.Realizes s (.ofNode (n.map Pattern.normalForm)) x := by
        refine Pattern.occurs_ofNode.2 ⟨m, ?_, hm⟩
        exact (Node.Rel.map_right.2 (hrel.imp fun q hq c _ hc =>
          ih q hq hc).flip).flip
      cases n with
      | literal v => exact represents_key.2 hlayer
      | sign | symbol | binary => exact hlayer
      | derived fn l r =>
          obtain ⟨cl, cr, hl, hr, hrep⟩ := hlayer
          -- both classes are known to be these numbers, so the one of the width
          -- holds its value
          show g.Realizes s (Pattern.foldWidth fn l.normalForm r.normalForm) x
          unfold Pattern.foldWidth
          split
          · next a b ha hb =>
            obtain ⟨m, hml, hma⟩ := exists_of_number? ha hl
            obtain ⟨n, hnr, hnb⟩ := exists_of_number? hb hr
            obtain ⟨c, hc, hca⟩ :=
              h.settled.constant?_of_represents h.wellFormed hml hma
            obtain ⟨d, hd, hdb⟩ :=
              h.settled.constant?_of_represents h.wellFormed hnr hnb
            exact represents_key.2 (h.represents_value hrep hc hca hd hdb)
          · exact ⟨cl, cr, hl, hr, hrep⟩

/-! ## Runs without equations -/

theorem applyAll_nil_inv {n : ℕ} (h : applyAll [] g = .ok n g') :
    EGraph.rebuild g = .ok () g' := by
  obtain ⟨g₁, heach, hrebuild⟩ := applyAll_inv h
  obtain ⟨-, rfl⟩ := pure_inv heach
  exact hrebuild

/-- A run without equations does not change what is equal. -/
theorem Evaluated.saturate_nil (h : g.Evaluated Binary64.IsNumber) {stats : Stats}
    (hs : saturate [] o g = .ok stats g') : g'.root = g.root := by
  obtain ⟨g₁, p, hrebuild, hrounds⟩ := saturate_inv hs
  obtain ⟨h₁, hroot₁, -⟩ := h.steps (rebuild_steps h.wellFormed hrebuild)
  refine (saturateRounds_induction (P := fun t => t.Evaluated Binary64.IsNumber ∧
    t.root = g.root) ?_ ⟨h₁, hroot₁⟩ hrounds).2
  rintro t t' apps n ⟨ht, hroot⟩ happs hall
  obtain rfl : [] = apps := Except.ok.inj happs
  obtain ⟨ht', hroot', -⟩ :=
    ht.steps (rebuild_steps ht.wellFormed (applyAll_nil_inv hall))
  exact ⟨ht', hroot'.trans hroot⟩

/-- It does not fail either, as the rebuilds of an evaluated graph succeed. -/
theorem Evaluated.succeeds_saturate_nil (h : g.Evaluated Binary64.IsNumber) :
    Succeeds (saturate [] o) g := by
  have hkeep {t t' : EGraph} (ht : t.Evaluated Binary64.IsNumber)
      (hrun : EGraph.rebuild t = .ok () t') :
      t'.Evaluated Binary64.IsNumber :=
    (ht.steps (rebuild_steps ht.wellFormed hrun)).1
  refine succeeds_saturate (I := Evaluated Binary64.IsNumber) h.succeeds_rebuild
    (fun t => hkeep h) (fun t ht => ?_) ?_
  · refine ⟨[], rfl, (succeeds_pure 0 t).bind fun n t' hpure => ?_⟩
    obtain ⟨-, rfl⟩ := pure_inv hpure
    exact ht.succeeds_rebuild.bind fun _ t' _ => succeeds_pure _ t'
  · intro t apps n t' ht happs hall
    obtain rfl : [] = apps := Except.ok.inj happs
    exact hkeep ht (applyAll_nil_inv hall)

/-! ## Loading -/

/-- A class that is to be equated with its value agrees with the literal of it. -/
theorem succeeds_equate_value (hw : g.WellFormed) (hy : y < g.issued)
    (hv : g.constant? y = some v) (hnumber : v.IsNumber) :
    Succeeds (EGraph.equate v y) g := by
  refine (succeeds_enter _ g).bind fun x g₁ henter =>
    succeeds_unite fun a b ha hb => ?_
  rcases enter_cases henter with ⟨e, he, rfl, rfl⟩ | ⟨hnone, rfl, rfl⟩
  · -- the literal was there, and its class is known to be this number
    obtain ⟨c, hc, hcv⟩ := hw.known he (v := v.withoutMinusZero) rfl
    rw [hw.constant?_root, hc] at ha
    rw [hv] at hb
    obtain rfl := Option.some.inj ha
    obtain rfl := Option.some.inj hb
    rw [Binary64.withoutMinusZero_idem] at hcv
    exact (Binary64.numEq_iff hnumber).2 hcv
  · rw [hw.constant?_issue_new] at ha
    rw [hw.constant?_issue _ hy, hv] at hb
    obtain rfl := Option.some.inj ha
    obtain rfl := Option.some.inj hb
    exact (Binary64.numEq_iff hnumber).2 rfl

/-- A node is added without an error unless it computes NaN. -/
theorem succeeds_add_of_isNumber (hw : g.WellFormed) {m : Node Int}
    (hc : ∀ c ∈ m.children, g.Issued c)
    (hnumber : ∀ v,
      g.foldDerived? (g.canonical (m.map Int.toNat)) = some v → v.IsNumber) :
    Succeeds (EGraph.add m) g := by
  have hask : ask (·.resolve m) g = .ok (g.canonical (m.map Int.toNat)) g := by
    rw [ask, resolve_of_issued hc]
  have hchild := canonical_children hw (children_toNat_lt hc)
  unfold Succeeds
  rw [EGraph.add, bind_ok hask]
  unfold EGraph.intern
  split
  · next v hnone hv =>
    refine (succeeds_enter _ g).bind fun x g₁ henter => ?_
    rcases enter_cases henter with ⟨e, he, -⟩ | ⟨-, rfl, rfl⟩
    · rw [hnone] at he
      cases he
    · -- the class that was issued for the node has the value of the node as its
      -- constant
      refine succeeds_equate_value (hw.issue hnone fun c hmem => (hchild c hmem).1)
        ?_ ?_ (hnumber v hv)
      · exact issued_lt_issue _ _
      · rw [hw.constant?_issue_new]
        obtain ⟨fn, l, r, -, -, heq, -⟩ := foldDerived?_inv hv
        rw [heq] at hv ⊢
        exact hv
  · exact succeeds_enter _ g

variable {ν : ClassId → Pattern}

theorem valued_nil {D : Type} (ν : ClassId → D) (ρ : String → D) : Valued ν [] ρ :=
  fun _ _ hs => by cases hs

/-- The classes of the slots of a layer have the normal forms of the slots as
values. -/
theorem Sound.normalForm_layer (h : Sound normal.semantics ν g) {n : Node Pattern}
    {m : Node Int} (hrel : n.Rel (g.Refers []) m) :
    (Pattern.ofNode n).normalForm =
      normal.node ((g.canonical (m.map Int.toNat)).map ν) := by
  have hslots : n.map (normal.value .var) = m.map fun ref => ν ref.toNat :=
    Node.Rel.iff_map_eq.1 (Node.Rel.map_right.2 (hrel.imp fun q _ ref _ href =>
      h.value_of_realizes (valued_nil ν _) href.2))
  rw [← normal_value, Interpretation.value_ofNode, hslots, canonical,
    Node.map_map, Node.map_map]
  exact congrArg normal.node (Node.map_congr fun ref _ => (h.root _).symm)

/-- A layer of an evaluable term does not compute NaN. -/
theorem Sound.isNumber_of_evaluable (hw : g.WellFormed)
    (h : Sound normal.semantics ν g) {n : Node Pattern} {m : Node Int}
    (hrel : n.Rel (g.Refers []) m) (hp : (Pattern.ofNode n).Evaluable)
    (hv : g.foldDerived? (g.canonical (m.map Int.toNat)) = some v) : v.IsNumber := by
  have hnormal := h.normalForm_layer hrel
  have hissued := canonical_children hw (children_toNat_lt fun c hc => by
    obtain ⟨q, -, href⟩ := hrel.exists_left hc
    exact href.1)
  obtain ⟨fn, l, r, a, b, heq, ha, hb, rfl⟩ := foldDerived?_inv hv
  rw [heq] at hissued hnormal
  have hshows {c : ClassId} {u : Binary64} (hc : c ∈ (Node.derived fn l r).children)
      (hu : g.constant? c = some u) : normal.HasConstant (ν c) u :=
    Interpretation.shows_iff.1 (h.constant (hissued c hc).1 hu)
  have hvalue : (Pattern.ofNode n).normalForm =
      .literal (fn.eval a b).withoutMinusZero :=
    hnormal.trans (foldWidth_of_hasConstant (hshows (by simp [Node.children]) ha)
      (hshows (by simp [Node.children]) hb))
  -- a layer is a computed width if its node is one
  obtain ⟨p, q, rfl⟩ : ∃ p q, n = .derived fn p q := by
    have hhead := congrArg (Node.map fun _ => ()) heq
    rw [canonical, Node.map_map, Node.map_map, ← hrel.1] at hhead
    cases n <;> cases hhead
    exact ⟨_, _, rfl⟩
  intro hnone
  rw [Binary64.level_eq_none.1 hnone] at hvalue
  exact hp fn p q (Pattern.mem_parts_self _) hvalue

/-- Evaluated, and terms in one class have one normal form. -/
structure Faithful (g : EGraph) : Prop where
  evaluated : g.Evaluated Binary64.IsNumber
  sound : ∃ ν, Sound normal.semantics ν g

theorem faithful_empty : empty.Faithful :=
  ⟨evaluated_empty, fun _ => .symbol "", sound_empty _ _⟩

namespace Faithful

/-- The classes of two terms are one exactly if their normal forms are equal. -/
theorem root_eq_iff (h : g.Faithful) (hp : g.Realizes [] p x)
    (hq : g.Realizes [] q y) :
    g.root x = g.root y ↔ p.normalForm = q.normalForm := by
  obtain ⟨ν, hν⟩ := h.sound
  constructor
  · -- soundness: normal forms are the values of the classes
    intro hroot
    rw [← normal_value, ← normal_value, hν.value_of_realizes (valued_nil ν _) hp,
      hν.value_of_realizes (valued_nil ν _) hq, hν.of_root_eq hroot]
  · -- completeness: both classes hold the common normal form
    intro hform
    have hp' := h.evaluated.realizes_normalForm hp
    rw [hform] at hp'
    exact h.evaluated.settled.root_eq_of_realizes hp'
      (h.evaluated.realizes_normalForm hq)

/-- Loading an instance keeps both halves: what it equates are widths and their
values. -/
theorem instantiate (h : g.Faithful) (hi : EGraph.instantiate [] p g = .ok ref g') :
    g'.Faithful := by
  obtain ⟨ν, hν⟩ := h.sound
  obtain ⟨ν', hfollows, -⟩ :=
    hν.instantiated (ρ := fun _ => .symbol "") normal_foldsOn zeroBlind_true
    h.evaluated.wellFormed (fun _ _ hs => by cases hs) hi fun _ _ _ _ => trivial
  exact ⟨h.evaluated.instantiate (fun _ h => h) (boundIn_nil g) hi, ν',
    hfollows.sound⟩

theorem addGround (h : g.Faithful) (ha : EGraph.addGround p g = .ok ref g') :
    g'.Faithful ∧ g'.Refers [] p ref := by
  have hi := (addGround_inv ha).2
  exact ⟨h.instantiate hi,
    refers_of_instantiate h.evaluated.wellFormed (boundIn_nil g) hi⟩

theorem succeeds_instantiate (h : g.Faithful) (hvars : p.occurrences = [])
    (hp : p.Evaluable) : Succeeds (EGraph.instantiate [] p) g := by
  induction p using Pattern.layers generalizing g with
  | var name => simp [Pattern.occurrences] at hvars
  | node n ih =>
      rw [instantiate_ofNode]
      refine Succeeds.bind ?_ fun refs g₁ hrefs => Succeeds.map ?_
      · -- the terms in the slots are loaded one after the other, by the induction
        -- hypothesis
        refine succeeds_mapM (I := Faithful)
          (fun q hq t ht => ?_) (fun q _ t r t' ht => ht.instantiate) h
        refine ih q hq ht ?_ fun fn l r hmem =>
          hp fn l r (Pattern.mem_parts_trans (Pattern.mem_parts_child hq) hmem)
        rw [Pattern.occurrences_ofNode, List.flatMap_eq_nil_iff] at hvars
        exact hvars q hq
      · obtain ⟨hw, h₁, hrel⟩ :=
          refers_slots (s := []) (P := Faithful)
            (fun q hq t r t' hw hb ht hrun =>
              ⟨ht.instantiate hrun, refers_of_instantiate hw hb hrun⟩)
            h.evaluated.wellFormed (boundIn_nil g) h hrefs
        obtain ⟨ν, hν⟩ := h₁.sound
        refine succeeds_add_of_isNumber hw (fun c hc => ?_) fun v hv =>
          hν.isNumber_of_evaluable hw hrel hp hv
        obtain ⟨q, -, hr⟩ := hrel.exists_left hc
        exact hr.1

/-- Ground terms that do not compute NaN can be loaded, whatever has been loaded
before. -/
theorem succeeds_addGround (h : g.Faithful) (hvars : p.vars = [])
    (hp : p.Evaluable) : Succeeds (EGraph.addGround p) g := by
  unfold EGraph.addGround
  rw [if_pos (List.isEmpty_iff.2 hvars)]
  refine h.succeeds_instantiate
    (List.eq_nil_iff_forall_not_mem.2 fun name hname => ?_) hp
  rw [← Pattern.mem_vars, hvars] at hname
  exact absurd hname List.not_mem_nil

/-- Terms that are loaded one after the other are in the classes that were returned
for them. -/
theorem mapM_addGround (h : g.Faithful) {terms : List Pattern} {refs : List Int}
    (hrun : terms.mapM EGraph.addGround g = .ok refs g') :
    g'.Faithful ∧ List.Forall₂ (g'.Refers []) terms refs := by
  obtain ⟨hfaithful, hall, -⟩ :=
    mapM_inv (I := Faithful) (P := fun t ref u => u.Refers [] t ref)
    (fun t _ u ref u' hu ha => by
      obtain ⟨hu', href⟩ := hu.addGround ha
      exact ⟨hu', href, fun hold => hold.of_extends
        (Calls.extends hu.evaluated.wellFormed
          (addGround_calls hu.evaluated.wellFormed ha))⟩) h hrun
  exact ⟨hfaithful, hall⟩

/-- A query without equations answers what loading has decided. -/
theorem settle_nil (h : g.Faithful) {l r : Int} (hp : g.Refers [] p l)
    (hq : g.Refers [] q r) {v : Verdict}
    (hrun : settle [] o l r g = .ok v g') :
    v.equivalent = true ↔ p.normalForm = q.normalForm := by
  obtain ⟨hsat, -, -, hverdict⟩ := settle_run hrun
  have hroot := h.evaluated.saturate_nil hsat
  rw [hverdict, decide_eq_true_iff, hroot]
  exact h.root_eq_iff hp.2 hq.2

theorem succeeds_settle_nil (h : g.Faithful) {l r : Int} (hl : g.Issued l)
    (hr : g.Issued r) : Succeeds (settle [] o l r) g :=
  succeeds_settle h.evaluated.wellFormed h.evaluated.succeeds_saturate_nil hl hr

end Faithful

end EGraph

/-! ## Equality up to computed widths -/

/-- A query loads both terms into an empty graph and then settles the question
there. -/
theorem proveTerms_inv {p q : Pattern} {equations : List Equation} {o : Options}
    {v : Verdict} {g : EGraph} (h : proveTerms p q equations o = .ok (v, g)) :
    ∃ l r g₁ g₂, EGraph.addGround p .empty = .ok l g₁ ∧
      EGraph.addGround q g₁ = .ok r g₂ ∧
      EGraph.settle equations o l r g₂ = .ok v g := by
  obtain ⟨l, g₁, hl, hrest⟩ := bind_inv (EGraph.fromEmpty_inv h)
  obtain ⟨r, g₂, hr, hsettle⟩ := bind_inv hrest
  exact ⟨l, r, g₁, g₂, hl, hr, hsettle⟩

/-- A query without equations compares normal forms, whatever its limits. -/
theorem equivalent_iff_normalForm_eq {p q : Pattern} {o : Options}
    {v : Verdict} {g : EGraph}
    (h : proveTerms p q [] o = .ok (v, g)) :
    v.equivalent = true ↔ p.normalForm = q.normalForm := by
  obtain ⟨l, r, g₁, g₂, hl, hr, hsettle⟩ := proveTerms_inv h
  obtain ⟨h₁, hp⟩ := EGraph.faithful_empty.addGround hl
  obtain ⟨h₂, hq⟩ := h₁.addGround hr
  have hw₁ := h₁.evaluated.wellFormed
  exact h₂.settle_nil
    (hp.of_extends (EGraph.Calls.extends hw₁ (EGraph.addGround_calls hw₁ hr))) hq
    hsettle

/-- It is answered for all ground terms that do not compute NaN. -/
theorem exists_proveTerms {p q : Pattern} (hpvars : p.vars = []) (hqvars : q.vars = [])
    (hp : p.Evaluable) (hq : q.Evaluable) (o : Options) :
    ∃ v g, proveTerms p q [] o = .ok (v, g) := by
  obtain ⟨l, g₁, hl⟩ := EGraph.faithful_empty.succeeds_addGround hpvars hp
  obtain ⟨h₁, hrefp⟩ := EGraph.faithful_empty.addGround hl
  obtain ⟨r, g₂, hr⟩ := h₁.succeeds_addGround hqvars hq
  obtain ⟨h₂, hrefq⟩ := h₁.addGround hr
  have hw₁ := h₁.evaluated.wellFormed
  obtain ⟨v, g, hv⟩ := h₂.succeeds_settle_nil (o := o)
    (hrefp.1.of_extends (EGraph.Calls.extends hw₁ (EGraph.addGround_calls hw₁ hr)))
      hrefq.1
  exact ⟨v, g, EGraph.proveTerms_eq_ok hl hr hv⟩

/-- The normal form of a term whose literals are widths is no other number. -/
theorem Pattern.isWidth_normalForm {p : Pattern}
    (hp : ∀ v, .literal v ∈ p.parts → Binary64.IsWidth v)
    {a : Binary64} (ha : p.normalForm.number? = some a) : Binary64.IsWidth a := by
  induction p using Pattern.layers generalizing a with
  | var name => cases ha
  | node n ih =>
      have hslot : ∀ q ∈ n.children, ∀ v, .literal v ∈ q.parts → Binary64.IsWidth v :=
        fun q hq v hv => hp v (mem_parts_trans (mem_parts_child hq) hv)
      cases n with
      | literal v =>
          obtain rfl := Option.some.inj ha
          have hv := hp v (mem_parts_self _)
          rw [hv.withoutMinusZero]
          exact hv
      | sign s => exact Option.some.inj ha ▸ Binary64.isWidth_ofNat _
      | symbol | binary => cases ha
      | derived fn l r =>
          change (foldWidth fn l.normalForm r.normalForm).number? = some a at ha
          unfold foldWidth at ha
          split at ha
          · next b c hb hc =>
            -- widths are closed under what is computed of them
            have hval := (ih l (by simp [Node.children])
              (hslot l (by simp [Node.children])) hb).eval
                (ih r (by simp [Node.children])
                  (hslot r (by simp [Node.children])) hc) fn
            obtain rfl := Option.some.inj ha
            rw [hval.withoutMinusZero]
            exact hval
          · cases ha

/-- What is read from a text computes widths only, and NaN is none. -/
theorem Pattern.Loadable.evaluable {p : Pattern} (hp : p.Loadable) :
    p.Evaluable := by
  intro fn l r hmem hnan
  have hwidth : Binary64.IsWidth .nan := isWidth_normalForm (p := .derived fn l r)
    (fun v hv => hp.literal v (mem_parts_trans hmem hv)) (by rw [hnan]; rfl)
  exact hwidth.level rfl

namespace EGraph

theorem loading_bind {α β : Type} (x : GraphM α) (f : α → GraphM β) :
    loading (x >>= f) = loading x >>= fun a => loading (f a) := by
  funext g
  show loading (EStateM.bind x f) g =
      EStateM.bind (loading x) (fun a => loading (f a)) g
  cases hx : x g <;> simp only [loading, EStateM.bind, hx]

theorem fromEmpty_loading {α : Type} (x : GraphM α) :
    fromEmpty (loading x) = (fromEmpty x).mapError .refused := by
  unfold fromEmpty loading
  cases x .empty <;> rfl

theorem load_eq {text : String} {p : Pattern} (hp : Pattern.parse text = .ok p) :
    load text = loading (addGround p) := by
  unfold load
  rw [hp]
  rfl

end EGraph

/-- A query about texts is one about the terms that they are read as. -/
theorem prove_eq_proveTerms {lhs rhs : String} {p q : Pattern}
    (hp : Pattern.parse lhs = .ok p) (hq : Pattern.parse rhs = .ok q)
    (equations : List Equation) (o : Options) :
    prove lhs rhs equations o = (proveTerms p q equations o).mapError .refused := by
  rw [prove, proveTerms, EGraph.load_eq hp,
    EGraph.load_eq hq, ← EGraph.fromEmpty_loading]
  simp only [EGraph.loading_bind]

/-- Terms that are loaded into one graph, in any number and order, are in one class
exactly if they have the same normal form, and this is what a query without equations
answers, whatever its limits. Loading fails only for terms that compute NaN, which no
text does. -/
theorem find_eq_iff_normalForm_eq :
    (∀ (terms : List Pattern) refs g,
      terms.mapM EGraph.addGround .empty = .ok refs g →
      refs.length = terms.length ∧ ∀ p ∈ terms.zip refs, ∀ q ∈ terms.zip refs, ∃ x y,
        g.find p.2 = .ok x ∧ g.find q.2 = .ok y ∧
        (x = y ↔ p.1.normalForm = q.1.normalForm)) ∧
    (∀ terms : List Pattern, (∀ t ∈ terms, t.vars = [] ∧ t.Evaluable) →
      Succeeds (terms.mapM EGraph.addGround) .empty) ∧
    (∀ p q o v g, proveTerms p q [] o = .ok (v, g) →
      (v.equivalent = true ↔ p.normalForm = q.normalForm)) ∧
    (∀ p q o, p.vars = [] → q.vars = [] → p.Evaluable → q.Evaluable →
      ∃ v g, proveTerms p q [] o = .ok (v, g)) ∧
    ∀ lhs rhs p q o, Pattern.parse lhs = .ok p → Pattern.parse rhs = .ok q →
      p.vars = [] → q.vars = [] →
      ∃ v g, prove lhs rhs [] o = .ok (v, g) ∧
        (v.equivalent = true ↔ p.normalForm = q.normalForm) := by
  refine ⟨fun terms refs g hrun => ?_, fun terms hterms => ?_, fun p q o v g =>
    equivalent_iff_normalForm_eq,
    fun p q o hpvars hqvars hp hq => exists_proveTerms hpvars hqvars hp hq o, ?_⟩
  · obtain ⟨hfaithful, hall⟩ := EGraph.faithful_empty.mapM_addGround hrun
    refine ⟨hall.length_eq.symm, fun p hp q hq => ?_⟩
    have hrefp := (List.forall₂_iff_zip.1 hall).2 hp
    have hrefq := (List.forall₂_iff_zip.1 hall).2 hq
    exact ⟨_, _, EGraph.find_of_issued hrefp.1, EGraph.find_of_issued hrefq.1,
      hfaithful.root_eq_iff hrefp.2 hrefq.2⟩
  · exact succeeds_mapM (I := EGraph.Faithful)
      (fun t ht g hg => hg.succeeds_addGround (hterms t ht).1 (hterms t ht).2)
      (fun t _ g ref g' hg ha => (hg.addGround ha).1) EGraph.faithful_empty
  · intro lhs rhs p q o hp hq hpvars hqvars
    obtain ⟨v, g, hrun⟩ :=
      exists_proveTerms hpvars hqvars (Pattern.loadable_of_parse hp hpvars).evaluable
      (Pattern.loadable_of_parse hq hqvars).evaluable o
    refine ⟨v, g, ?_, equivalent_iff_normalForm_eq hrun⟩
    rw [prove_eq_proveTerms hp hq, hrun]
    rfl

/-- `(max+1 (max+1 unsign sign) 4)` is 5 and `(max+1 a 4)` is not, in one graph and
by a query. -/
theorem find_eq_iff_normalForm_eq_five : ∃ p q five : Pattern,
    Pattern.parse "(max+1 (max+1 unsign sign) 4)" = .ok p ∧
    Pattern.parse "(max+1 a 4)" = .ok q ∧
      Pattern.parse "5" = .ok five ∧
      (∃ (r s t : Int) (g : EGraph), [q, p, five].mapM EGraph.addGround .empty =
        .ok [r, s, t] g ∧ g.find s = g.find t ∧ g.find r ≠ g.find t) ∧
      (∃ v g, prove "(max+1 (max+1 unsign sign) 4)" "5" [] {} = .ok (v, g) ∧
        v.equivalent = true) ∧
      ∃ v g, proveTerms q five [] {} = .ok (v, g) ∧ v.equivalent = false := by
  obtain ⟨hload, htotal, hanswer, hquery, htext⟩ := find_eq_iff_normalForm_eq
  let p : Pattern :=
    .derived .sum (.derived .sum (.sign .unsigned) (.sign .signed))
      (.literal (.ofNat 4))
  let q : Pattern := .derived .sum (.symbol "a") (.literal (.ofNat 4))
  let five : Pattern := .literal (.ofNat 5)
  have hp : Pattern.parse "(max+1 (max+1 unsign sign) 4)" = .ok p := by
    decide +kernel
  have hq : Pattern.parse "(max+1 a 4)" = .ok q := by decide +kernel
  have hfive : Pattern.parse "5" = .ok five := by decide +kernel
  have hsame : p.normalForm = five.normalForm := by decide +kernel
  have hdiffer : q.normalForm ≠ five.normalForm := by decide +kernel
  have hground : ∀ t ∈ [q, p, five], t.vars = [] ∧ t.Evaluable := by
    simp only [List.forall_mem_cons]
    exact ⟨⟨rfl, (Pattern.loadable_of_parse hq rfl).evaluable⟩,
      ⟨rfl, (Pattern.loadable_of_parse hp rfl).evaluable⟩,
      ⟨rfl, (Pattern.loadable_of_parse hfive rfl).evaluable⟩, fun _ h =>
        absurd h List.not_mem_nil⟩
  refine ⟨p, q, five, hp, hq, hfive, ?_, ?_, ?_⟩
  · obtain ⟨refs, g, hrun⟩ := htotal [q, p, five] hground
    obtain ⟨hlength, hall⟩ := hload _ refs g hrun
    obtain ⟨r, s, t, rfl⟩ := List.length_eq_three.1 hlength
    obtain ⟨x, y, hx, hy, hxy⟩ := hall (p, s) (by simp) (five, t) (by simp)
    obtain ⟨z, y', hz, hy', hzy⟩ := hall (q, r) (by simp) (five, t) (by simp)
    refine ⟨r, s, t, g, hrun, by rw [hx, hy, hxy.2 hsame],
      fun h => hdiffer (hzy.1 ?_)⟩
    rw [hz, hy'] at h
    exact Except.ok.inj h
  · obtain ⟨v, g, hrun, hv⟩ := htext _ _ p five {} hp hfive rfl rfl
    exact ⟨v, g, hrun, hv.2 hsame⟩
  · obtain ⟨v, g, hrun⟩ :=
      hquery q five {} rfl rfl (hground q (by simp)).2 (hground five (by simp)).2
    exact ⟨v, g, hrun, Bool.eq_false_iff.2 fun h =>
      hdiffer ((hanswer q five {} v g hrun).1 h)⟩

end Datapath

import Datapath.Proofs.Engine
import Datapath.Proofs.Success

/-!
# Datapath.Proofs.Numbers

Equivalence queries about ground terms do not fail.

The values here are the numbers that terms are known to be: `numbers` gives every
term of an operation the value `none`, so in a graph that is sound for it a class
with a binary node has no constant, and classes with different constants have
different values. All unions that the catalog and repairs make are between classes of
equal value: an equation of the catalog has operations on both sides, congruent nodes
have one value, and a computed width has that of its literal. The constants are
`Numeric` throughout, as literals that were read are widths and widths of widths are
computed without NaN and minus zero.

The main result is `prove_succeeds`.
-/

namespace Datapath

open Binary64 (IsWidth)

/-! ## The number that a term is known to be -/

/-- The number that a term is known to be, if it is known to be one. -/
def numbers : Interpretation (Option Binary64) where
  literal v := some v
  sign s := some (.ofNat s.code)
  symbol _ := none
  derived fn x y :=
    match x, y with
    | some a, some b => some (fn.eval a b).withoutMinusZero
    | _, _ => none
  binary _ _ _ _ _ _ _ _ := none

theorem numbers_hasConstant {d : Option Binary64} {v : Binary64}
    (h : numbers.HasConstant d v) : d = some v.withoutMinusZero := by
  rcases h with rfl | ⟨s, rfl, hv⟩
  · rfl
  · rw [hv]
    rfl

theorem numbers_foldsOn : numbers.FoldsOn fun _ => True := by
  intro fn x y a b hx hy _ _ _
  rw [numbers_hasConstant hx, numbers_hasConstant hy]
  refine congrArg some (WidthFn.eval_congr ?_ ?_ fn)
  · exact Binary64.withoutMinusZero_idem a
  · exact Binary64.withoutMinusZero_idem b

theorem zeroBlind_true : EGraph.ZeroBlind fun _ => True := fun _ _ => trivial

/-- Whether a node is that of an operation. -/
def Node.IsBinary {α : Type} : Node α → Prop
  | .binary .. => True
  | _ => False

theorem Node.isBinary_map {α β : Type} (f : α → β) (n : Node α) :
    (n.map f).IsBinary ↔ n.IsBinary := by
  cases n <;> exact Iff.rfl

theorem Node.eq_literal_of_map {α β : Type} {f : α → β} {n : Node α} {v : Binary64}
    (h : n.map f = .literal v) : n = .literal v := by
  cases n <;> cases h
  rfl

namespace EGraph

variable {g g' : EGraph} {ν : ClassId → Option Binary64} {id x y w l : ClassId}
  {node : Node ClassId} {s : Subst} {p : Pattern} {ref : Int} {app : Application}
  {eqn : Equation} {equations : List Equation} {o : Options}

/-! ## Sets of constants -/

/-- The codes of signs are in a set of numbers, and so are the widths of its
members. -/
structure WidthClosed (ok : Binary64 → Prop) : Prop where
  ofNat : ∀ n, ok (.ofNat n)
  eval : ∀ {a b}, ok a → ok b → ∀ fn : WidthFn, ok (fn.eval a b)

theorem widthClosed_isWidth : WidthClosed IsWidth where
  ofNat := Binary64.isWidth_ofNat
  eval := IsWidth.eval

/-- A node that is given a class keeps the constants in such a set: its own constant
is its literal, the code of its sign or a width of constants. -/
theorem Within.issue {ok : Binary64 → Prop} (hok : WidthClosed ok) (hw : g.WellFormed)
    (h : Within ok g) (hc : ∀ c ∈ node.children, c < g.issued)
    (hlit : ∀ v, node = .literal v → ok v) : Within ok (g.issue node) := by
  intro x hx c hconst
  rcases hw.constant?_issue_cases hx hconst with ⟨hlt, hold⟩ | ⟨rfl, hnode⟩
  · exact h x hlt c hold
  · cases node with
    | literal v => exact Option.some.inj hnode ▸ hlit v rfl
    | sign t => exact Option.some.inj hnode ▸ hok.ofNat _
    | symbol | binary => cases hnode
    | derived fn l r =>
        have hfold : g.foldDerived? (.derived fn l r) = some c := hnode
        obtain ⟨fn, l, r, a, b, heq, ha, hb, rfl⟩ := foldDerived?_inv hfold
        cases heq
        exact hok.eval (h l (hc l (by simp [Node.children])) a ha)
          (h r (hc r (by simp [Node.children])) b hb) fn

/-- What a graph knows after a union it has known before of a member of the same
class. -/
theorem constant?_of_unite (hw : g.WellFormed) {z : ClassId} (hx : x < g.issued)
    (hy : y < g.issued) (hu : EGraph.unite x y g = .ok z g') {i : ClassId}
    (hi : i < g'.issued) {c : Binary64} (hc : g'.constant? i = some c) :
    ∃ j < g.issued, g.constant? j = some c ∧ g'.root j = g'.root i := by
  rcases unite_cases hw hx hy hu with ⟨-, rfl, -⟩ | ⟨w, l, hj, rfl, -⟩
  · exact ⟨i, hi, hc, rfl⟩
  · rw [issued_absorb] at hi
    by_cases hroot : (g.absorb w l).root i = w
    · -- the class united has the constant of the winner, or else that of the loser
      have hwinner : (g.absorb w l).constant? w = some c := by
        rw [constant?, hj.root_winner hw]
        rwa [constant?, hroot] at hc
      rw [hj.constant?_winner hw] at hwinner
      rcases Option.or_eq_some_iff.1 hwinner with hcw | ⟨-, hcl⟩
      · exact ⟨w, hj.winner_lt, by rw [constant?, hj.winner_root]; exact hcw,
          by rw [hj.root_winner hw, hroot]⟩
      · refine ⟨l, hj.loser_lt, by rw [constant?, hj.loser_root]; exact hcl, ?_⟩
        rw [hj.root hw, hj.loser_root, if_pos rfl, hroot]
    · rw [hj.root hw] at hroot
      split at hroot
      · exact absurd rfl hroot
      · next hl => exact ⟨i, hi, by rwa [hj.constant?_of_ne hw hroot hl] at hc, rfl⟩

theorem Within.unite {ok : Binary64 → Prop} (hw : g.WellFormed) (h : Within ok g)
    {z : ClassId} (hx : x < g.issued) (hy : y < g.issued)
    (hu : EGraph.unite x y g = .ok z g') : Within ok g' := by
  intro i hi c hc
  obtain ⟨j, hj, hcj, -⟩ := constant?_of_unite hw hx hy hu hi hc
  exact h j hj c hcj

/-- No step of a repair leaves the set. A literal it adds is a width of constants,
and its unions bring nothing in. -/
theorem Step.within {ok : Binary64 → Prop} (hok : WidthClosed ok) (hw : g.WellFormed)
    (h : Within ok g) (s : Step g g') : Within ok g' := by
  cases s with
  | @literal fn l r a b e stored left right fresh =>
      have hchild := hw.child_lt stored
      refine h.issue hok hw (by simp [Node.children]) fun v hv => ?_
      cases hv
      exact hok.eval (h l (hchild l (by simp [Node.children])) a left)
        (h r (hchild r (by simp [Node.children])) b right) fn
  | fold stored _ _ value hx hy union =>
      exact h.unite hw (lt_of_root_eq hw (hw.owner_lt value) hx)
        (lt_of_root_eq hw (hw.owner_lt stored) hy) union
  | @move e stored free =>
      have hframe := restore_sameFrame g e (g.canonical e.node) (g.root e.owner)
      intro i hi c hc
      rw [hframe.issued] at hi
      rw [hframe.constant?] at hc
      exact h i hi c hc
  | @fuse _ e _ _ stored congruent union =>
      have hdrop : Within ok (g.dropKey e.key (g.root e.owner)) := fun i hi c hc =>
        h i hi c (((dropKey_sameFrame g e.key _).constant? i).symm.trans hc)
      exact hdrop.unite (hw.dropKey stored) (hw.root_lt (hw.owner_lt stored))
        (hw.owner_lt (congruent?_inv congruent).2) union
  | note same _ =>
      intro i hi c hc
      rw [same.issued] at hi
      rw [same.constant?] at hc
      exact h i hi c hc

theorem Steps.within {ok : Binary64 → Prop} (hok : WidthClosed ok)
    (hw : g.WellFormed) (h : Within ok g) (s : Steps g g') : Within ok g' := by
  induction s with
  | refl => exact h
  | tail s₁ s₂ ih => exact s₂.within hok (Steps.wellFormed hw s₁) ih

/-! ## Graphs that are sound for numbers -/

/-- Every known constant is a width, and the number of its class. -/
structure Numeric (g : EGraph) : Prop where
  wellFormed : g.WellFormed
  widths : Within IsWidth g
  sound : ∃ ν, Sound numbers.semantics ν g

theorem numeric_empty : empty.Numeric where
  wellFormed := wellFormed_empty
  widths i hi := absurd hi (Nat.not_lt_zero i)
  sound := ⟨fun _ => none, sound_empty _ _⟩

theorem constant_eq (h : Sound numbers.semantics ν g) (hx : x < g.issued)
    {c : Binary64} (hc : g.constant? x = some c) : ν x = some c.withoutMinusZero :=
  numbers_hasConstant (Interpretation.shows_iff.1 (h.constant hx hc))

/-- Classes of equal value do not have different constants. -/
theorem agree_of_eq (hwidths : Within IsWidth g) (h : Sound numbers.semantics ν g)
    (hx : x < g.issued) (hy : y < g.issued) (heq : ν x = ν y) : g.Agree x y := by
  intro a b ha hb
  have hab : some a.withoutMinusZero = some b.withoutMinusZero := by
    rw [← constant_eq h hx ha, ← constant_eq h hy hb, heq]
  exact (Binary64.numEq_iff (hwidths y hy b hb).level).2 (Option.some.inj hab)

/-- The class of a number holds the node of an operation. -/
def HoldsBinary (g : EGraph) (id : ClassId) : Prop :=
  ∃ m, m.IsBinary ∧ g.Represents m id

theorem HoldsBinary.of_extends (h : g.HoldsBinary id) (hext : Extends g g') :
    g'.HoldsBinary id := by
  obtain ⟨m, hm, hrep⟩ := h
  exact ⟨m, hm, hext.represents hrep⟩

/-- The value of such a class is no number. -/
theorem HoldsBinary.eq_none (h : g.HoldsBinary id)
    (hs : Sound numbers.semantics ν g) : ν id = none := by
  obtain ⟨m, hm, hrep⟩ := h
  have hden : numbers.node (m.key.map ν) = ν id := hs.denotes_of_represents hrep
  cases m with
  | binary => exact hden.symm
  | literal | sign | symbol | derived => exact hm.elim

/-- A class with the node of an operation has no constant. -/
theorem HoldsBinary.constant?_eq_none (h : g.HoldsBinary id)
    (hs : Sound numbers.semantics ν g) (hid : id < g.issued) :
    g.constant? id = none := by
  cases hc : g.constant? id with
  | none => rfl
  | some c =>
      have hnone := h.eq_none hs
      rw [constant_eq hs hid hc] at hnone
      cases hnone

/-- Repairs find no conflict. The literal of a folded width has the value of the
width, and congruent nodes have one value, so that their classes agree. -/
theorem Numeric.peaceful (h : g.Numeric) : g.Peaceful := by
  obtain ⟨ν, hs⟩ := h.sound
  have hw := h.wellFormed
  constructor
  case fold =>
    intro fn l r a b e lit stored left right value
    have hchild := hw.child_lt stored
    refine agree_of_eq h.widths hs (hw.owner_lt value) (hw.owner_lt stored) ?_
    refine (numbers_foldsOn.folds (hs.stored stored) ?_ ?_ trivial trivial trivial
      (hs.stored value)).symm
    · exact hs.constant (hchild l (by simp [Node.children])) left
    · exact hs.constant (hchild r (by simp [Node.children])) right
  case fuse =>
    intro e e' stored congruent
    obtain ⟨-, he'⟩ := congruent?_inv congruent
    -- the node met in the table has this canonical form, and classes keep the value
    -- of it
    have hden := hs.stored he'
    rw [hs.map_canonical] at hden
    exact agree_of_eq h.widths hs (hw.owner_lt stored) (hw.owner_lt he')
      (numbers.semantics.unique (hs.stored stored) hden)

/-- Repairs keep the constants widths and the classes sound. -/
theorem Numeric.steps (h : g.Numeric) (hsteps : Steps g g') : g'.Numeric where
  wellFormed := Steps.wellFormed h.wellFormed hsteps
  widths := Steps.within widthClosed_isWidth h.wellFormed h.widths hsteps
  sound := by
    obtain ⟨ν, hs⟩ := h.sound
    obtain ⟨ν', hf⟩ := hs.steps numbers_foldsOn zeroBlind_true h.wellFormed hsteps
      fun _ _ _ _ => trivial
    exact ⟨ν', hf.sound⟩

/-- Classes with nodes of operations can be united. -/
theorem Numeric.unite (h : g.Numeric) {z : ClassId} (hx : x < g.issued)
    (hy : y < g.issued) (hbx : g.HoldsBinary x) (hby : g.HoldsBinary y)
    (hu : EGraph.unite x y g = .ok z g') : g'.Numeric where
  wellFormed := h.wellFormed.unite hx hy hu
  widths := h.widths.unite h.wellFormed hx hy hu
  sound := by
    obtain ⟨ν, hs⟩ := h.sound
    exact ⟨ν, hs.unite h.wellFormed hx hy
      ((hbx.eq_none hs).trans (hby.eq_none hs).symm) hu⟩

/-- A node that is a width if it is a literal can be given a class. -/
theorem Numeric.issue (h : g.Numeric) (hnew : g.table.get? node.key = none)
    (hc : ∀ c ∈ node.children, c < g.issued)
    (hlit : ∀ v, node = .literal v → IsWidth v) :
    (g.issue node).Numeric where
  wellFormed := h.wellFormed.issue hnew hc
  widths := h.widths.issue widthClosed_isWidth h.wellFormed hc hlit
  sound := by
    obtain ⟨ν, hs⟩ := h.sound
    obtain ⟨ν', hf, -⟩ :=
      hs.issued numbers_foldsOn h.wellFormed hc fun _ _ _ _ => trivial
    exact ⟨ν', hf.sound⟩

/-! ## Adding nodes and patterns -/

theorem canonical_eq_literal {m : Node Int} {v : Binary64}
    (h : g.canonical (m.map Int.toNat) = .literal v) : m = .literal v :=
  Node.eq_literal_of_map (Node.eq_literal_of_map h)

/-- Adding a node keeps this if the node is no literal other than a width. -/
theorem Numeric.add (h : g.Numeric) {m : Node Int}
    (hlit : ∀ v, m = .literal v → IsWidth v)
    (ha : EGraph.add m g = .ok id g') : g'.Numeric := by
  obtain ⟨hc, hi⟩ := add_inv ha
  have hcanon := canonical_children h.wellFormed (children_toNat_lt hc)
  have hlt := fun c hmem => (hcanon c hmem).1
  rcases intern_steps h.wellFormed hlt hi with ⟨-, -, -, rfl⟩ | ⟨hnew, steps, -⟩
  · exact h
  · exact (h.issue hnew hlt fun v hv => hlit v (canonical_eq_literal hv)).steps steps

/-- It does not fail either, as no width is NaN. -/
theorem Numeric.succeeds_add (h : g.Numeric) {m : Node Int}
    (hc : ∀ c ∈ m.children, g.Issued c)
    (hlit : ∀ v, m = .literal v → IsWidth v) : Succeeds (EGraph.add m) g := by
  refine EGraph.succeeds_add h.wellFormed hc fun hnew t ht => ?_
  have hcanon := canonical_children h.wellFormed (children_toNat_lt hc)
  exact ((h.issue hnew (fun c hmem => (hcanon c hmem).1)
    fun v hv => hlit v (canonical_eq_literal hv)).steps ht).peaceful

/-- A node above the instances of the slots of a layer is a literal only if the layer
is. -/
theorem eq_literal_of_rel {κ : Type} {R : Pattern → κ → Prop} {n : Node Pattern}
    {m : Node κ} {v : Binary64} (h : n.Rel R m) (hm : m = .literal v) :
    Pattern.ofNode n = .literal v := by
  subst hm
  obtain ⟨hhead, -⟩ := h
  cases n <;> cases hhead
  rfl

theorem Numeric.instantiate (h : g.Numeric) (hs : g.BoundIn s)
    (hlit : ∀ v, .literal v ∈ p.parts → IsWidth v)
    (hi : EGraph.instantiate s p g = .ok ref g') : g'.Numeric := by
  refine (instantiate_induction (P := Numeric) ?_ h.wellFormed hs h hi).1
  intro n hn t m t' id _ ht hrel ha
  exact ht.add (fun v hv => hlit v (eq_literal_of_rel hrel hv ▸ hn)) ha

theorem Numeric.succeeds_instantiate (h : g.Numeric) (hs : g.BoundIn s)
    (hvars : ∀ name ∈ p.occurrences, ∃ ref, s.get? name = some ref)
    (hlit : ∀ v, .literal v ∈ p.parts → IsWidth v) :
    Succeeds (EGraph.instantiate s p) g := by
  refine EGraph.succeeds_instantiate (P := Numeric) ?_ h.wellFormed hs hvars h
  intro n hn t m _ ht hrel
  have hlit' (v : Binary64) (hv : m = .literal v) : IsWidth v :=
    hlit v (eq_literal_of_rel hrel hv ▸ hn)
  refine ⟨ht.succeeds_add (fun c hc => ?_) hlit', fun id t' ha => ht.add hlit' ha⟩
  obtain ⟨q, -, hr⟩ := hrel.exists_left hc
  exact hr.1

end EGraph

/-! ## Terms and equations -/

/-- Both sides of an equation are operations with widths as literals, and the left
one binds the variables. -/
structure Equation.Arithmetic (eqn : Equation) : Prop where
  lhs : ∃ n : Node Pattern, n.IsBinary ∧ eqn.lhs = .ofNode n
  rhs : ∃ n : Node Pattern, n.IsBinary ∧ eqn.rhs = .ofNode n
  lhs_literal : ∀ v, .literal v ∈ eqn.lhs.parts → IsWidth v
  rhs_literal : ∀ v, .literal v ∈ eqn.rhs.parts → IsWidth v
  bound : ∀ name ∈ eqn.rhs.occurrences, name ∈ eqn.lhs.occurrences

/-- The rules of the catalog are equations between operations, and the only literal
in them is 2. -/
theorem arithmetic_of_mem_catalog {rule : Rule} (h : rule ∈ catalog) :
    rule.toEquation.Arithmetic where
  lhs := by
    simp only [catalog, List.mem_cons, List.not_mem_nil, or_false] at h
    rcases h with rfl | rfl | rfl | rfl | rfl | rfl <;>
      exact ⟨.binary _ _ _ _ _ _ _ _, trivial, rfl⟩
  rhs := by
    simp only [catalog, List.mem_cons, List.not_mem_nil, or_false] at h
    rcases h with rfl | rfl | rfl | rfl | rfl | rfl <;>
      exact ⟨.binary _ _ _ _ _ _ _ _, trivial, rfl⟩
  lhs_literal v hv := by
    have hv : v = 2 := by
      simp only [catalog, List.mem_cons, List.not_mem_nil, or_false] at h
      rcases h with rfl | rfl | rfl | rfl | rfl | rfl <;>
        simp [Rule.toEquation, Catalog.commuteAdd, Catalog.commuteMul,
          Catalog.mergeLeftShift, Catalog.unmergeLeftShift, Catalog.multToAdd,
          Catalog.leftShiftMult, Pattern.parts] at hv
      exact hv
    rw [hv]
    exact Binary64.isWidth_ofNat 2
  rhs_literal v hv := by
    simp only [catalog, List.mem_cons, List.not_mem_nil, or_false] at h
    rcases h with rfl | rfl | rfl | rfl | rfl | rfl <;>
      simp [Rule.toEquation, Catalog.commuteAdd, Catalog.commuteMul,
        Catalog.mergeLeftShift, Catalog.unmergeLeftShift, Catalog.multToAdd,
        Catalog.leftShiftMult, Pattern.parts] at hv
  bound name hname := by
    rw [← Pattern.mem_vars] at hname ⊢
    exact rule.rhs_bound name hname

theorem Equation.Arithmetic.matchable {eqn : Equation} (h : eqn.Arithmetic) :
    eqn.Matchable :=
  fun v hv => (h.lhs_literal v hv).level

/-- A ground term whose literals are widths. -/
structure Pattern.Loadable (p : Pattern) : Prop where
  closed : p.vars = []
  literal : ∀ v, .literal v ∈ p.parts → IsWidth v

theorem Pattern.loadable_of_parse {text : String} {p : Pattern}
    (hp : parse text = .ok p) (hvars : p.vars = []) : p.Loadable where
  closed := hvars
  literal v hv := by
    obtain ⟨n, hn⟩ := (atomic_of_parse hp).literal hv
    rw [hn]
    exact Binary64.isWidth_ofNat n

/-- A loop with a result succeeds if its body keeps an invariant under which it
succeeds. -/
theorem succeeds_foldlM {ε σ α β : Type} {f : β → α → EStateM ε σ β} {I : σ → Prop}
    {l : List α} (hbody : ∀ a ∈ l, ∀ b s, I s → Succeeds (f b a) s)
    (hkeep : ∀ a ∈ l, ∀ b s c t, I s → f b a s = .ok c t → I t) {s : σ} (h0 : I s)
    (b : β) : Succeeds (l.foldlM f b) s := by
  induction l generalizing b s with
  | nil =>
      rw [List.foldlM_nil]
      exact succeeds_pure b s
  | cons a rest ih =>
      rw [List.foldlM_cons]
      refine (hbody a List.mem_cons_self b s h0).bind fun c t hc => ?_
      exact ih (fun a' ha' => hbody a' (List.mem_cons_of_mem _ ha'))
        (fun a' ha' => hkeep a' (List.mem_cons_of_mem _ ha'))
        (hkeep a List.mem_cons_self b s c t h0 hc) c

namespace EGraph

variable {g g' : EGraph} {ν : ClassId → Option Binary64} {id : ClassId} {s : Subst}
  {ref : Int} {app : Application} {equations : List Equation} {o : Options} {n : ℕ}

theorem Realizes.holdsBinary {k : Node Pattern} (hk : k.IsBinary)
    (h : g.Realizes s (.ofNode k) id) : g.HoldsBinary id := by
  obtain ⟨m, hrel, hrep⟩ := Pattern.occurs_ofNode.1 h
  refine ⟨m, ?_, hrep⟩
  rw [← Node.isBinary_map fun _ => ()] at hk ⊢
  exact hrel.1 ▸ hk

/-- What an application of an equation between operations needs in order to
succeed. -/
structure Ready (g : EGraph) (app : Application) : Prop where
  arithmetic : app.equation.Arithmetic
  issued : app.id < g.issued
  boundIn : g.BoundIn app.subst
  bound : ∀ name ∈ app.equation.lhs.occurrences,
    ∃ ref, app.subst.get? name = some ref
  binary : g.HoldsBinary app.id

theorem Ready.of_extends (h : g.Ready app) (hext : Extends g g') : g'.Ready app where
  arithmetic := h.arithmetic
  issued := Nat.lt_of_lt_of_le h.issued hext.issued_le
  boundIn := h.boundIn.of_extends hext
  bound := h.bound
  binary := h.binary.of_extends hext

/-- Matches are found in classes that hold an operation. -/
theorem ready_of_mem_applications (hw : g.WellFormed)
    (hE : ∀ eqn ∈ equations, eqn.Arithmetic) {apps : List Application}
    (happs : g.applications equations = .ok apps) (hmem : app ∈ apps) :
    g.Ready app := by
  obtain ⟨heqn, ho⟩ := offered_of_mem_applications hw happs hmem
  refine ⟨hE _ heqn, ho.lt, ho.boundIn, fun name hname => ?_, ?_⟩
  · obtain ⟨_, ref, hget, -⟩ := ho.realizes.part (Pattern.mem_occurrences.1 hname)
    exact ⟨ref, hget⟩
  · obtain ⟨k, hk, hlhs⟩ := (hE _ heqn).lhs
    have hreal := ho.realizes
    rw [hlhs] at hreal
    exact hreal.holdsBinary hk

/-- Adding the right side of an equation between operations leads to a class with an
operation. -/
theorem Ready.instantiate (hr : g.Ready app) (h : g.Numeric)
    (hi : EGraph.instantiate app.subst app.equation.rhs g = .ok ref g') :
    g'.Numeric ∧ Extends g g' ∧ g'.Issued ref ∧ g'.HoldsBinary ref.toNat := by
  have hext := Calls.extends h.wellFormed (instantiate_calls h.wellFormed hi)
  obtain ⟨hissued, hreal⟩ := refers_of_instantiate h.wellFormed hr.boundIn hi
  obtain ⟨k, hk, hrhs⟩ := hr.arithmetic.rhs
  rw [hrhs] at hreal
  exact ⟨h.instantiate hr.boundIn hr.arithmetic.rhs_literal hi, hext, hissued,
    hreal.holdsBinary hk⟩

theorem HoldsBinary.root (h : g.WellFormed) (hb : g.HoldsBinary id) :
    g.HoldsBinary (g.root id) := by
  obtain ⟨m, hm, hrep⟩ := hb
  exact ⟨m, hm, hrep.congr rfl (h.root_root id).symm⟩

/-- An application unites two classes that hold operations. -/
theorem Numeric.applyAt (h : g.Numeric) (hr : g.Ready app) {b : Bool}
    (ha : EGraph.applyAt app g = .ok b g') : g'.Numeric := by
  obtain ⟨ref, g₁, hi, hid, ⟨-, hlt⟩, hrest⟩ := applyAt_inv ha
  obtain ⟨h₁, hext, -, hbin⟩ := hr.instantiate h hi
  rcases hrest with ⟨-, rfl⟩ | ⟨r, hu⟩
  · exact h₁
  · have hw := h₁.wellFormed
    exact h₁.unite (hw.root_lt hid) (hw.root_lt hlt)
      ((hr.binary.of_extends hext).root hw) (hbin.root hw) hu

/-- It succeeds, since neither of the two classes has a constant. -/
theorem Numeric.succeeds_applyAt (h : g.Numeric) (hr : g.Ready app) :
    Succeeds (EGraph.applyAt app) g := by
  unfold EGraph.applyAt
  refine (h.succeeds_instantiate hr.boundIn
    (fun name hname => hr.bound name (hr.arithmetic.bound name hname))
    hr.arithmetic.rhs_literal).bind fun right g₁ hi => ?_
  obtain ⟨h₁, hext, hissued, hbin⟩ := hr.instantiate h hi
  have hid : g₁.Issued app.id :=
    ⟨Int.natCast_nonneg _, Nat.lt_of_lt_of_le hr.issued hext.issued_le⟩
  refine (succeeds_find hid).bind fun l t hl => ?_
  obtain ⟨hfl, rfl⟩ := ask_inv hl
  refine (succeeds_find hissued).bind fun r t' hr' => ?_
  obtain ⟨hfr, rfl⟩ := ask_inv hr'
  split
  · exact succeeds_pure _ _
  · refine Succeeds.bind (succeeds_unite ?_) fun _ _ _ => succeeds_pure _ _
    -- neither class has a constant
    intro a b ha _
    obtain ⟨-, hlt, rfl⟩ := find_inv hfl
    obtain ⟨ν, hs⟩ := h₁.sound
    rw [h₁.wellFormed.constant?_root, Int.toNat_natCast,
      (hr.binary.of_extends hext).constant?_eq_none hs hlt] at ha
    cases ha

/-- Rounds of equations between operations keep the constants and what is known of
them. -/
theorem numeric_kept (hE : ∀ eqn ∈ equations, eqn.Arithmetic) :
    Kept Numeric equations where
  steps _ h hsteps := h.steps hsteps
  apply hg _ happs hmem _ hext ht hrun :=
    ht.applyAt
      ((ready_of_mem_applications hg.wellFormed hE happs hmem).of_extends hext) hrun

theorem Numeric.succeeds_rebuild (h : g.Numeric) : Succeeds EGraph.rebuild g :=
  EGraph.succeeds_rebuild h.wellFormed fun _ ht => (h.steps ht).peaceful

/-- All applications that were collected succeed one after the other, and then the
graph is rebuilt. The invariant of the loop is that the graph extends the one in
which they were collected, where every one of them was ready. -/
theorem Numeric.succeeds_applyAll (h : g.Numeric) {apps : List Application}
    (hr : ∀ app ∈ apps, g.Ready app) : Succeeds (EGraph.applyAll apps) g := by
  have hkeep : ∀ app ∈ apps, ∀ t b t', Extends g t ∧ t.Numeric →
      EGraph.applyAt app t = .ok b t' → Extends g t' ∧ t'.Numeric :=
    fun app happ t b t' ht hrun =>
      ⟨ht.1.trans
        (Calls.extends ht.2.wellFormed (applyAt_calls ht.2.wellFormed hrun)),
      ht.2.applyAt ((hr app happ).of_extends ht.1) hrun⟩
  unfold EGraph.applyAll
  refine Succeeds.bind ?_ fun unions g₁ heach => ?_
  · refine succeeds_foldlM (I := fun t => Extends g t ∧ t.Numeric) ?_ ?_
      ⟨.refl g, h⟩ 0
    · intro app happ m t ht
      refine (ht.2.succeeds_applyAt ((hr app happ).of_extends ht.1)).bind
        fun b t' _ => ?_
      exact succeeds_pure _ t'
    · intro app happ m t k t' ht hrun
      obtain ⟨b, t₁, hb, hpure⟩ := bind_inv hrun
      obtain ⟨-, rfl⟩ := pure_inv hpure
      exact hkeep app happ t b t₁ ht hb
  · -- the rebuild starts from what the loop has led to
    have hmade := applyEach_induction (P := fun t => Extends g t ∧ t.Numeric)
      (fun app happ t t' b => hkeep app happ t b t') ⟨.refl g, h⟩ heach
    exact hmade.2.succeeds_rebuild.bind fun _ t _ => succeeds_pure _ t

/-- A saturation has a result, since every round has. -/
theorem Numeric.succeeds_saturate (hE : ∀ eqn ∈ equations, eqn.Arithmetic)
    (c : Calls empty g) (h : g.Numeric) :
    Succeeds (EGraph.saturate equations o) g := by
  refine EGraph.succeeds_saturate (I := fun t => t.Rebuilt ∧ t.Numeric)
    h.succeeds_rebuild
    (fun t ht => ⟨⟨g, c, ht⟩, h.steps (rebuild_steps h.wellFormed ht)⟩)
      (fun t ht => ?_)
    fun t apps n t' ht happs hall =>
      ⟨ht.1.applyAll hall, (numeric_kept hE).applyAll ht.1 ht.2 happs hall⟩
  obtain ⟨apps, happs⟩ := exists_applications ht.2.wellFormed equations
  exact ⟨apps, happs, ht.2.succeeds_applyAll fun app hmem =>
    ready_of_mem_applications ht.2.wellFormed hE happs hmem⟩

/-! ## Queries -/

/-- One change in the course of a run: a node gets a class, two classes are united,
or a repair makes a step. -/
inductive Change : EGraph → EGraph → Prop
  | issue {g : EGraph} {node : Node ClassId}
      (children : ∀ c ∈ node.children, c < g.issued)
      (fresh : g.table.get? node.key = none) : Change g (g.issue node)
  | unite {g g' : EGraph} {x y z : ClassId} (left : x < g.issued)
      (right : y < g.issued) (union : EGraph.unite x y g = .ok z g') : Change g g'
  | step {g g' : EGraph} (step : Step g g') : Change g g'

/-- Any number of changes. -/
abbrev Changes : EGraph → EGraph → Prop := Relation.ReflTransGen Change

theorem Change.wellFormed (h : g.WellFormed) (c : Change g g') : g'.WellFormed := by
  cases c with
  | issue children fresh => exact h.issue fresh children
  | unite left right union => exact h.unite left right union
  | step step => exact step.wellFormed h

theorem Change.extends (h : g.WellFormed) (c : Change g g') : Extends g g' := by
  cases c with
  | issue _ fresh => exact h.extends_issue fresh
  | unite left right union => exact h.extends_unite left right union
  | step step => exact step.extends h

theorem Changes.wellFormed (h : g.WellFormed) (c : Changes g g') :
    g'.WellFormed := by
  induction c with
  | refl => exact h
  | tail _ c ih => exact c.wellFormed ih

theorem Changes.extends (h : g.WellFormed) (c : Changes g g') : Extends g g' := by
  induction c with
  | refl => exact .refl g
  | tail c₁ c₂ ih => exact ih.trans (c₂.extends (Changes.wellFormed h c₁))

theorem Steps.changes (s : Steps g g') : Changes g g' := by
  induction s with
  | refl => exact .refl
  | tail _ step ih => exact ih.tail (.step step)

theorem Call.changes (h : g.WellFormed) (c : Call g g') : Changes g g' := by
  cases c with
  | intern children run =>
      have hc := fun c hc => (children c hc).1
      rcases intern_steps h hc run with ⟨-, -, -, rfl⟩ | ⟨hnew, steps, -⟩
      · exact .refl
      · exact .head (.issue hc hnew) steps.changes
  | unite left right run => exact .single (.unite left right run)
  | rebuild run => exact (rebuild_steps h run).changes

theorem Calls.changes (h : g.WellFormed) (c : Calls g g') : Changes g g' := by
  induction c with
  | refl => exact .refl
  | tail c₁ c₂ ih => exact ih.trans (c₂.changes (Calls.wellFormed h c₁))

/-- No class with the node of an operation has a constant. -/
def OperationsUnknown (g : EGraph) : Prop :=
  ∀ id ∈ g.classIds, ∀ key ∈ (g.record id).nodes.toList, key.IsBinary →
    (g.record id).constant = none

/-- In a graph that is sound for numbers, the class of an operation has no constant,
since it has no number as its value. -/
theorem Sound.operationsUnknown (hw : g.WellFormed)
    (h : Sound numbers.semantics ν g) : g.OperationsUnknown := by
  intro id hid key hkey hb
  obtain ⟨hlt, hroot⟩ := (mem_classIds hw).1 hid
  obtain ⟨e, he, ho⟩ := hw.stored hroot hkey
  have hrep : g.Represents key id :=
    (represents_of_get? he).congr rfl (by rw [ho, hroot])
  have hnone := HoldsBinary.constant?_eq_none ⟨key, hb, hrep⟩ h hlt
  rwa [constant?, hroot] at hnone

theorem Numeric.addGround (h : g.Numeric) {p : Pattern} (hp : p.Loadable)
    (ha : EGraph.addGround p g = .ok ref g') : g'.Numeric ∧ g'.Issued ref := by
  have hi := (addGround_inv ha).2
  exact ⟨h.instantiate (boundIn_nil g) hp.literal hi,
    (refers_of_instantiate h.wellFormed (boundIn_nil g) hi).1⟩

theorem Numeric.succeeds_addGround (h : g.Numeric) {p : Pattern} (hp : p.Loadable) :
    Succeeds (EGraph.addGround p) g := by
  unfold EGraph.addGround
  rw [if_pos (List.isEmpty_iff.2 hp.closed)]
  refine h.succeeds_instantiate (boundIn_nil g) (fun name hname => ?_) hp.literal
  rw [← Pattern.mem_vars, hp.closed] at hname
  exact absurd hname List.not_mem_nil

theorem Numeric.succeeds_settle (hE : ∀ eqn ∈ equations, eqn.Arithmetic)
    (c : Calls empty g) (h : g.Numeric) {l r : Int} (hl : g.Issued l)
    (hr : g.Issued r) : Succeeds (settle equations o l r) g :=
  EGraph.succeeds_settle h.wellFormed (h.succeeds_saturate hE c) hl hr

theorem succeeds_loading {α : Type} {x : GraphM α} (h : Succeeds x g) :
    Succeeds (loading x) g := by
  obtain ⟨a, t, ha⟩ := h
  exact ⟨a, t, by rw [loading, ha]⟩

theorem Numeric.succeeds_load (h : g.Numeric) {text : String} {p : Pattern}
    (hp : Pattern.parse text = .ok p) (hvars : p.vars = []) :
    Succeeds (load text) g := by
  unfold load
  rw [hp]
  exact succeeds_loading (h.succeeds_addGround (Pattern.loadable_of_parse hp hvars))

/-- Loading a text keeps the graph numeric and returns the number of a class. -/
theorem Numeric.load (h : g.Numeric) {text : String} {p : Pattern}
    (hp : Pattern.parse text = .ok p) (ha : EGraph.load text g = .ok ref g') :
    Calls g g' ∧ g'.Numeric ∧ g'.Issued ref := by
  obtain ⟨q, hq, hadd⟩ := load_inv ha
  obtain rfl : p = q := Except.ok.inj (hp.symm.trans hq)
  exact ⟨addGround_calls h.wellFormed hadd,
    h.addGround (Pattern.loadable_of_parse hp (addGround_inv hadd).1) hadd⟩

end EGraph

/-- A query about ground terms with rules of the catalog has a verdict, whatever the
limits, the size of the literals and the sorts of the operands are. In none of the
graphs that its changes lead through does the class of an operation have a
constant. -/
theorem prove_succeeds {lhs rhs : String} {p q : Pattern}
    (hp : Pattern.parse lhs = .ok p) (hq : Pattern.parse rhs = .ok q)
    (hpvars : p.vars = []) (hqvars : q.vars = []) {rules : List Rule}
    (hrules : ∀ rule ∈ rules, rule ∈ catalog) (o : Options) :
    ∃ v g, prove lhs rhs (rules.map Rule.toEquation) o = .ok (v, g) ∧
      EGraph.Changes .empty g ∧
      ∀ t, EGraph.Changes .empty t → EGraph.Changes t g → t.OperationsUnknown := by
  have hE : ∀ eqn ∈ rules.map Rule.toEquation, eqn.Arithmetic := by
    intro eqn heqn
    obtain ⟨rule, hmem, rfl⟩ := List.mem_map.1 heqn
    exact arithmetic_of_mem_catalog (hrules rule hmem)
  have h₀ := EGraph.numeric_empty
  obtain ⟨l, g₁, hl⟩ := h₀.succeeds_load hp hpvars
  obtain ⟨c₁, h₁, hissuedl⟩ := h₀.load hp hl
  obtain ⟨r, g₂, hr⟩ := h₁.succeeds_load hq hqvars
  obtain ⟨c₂, h₂, hissuedr⟩ := h₁.load hq hr
  -- the rules unite nothing but operations, so the run has a result
  obtain ⟨v, g, hv⟩ := h₂.succeeds_settle (o := o) hE (c₁.trans c₂)
    (hissuedl.of_extends (EGraph.Calls.extends h₁.wellFormed c₂)) hissuedr
  obtain ⟨⟨stats, hsat⟩, -⟩ := EGraph.settle_inv hv
  obtain ⟨hnumeric, -⟩ := (EGraph.numeric_kept hE).saturate (c₁.trans c₂) h₂ hsat
  have hcalls := (c₁.trans c₂).trans (EGraph.saturate_calls h₂.wellFormed hsat)
  refine ⟨v, g, ?_, EGraph.Calls.changes h₀.wellFormed hcalls, fun t ht htg => ?_⟩
  · have hrun : (do
        let l ← EGraph.load lhs
        let r ← EGraph.load rhs
        EGraph.loading (EGraph.settle (rules.map Rule.toEquation) o l r))
          .empty = .ok v g := by
      rw [bind_ok hl, bind_ok hr, EGraph.loading, hv]
    rw [prove, EGraph.fromEmpty, hrun]
  · have hwt := EGraph.Changes.wellFormed h₀.wellFormed ht
    -- the graph at the end is sound, and so are those that it extends
    obtain ⟨ν, hsound⟩ := hnumeric.sound
    exact (hsound.of_extends hwt
      (EGraph.Changes.extends hwt htg)).operationsUnknown hwt

/-- A verdict on terms with a sign as a width, an operation as a width, a literal
that is rounded and a width that is beyond all numbers. -/
theorem prove_succeeds_illSorted : ∃ p q,
    Pattern.parse "(* unsign 16 (+ 3 2 A 1 B C D) A 9 unsign 2)" = .ok p ∧
    Pattern.parse "(<< 9007199254740993 (wlsh 16 2000) A unsign 1 unsign B)" =
      .ok q ∧
    p.vars = [] ∧ q.vars = [] ∧
    ∃ v g, prove "(* unsign 16 (+ 3 2 A 1 B C D) A 9 unsign 2)"
        "(<< 9007199254740993 (wlsh 16 2000) A unsign 1 unsign B)"
        ([Catalog.multToAdd, Catalog.commuteMul,
          Catalog.multToAdd].map Rule.toEquation)
        { roundLimit := 3 } = .ok (v, g) ∧
      EGraph.Changes .empty g ∧
      ∀ t, EGraph.Changes .empty t → EGraph.Changes t g → t.OperationsUnknown := by
  have hparse :
      (Pattern.parse "(* unsign 16 (+ 3 2 A 1 B C D) A 9 unsign 2)").toOption.map
        Pattern.vars = some [] ∧
      (Pattern.parse
        "(<< 9007199254740993 (wlsh 16 2000) A unsign 1 unsign B)").toOption.map
        Pattern.vars = some [] := by
    decide +kernel
  obtain ⟨p, hp, hpvars⟩ := Option.map_eq_some_iff.1 hparse.1
  obtain ⟨q, hq, hqvars⟩ := Option.map_eq_some_iff.1 hparse.2
  refine ⟨p, q, toOption_inv hp, toOption_inv hq, hpvars, hqvars, ?_⟩
  exact prove_succeeds (toOption_inv hp) (toOption_inv hq) hpvars hqvars
    (by simp [catalog]) { roundLimit := 3 }

end Datapath

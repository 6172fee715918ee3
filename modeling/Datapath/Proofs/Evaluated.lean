import Datapath.Proofs.Loading
import Datapath.Proofs.Success

/-!
# Datapath.Proofs.Evaluated

Graphs in which every computed width of known numbers is in the class of its value.

Loading terms leads to such graphs, and so does a repair. Adding to them keeps them
so without any repair: a new computed width goes to the class of its value at once,
and as it is alone in its own class until then, neither the number nor the constant
of any other class changes. There is nothing left for a repair to do
(`Evaluated.steps`).

The values may be restricted to a set `ok` that has all numbers but NaN. Repairs of
graphs whose values are not NaN do not fail (`Evaluated.succeeds_rebuild`).
-/

namespace Datapath

/-- Not NaN. -/
def Binary64.IsNumber (v : Binary64) : Prop := v.level ≠ none

/-- Only numbers compare equal to anything. -/
theorem Binary64.isNumber_of_numEq {a b : Binary64} (h : a.numEq b = true) :
    b.IsNumber := by
  intro hb
  rw [numEq, compares, hb] at h
  cases ha : a.level <;> rw [ha] at h <;> cases h

theorem Node.eq_derived_of_key {α : Type} {node : Node α} {fn : WidthFn} {l r : α}
    (h : node.key = .derived fn l r) : node = .derived fn l r := by
  cases node <;> cases h
  rfl

namespace EGraph

variable {g g' : EGraph} {x y z id : ClassId} {node : Node ClassId} {s : Subst}
  {p : Pattern} {ref : Int} {v c : Binary64} {ok : Binary64 → Prop}

/-! ## New computed widths -/

/-- A class that is alone joins another one, which keeps its number. -/
theorem joinable_of_unite_alone (hw : g.WellFormed) (hx : x < g.issued)
    (hy : y < g.issued) (hroot : g.root y = y) (hrank : g.sets.rank y = 0)
    (hne : g.root x ≠ y) (hu : EGraph.unite x y g = .ok z g') :
    Joinable g z y ∧ g.root x = z ∧ g' = g.absorb z y := by
  have hfirst := unite_returns_first (by rw [hroot, hrank]) hu
  rcases unite_cases hw hx hy hu with
    ⟨heq, -⟩ | ⟨w, l, hj, rfl, rfl, ⟨hxw, hyl⟩ | ⟨hxl, -⟩⟩
  · exact absurd (heq.trans hroot) hne
  · obtain rfl : y = l := hroot.symm.trans hyl
    exact ⟨hj, hxw, rfl⟩
  · exact absurd (hfirst.trans hxl) hj.ne

/-- A class with a constant keeps it when another class joins it. -/
theorem Joinable.constant?_eq {w l : ClassId} (hw : g.WellFormed)
    (hj : Joinable g w l) (hc : (g.record w).constant = some c)
    (hid : g.root id ≠ l) : (g.absorb w l).constant? id = g.constant? id := by
  by_cases hroot : g.root id = w
  · rw [← (hw.absorb hj).constant?_root, hj.root_of_ne hw hid, hroot,
      hj.constant?_winner hw, hc, constant?,
      hroot, hc]
    rfl
  · exact hj.constant?_of_ne hw hroot hid

/-- A new computed width of the class `y` and a class `x` that holds the literal of
its value. -/
structure Awaits (g : EGraph) (v : Binary64) (x y : ClassId) : Prop where
  wellFormed : g.WellFormed
  literal_lt : x < g.issued
  lt : y < g.issued
  root : g.root y = y
  rank : g.sets.rank y = 0
  child : ∀ ⦃key e⦄, g.table.get? key = some e → ∀ c ∈ key.children, g.root c ≠ y
  literal : g.Represents (.literal v) x
  ne : g.root x ≠ y
  known : ∃ c, g.constant? x = some c
  constant : g.constant? y = some v

/-- What `equate` unites in the end, once the literal is there. Whether it was stored
or is issued now, the class of the computed width is still alone when they are
united. -/
theorem exists_awaits_of_equate (hw : g.WellFormed) (hy : y < g.issued)
    (hroot : g.root y = y) (hrank : g.sets.rank y = 0)
    (hchild : ∀ ⦃key e⦄, g.table.get? key = some e →
      ∀ c ∈ key.children, g.root c ≠ y)
    (hlit : ∀ e, g.table.get? (Node.literal v).key = some e → g.root e.owner ≠ y)
    (hv : g.constant? y = some v) (heq : EGraph.equate v y g = .ok id g') :
    ∃ t x, (t = g ∨ g.table.get? (Node.literal v).key = none ∧
      t = g.issue (.literal v)) ∧
      t.Awaits v x y ∧ EGraph.unite x y t = .ok id g' := by
  obtain ⟨x, g₁, henter, hunite⟩ := bind_inv heq
  rcases enter_cases henter with ⟨e, he, rfl, rfl⟩ | ⟨hnone, rfl, rfl⟩
  · -- the literal is stored
    refine ⟨_, _, Or.inl rfl, ?_, hunite⟩
    obtain ⟨c, hc, -⟩ := hw.known he (v := v.withoutMinusZero) rfl
    constructor
    case wellFormed => exact hw
    case literal_lt => exact hw.root_lt (hw.owner_lt he)
    case lt => exact hy
    case root => exact hroot
    case rank => exact hrank
    case child => exact hchild
    case literal =>
      exact (represents_key.1 (represents_of_get? he)).congr rfl
        (hw.root_root _).symm
    case ne =>
      rw [hw.root_root]
      exact hlit e he
    case known => exact ⟨c, by rw [hw.constant?_root, hc]⟩
    case constant => exact hv
  · -- the literal gets a class, and nothing that was known changes
    have hlt : g.issued < (g.issue (.literal v)).issued := issued_lt_issue _ _
    refine ⟨_, _, Or.inr ⟨hnone, rfl⟩, ?_, hunite⟩
    constructor
    case wellFormed => exact hw.issue hnone (by simp [Node.children])
    case literal_lt => exact hlt
    case lt => exact hy.trans hlt
    case root => rw [root_issue hw.ranked, hroot]
    case rank => rw [(issue_enlists g _).sets, UnionFind.rank_push, hrank]
    case child =>
      intro key e he c hmem
      rw [root_issue hw.ranked]
      rcases get?_issue_inv he with ⟨rfl, -⟩ | he
      · exact absurd hmem List.not_mem_nil
      · exact hchild he c hmem
    case literal => exact represents_issue g _
    case ne =>
      rw [root_issue hw.ranked, hw.root_of_le le_rfl]
      exact hy.ne'
    case known => exact ⟨_, hw.constant?_issue_new _⟩
    case constant => rw [hw.constant?_issue _ hy, hv]

/-- A new node of known value is united with the literal of it, which may be new as
well. Until then the class of the node is a new one, without parents. -/
theorem exists_awaits (hw : g.WellFormed) (hnew : g.table.get? node.key = none)
    (hc : ∀ c ∈ node.children, c < g.issued) (hv : g.foldDerived? node = some v)
    (heq : EGraph.equate v g.issued (g.issue node) = .ok id g') :
    ∃ t x, (t = g.issue node ∨
      (g.issue node).table.get? (Node.literal v).key = none ∧
        t = (g.issue node).issue (.literal v)) ∧
      t.Awaits v x g.issued ∧ EGraph.unite x g.issued t = .ok id g' := by
  obtain ⟨fn, l, r, -, -, rfl, -⟩ := foldDerived?_inv hv
  refine exists_awaits_of_equate (hw.issue hnew hc) ?_ ?_
    (rank_issue hw le_rfl) ?_ ?_ ?_ heq
  · exact issued_lt_issue _ _
  · rw [root_issue hw.ranked, hw.root_of_le le_rfl]
  · -- the new class is no child, as the children were there before
    intro key e he c hmem
    rw [root_issue hw.ranked]
    rcases get?_issue_inv he with ⟨rfl, -⟩ | he
    · exact hw.root_ne_issued (hc c hmem)
    · exact hw.root_ne_issued (hw.child_lt he c hmem)
  · intro e he
    rw [root_issue hw.ranked]
    rcases get?_issue_inv he with ⟨hkey, -⟩ | he
    · cases hkey
    · exact hw.root_ne_issued (hw.owner_lt he)
  · rw [hw.constant?_issue_new]
    exact hv

/-- Adding a node changes no constant that was known, or not known, before: the class
that joins another one is new, and the other one knows its constant already. -/
theorem constant?_intern (hw : g.WellFormed) (hc : ∀ c ∈ node.children, c < g.issued)
    (hi : EGraph.intern node g = .ok id g') (hx : x < g.issued) :
    g'.constant? x = g.constant? x := by
  rcases intern_cases hi with ⟨-, -, -, rfl⟩ | ⟨hnew, ⟨-, -, rfl⟩ | ⟨v, hv, hequate⟩⟩
  · rfl
  · exact hw.constant?_issue _ hx
  · obtain ⟨t, y, ht, hawaits, hunite⟩ := exists_awaits hw hnew hc hv hequate
    have hw₁ := hw.issue hnew hc
    have hlt : x < (g.issue node).issued := lt_issue hx _
    obtain ⟨hroot, hconst⟩ : t.root x = g.root x ∧
        t.constant? x = g.constant? x := by
      rcases ht with rfl | ⟨-, rfl⟩
      · exact ⟨root_issue hw.ranked _ x, hw.constant?_issue _ hx⟩
      · exact ⟨(root_issue hw₁.ranked _ x).trans (root_issue hw.ranked _ x),
          (hw₁.constant?_issue _ hlt).trans (hw.constant?_issue _ hx)⟩
    obtain ⟨hj, hyz, rfl⟩ :=
      joinable_of_unite_alone hawaits.wellFormed hawaits.literal_lt hawaits.lt
        hawaits.root hawaits.rank hawaits.ne hunite
    obtain ⟨c, hc⟩ := hawaits.known
    rw [← hconst]
    refine hj.constant?_eq hawaits.wellFormed (c := c) (by rw [← hyz]; exact hc) ?_
    rw [hroot]
    exact hw.root_ne_issued hx

/-! ## Evaluated graphs -/

/-- A number in a set, and the class holds the literal of it. -/
def HoldsValue (ok : Binary64 → Prop) (g : EGraph) (v : Binary64)
    (x : ClassId) : Prop :=
  ok v ∧ g.Represents (.literal v) x

theorem HoldsValue.of_extends (h : g.HoldsValue ok v x) (hext : Extends g g') :
    g'.HoldsValue ok v x :=
  ⟨h.1, hext.represents h.2⟩

/-- Stored computed widths of known numbers are in the class of their value. -/
def AllFolded (ok : Binary64 → Prop) (g : EGraph) : Prop :=
  ∀ ⦃fn l r e a b⦄, g.table.get? (.derived fn l r) = some e →
    g.constant? l = some a →
    g.constant? r = some b → g.HoldsValue ok (fn.eval a b) e.owner

/-- The same, where the one with the value `f` in the class of `y` may be missing. -/
def FoldedBut (ok : Binary64 → Prop) (y : ClassId) (f : Option Binary64)
    (g : EGraph) : Prop :=
  ∀ ⦃fn l r e a b⦄, g.table.get? (.derived fn l r) = some e →
    g.constant? l = some a → g.constant? r = some b →
      (g.root e.owner = y ∧ f = some (fn.eval a b)) ∨
      g.HoldsValue ok (fn.eval a b) e.owner

theorem FoldedBut.all (h : g.FoldedBut ok y none) : g.AllFolded ok := by
  intro fn l r e a b he ha hb
  rcases h he ha hb with ⟨-, hno⟩ | hval
  · cases hno
  · exact hval

/-- Children are roots, and computed widths are in the classes of their values, which
are in a set. -/
structure Evaluated (ok : Binary64 → Prop) (g : EGraph) : Prop where
  wellFormed : g.WellFormed
  settled : g.Settled
  folded : g.AllFolded ok

theorem evaluated_empty : empty.Evaluated ok :=
  ⟨wellFormed_empty, settled_empty, fun _ _ _ _ _ _ he => by simp [empty] at he⟩

/-- A new node is the only one that may be missing from the class of its value. -/
theorem Evaluated.foldedBut_issue (h : g.Evaluated ok)
    (hnew : g.table.get? node.key = none) (hc : ∀ c ∈ node.children, c < g.issued) :
    (g.issue node).FoldedBut ok g.issued (g.foldDerived? node) := by
  have hw := h.wellFormed
  intro fn l r e a b he ha hb
  rcases get?_issue_inv he with ⟨hkey, rfl⟩ | he
  · obtain rfl := Node.eq_derived_of_key hkey.symm
    left
    rw [hw.constant?_issue _ (hc l (by simp [Node.children]))] at ha
    rw [hw.constant?_issue _ (hc r (by simp [Node.children]))] at hb
    refine ⟨by rw [root_issue hw.ranked, hw.root_of_le le_rfl], ?_⟩
    simp only [foldDerived?, fold, ha, hb]
  · right
    have hchild := hw.child_lt he
    rw [hw.constant?_issue _ (hchild l (by simp [Node.children]))] at ha
    rw [hw.constant?_issue _ (hchild r (by simp [Node.children]))] at hb
    exact (h.folded he ha hb).of_extends (hw.extends_issue hnew)

/-- Issuing a literal brings in no computed width. -/
theorem FoldedBut.issue_literal {f : Option Binary64} (hw : g.WellFormed)
    (h : g.FoldedBut ok y f)
    (hnew : g.table.get? (Node.literal v).key = none) :
    (g.issue (.literal v)).FoldedBut ok y f := by
  intro fn l r e a b he ha hb
  rcases get?_issue_inv he with ⟨hkey, -⟩ | he
  · cases hkey
  · have hchild := hw.child_lt he
    rw [hw.constant?_issue _ (hchild l (by simp [Node.children]))] at ha
    rw [hw.constant?_issue _ (hchild r (by simp [Node.children]))] at hb
    rw [root_issue hw.ranked]
    exact (h he ha hb).imp_right fun hval => hval.of_extends (hw.extends_issue hnew)

section

variable (hok : ∀ v : Binary64, v.IsNumber → ok v)
include hok

/-- The union with the literal of its value puts the computed width that was missing
in place. As the class that is given up has no parents, no other computed width
learns its arguments from the union. -/
theorem FoldedBut.unite (h : g.FoldedBut ok y (some v)) (hawaits : g.Awaits v x y)
    (hu : EGraph.unite x y g = .ok z g') : g'.AllFolded ok := by
  have hw := hawaits.wellFormed
  obtain ⟨htable, hjoined, -⟩ := unite_joins hw hawaits.literal_lt hawaits.lt hu
  have hext := hw.extends_unite hawaits.literal_lt hawaits.lt hu
  obtain ⟨hj, hxz, rfl⟩ :=
    joinable_of_unite_alone hw hawaits.literal_lt hawaits.lt hawaits.root
      hawaits.rank hawaits.ne hu
  obtain ⟨c, hc⟩ := hawaits.known
  have hcz : (g.record z).constant = some c := by rw [← hxz]; exact hc
  have hvy : (g.record y).constant = some v := by
    have hv := hawaits.constant
    rwa [constant?, hawaits.root] at hv
  -- classes with constants are united only if these compare equal, so `v` is not NaN
  have hvok : ok v := by
    have hagree := hj.agree
    rw [conflict?, hcz, hvy] at hagree
    dsimp only at hagree
    split at hagree
    · next hnum => exact hok v (Binary64.isNumber_of_numEq hnum)
    · cases hagree
  intro fn l r e a b he ha hb
  rw [htable] at he
  rw [hj.constant?_eq hw hcz (hawaits.child he l (by simp [Node.children]))] at ha
  rw [hj.constant?_eq hw hcz (hawaits.child he r (by simp [Node.children]))] at hb
  rcases h he ha hb with ⟨howner, hval⟩ | hval
  · obtain rfl := Option.some.inj hval
    refine ⟨hvok, (hext.represents hawaits.literal).congr rfl (hjoined.trans ?_)⟩
    exact hext.root_eq (by rw [howner, hawaits.root])
  · exact hval.of_extends hext

/-- Adding a node keeps a graph evaluated. Whichever of the node and the literal of
its value is new, a computed width is missing from the class of its value only until
the union at the end. -/
theorem Evaluated.intern (h : g.Evaluated ok)
    (hc : ∀ c ∈ node.children, c < g.issued ∧ g.root c = c)
    (hi : EGraph.intern node g = .ok id g') : g'.Evaluated ok := by
  have hw := h.wellFormed
  have hlt := fun c hmem => (hc c hmem).1
  refine ⟨(Call.intern hc hi).wellFormed hw, h.settled.intern hw hc hi, ?_⟩
  rcases intern_cases hi with
    ⟨-, -, -, rfl⟩ | ⟨hnew, ⟨hnone, -, rfl⟩ | ⟨v, hv, hequate⟩⟩
  · exact h.folded
  · have hissue := h.foldedBut_issue hnew hlt
    rw [hnone] at hissue
    exact hissue.all
  · have hissue := h.foldedBut_issue hnew hlt
    rw [hv] at hissue
    obtain ⟨t, x, ht, hawaits, hunite⟩ := exists_awaits hw hnew hlt hv hequate
    rcases ht with rfl | ⟨hnone, rfl⟩
    · exact hissue.unite hok hawaits hunite
    · exact (hissue.issue_literal (hw.issue hnew hlt) hnone).unite hok hawaits hunite

theorem Evaluated.instantiate (h : g.Evaluated ok) (hs : g.BoundIn s)
    (hi : EGraph.instantiate s p g = .ok ref g') : g'.Evaluated ok := by
  refine (instantiate_induction (P := Evaluated ok) ?_ h.wellFormed hs h hi).1
  intro n _ t m t' id hwt ht _ ha
  obtain ⟨hc, hintern⟩ := add_inv ha
  exact ht.intern hok (canonical_children hwt (children_toNat_lt hc)) hintern

end

/-- Adding a pattern changes no constant that was known, or not known, before. -/
theorem constant?_instantiate (hw : g.WellFormed) (hs : g.BoundIn s)
    (hi : EGraph.instantiate s p g = .ok ref g') (hx : x < g.issued) :
    g'.constant? x = g.constant? x := by
  refine (instantiate_induction
    (P := fun t => x < t.issued ∧ t.constant? x = g.constant? x) ?_ hw hs
    ⟨hx, rfl⟩ hi).1.2
  rintro n _ t m t' id hwt ⟨hlt, hconst⟩ _ ha
  obtain ⟨hc, hintern⟩ := add_inv ha
  refine ⟨Nat.lt_of_lt_of_le hlt ((add_call hwt ha).extends hwt).issued_le, ?_⟩
  rw [constant?_intern hwt
    (fun c hmem => (canonical_children hwt (children_toNat_lt hc) c hmem).1)
    hintern hlt, hconst]

/-- Where a computed width of known numbers is represented, its value is. -/
theorem Evaluated.represents_value (h : g.Evaluated ok) {fn : WidthFn}
    {l r : ClassId} {a b d : Binary64}
    (hx : g.Represents (.derived fn l r) x) (hl : g.constant? l = some c)
    (hca : c.withoutMinusZero = a.withoutMinusZero) (hr : g.constant? r = some d)
    (hdb : d.withoutMinusZero = b.withoutMinusZero) :
    g.Represents (.literal (fn.eval a b)) x := by
  have hw := h.wellFormed
  obtain ⟨e, he, ho⟩ := h.settled.get?_of_represents hx
  rw [← hw.constant?_root] at hl hr
  refine (h.folded he hl hr).2.congr ?_ ho
  rw [Node.key, Node.key, WidthFn.eval_congr hca hdb]

/-! ## Nothing to repair -/

theorem Settled.canonical_key (h : g.Settled) {e : Entry}
    (he : g.table.get? e.key = some e) : (g.canonical e.node).key = e.key := by
  rw [canonical, Node.key_map]
  exact Node.map_id_of fun c hc => h he c hc

theorem Settled.literal_owner (h : g.Settled) {lit : Entry}
    (hlit : g.table.get? (Node.literal v).key = some lit)
    (hx : g.Represents (.literal v) x) : g.root lit.owner = g.root x :=
  h.root_eq (represents_key.1 (represents_of_get? hlit)) hx rfl

/-- In an evaluated graph no step of a repair changes what is equal or known.
Literals of values are there already, computed widths are in their classes, and no
two entries are congruent; what is left are steps that move an entry or write
something down. -/
theorem Evaluated.step (h : g.Evaluated ok) (hstep : Step g g') :
    g'.Evaluated ok ∧ g'.root = g.root ∧ g'.constant? = g.constant? := by
  have hw := h.wellFormed
  have hw' := hstep.wellFormed hw
  have hext := hstep.extends hw
  cases hstep with
  | literal stored left right fresh =>
      obtain ⟨lit, hlit, -⟩ :=
        h.settled.get?_of_represents (h.folded stored left right).2
      cases hlit.symm.trans fresh
  | fold stored left right value hx hy union =>
      have hroot := hx.trans
        ((h.settled.literal_owner value (h.folded stored left right).2).trans hy.symm)
      -- the two classes have one root, so the union finds nothing to do
      rcases unite_cases hw (lt_of_root_eq hw (hw.owner_lt value) hx)
        (lt_of_root_eq hw (hw.owner_lt stored) hy) union with
          ⟨-, rfl, -⟩ | ⟨w, l, hj, -, -, hroots⟩
      · exact ⟨h, rfl, rfl⟩
      · rcases hroots with ⟨hw, hl⟩ | ⟨hl, hw⟩
        · exact absurd (hw.symm.trans (hroot.trans hl)) hj.ne
        · exact absurd (hw.symm.trans (hroot.symm.trans hl)) hj.ne
  | @move e stored free =>
      have hframe := restore_sameFrame g e (g.canonical e.node) (g.root e.owner)
      have hkey := h.settled.canonical_key stored
      -- every key keeps its place, though the entry names the root of its owner now
      have hold {key : Node ClassId} {k : Entry}
          (hk : (g.restore e (g.canonical e.node) (g.root e.owner)).table.get?
            key = some k) :
          ∃ k', g.table.get? key = some k' ∧ g.root k'.owner = g.root k.owner := by
        rcases get?_restore_inv stored hk with ⟨rfl, rfl⟩ | ⟨-, -, hk⟩
        · exact ⟨e, hkey ▸ stored, (hw.root_root _).symm⟩
        · exact ⟨k, hk, rfl⟩
      refine ⟨⟨hw', fun key k hk c hc => ?_, fun fn l r k a b hk ha hb => ?_⟩,
        funext hframe.root, funext hframe.constant?⟩
      · obtain ⟨k', hk', -⟩ := hold hk
        rw [hframe.root]
        exact h.settled hk' c hc
      · obtain ⟨k', hk', ho⟩ := hold hk
        rw [hframe.constant?] at ha hb
        have hval := (h.folded hk' ha hb).of_extends hext
        exact ⟨hval.1, hval.2.congr rfl (hext.root_eq ho)⟩
  | fuse stored congruent union =>
      exact absurd (h.settled.canonical_key stored) (congruent?_inv congruent).1
  | note same _ =>
      refine ⟨⟨hw', fun key e he c hc => ?_, fun fn l r e a b he ha hb => ?_⟩,
        funext same.root, funext same.constant?⟩
      · rw [same.table] at he
        rw [same.root]
        exact h.settled he c hc
      · rw [same.table] at he
        rw [same.constant?] at ha hb
        exact (h.folded he ha hb).of_extends hext

/-- The same for all steps of a repair. -/
theorem Evaluated.steps (h : g.Evaluated ok) (hsteps : Steps g g') :
    g'.Evaluated ok ∧ g'.root = g.root ∧ g'.constant? = g.constant? := by
  induction hsteps with
  | refl => exact ⟨h, rfl, rfl⟩
  | tail _ hstep ih =>
      obtain ⟨h', hroot, hconst⟩ := ih.1.step hstep
      exact ⟨h', hroot.trans ih.2.1, hconst.trans ih.2.2⟩

/-- The unions of a repair would be of classes with equal constants. A computed width
is in the class of its value already, whose constant compares equal to itself. -/
theorem Evaluated.peaceful (h : g.Evaluated Binary64.IsNumber) : g.Peaceful where
  fold {fn l r a b e lit} stored left right value c d hc hd := by
    obtain ⟨hnumber, hrep⟩ := h.folded stored left right
    obtain ⟨u, hu, huv⟩ :=
      h.wellFormed.known value (v := (fn.eval a b).withoutMinusZero) rfl
    obtain rfl : u = c := Option.some.inj (hu.symm.trans hc)
    obtain rfl : u = d := by
      rw [constant?, h.settled.literal_owner value hrep] at hu
      exact Option.some.inj (hu.symm.trans hd)
    rw [Binary64.withoutMinusZero_idem] at huv
    exact (Binary64.numEq_iff
      (by rw [Binary64.level_congr huv]; exact hnumber)).2 rfl
  fuse stored congruent :=
    absurd (h.settled.canonical_key stored) (congruent?_inv congruent).1

/-- Repairing an evaluated graph succeeds. -/
theorem Evaluated.succeeds_rebuild (h : g.Evaluated Binary64.IsNumber) :
    Succeeds EGraph.rebuild g :=
  EGraph.succeeds_rebuild h.wellFormed fun _ ht => (h.steps ht).1.peaceful

end EGraph

/-- A repair leaves nothing to evaluate. -/
theorem Repaired.evaluated {g : EGraph} (h : Repaired g) :
    g.Evaluated fun _ => True := by
  refine ⟨h.wellFormed, h.settled, fun fn l r e a b he ha hb => ⟨trivial, ?_⟩⟩
  obtain ⟨lit, hlit, ho⟩ :=
    h.literal_of_derived (EGraph.represents_of_get? he) ha rfl hb rfl
  exact (EGraph.represents_key.1 (EGraph.represents_of_get? hlit)).congr rfl ho

end Datapath

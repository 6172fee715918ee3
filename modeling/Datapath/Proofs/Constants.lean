import Datapath.Proofs.Numbers
import Datapath.Proofs.Powers

/-!
# Datapath.Proofs.Constants

The constant of a class is the number among its nodes.

A class that contains a number knows it: this is part of `WellFormed`. Conversely a
constant can come into a class with a new node, with a union or with the width that a
repair computes, but never without a node that is this number: this is `Sourced`. It
fails for the moment between the entry of a computed width and its union with the
literal of its value, for which there is `SourcedBut`.

If the literals that operations give are not negative, the constants are `Regular`,
however they were computed. Regular values that are numerically equal are equal, so a
class has at most one number.
-/

namespace Datapath.EGraph

open Binary64 (Regular Unsigned)

variable {g g' : EGraph} {x y z id : ClassId} {key node : Node ClassId} {e : Entry}
  {c u v : Binary64} {s : Subst} {p : Pattern} {ref : Int} {app : Application}
  {equations : List Equation}

/-! ## Where constants come from -/

/-- A node of the class is the number. -/
def HoldsNumber (g : EGraph) (c : Binary64) (x : ClassId) : Prop :=
  ∃ node, node.value? = some c ∧ g.Represents node x

theorem HoldsNumber.of_extends (h : g.HoldsNumber c x) (hext : Extends g g')
    (hroot : g'.root x = g'.root y) : g'.HoldsNumber c y := by
  obtain ⟨node, hvalue, hrep⟩ := h
  exact ⟨node, hvalue, (hext.represents hrep).congr rfl hroot⟩

/-- Every constant is the number of a node of its class. -/
def Sourced (g : EGraph) : Prop :=
  ∀ x < g.issued, ∀ c, g.constant? x = some c → g.HoldsNumber c x

theorem sourced_empty : empty.Sourced := fun x hx => absurd hx (Nat.not_lt_zero x)

/-- Constants that members of the same classes had before are those of nodes that are
still there. -/
theorem Sourced.of_extends (h : g.Sourced) (hext : Extends g g')
    (hbefore : ∀ i < g'.issued, ∀ c, g'.constant? i = some c →
      ∃ j < g.issued, g.constant? j = some c ∧ g'.root j = g'.root i) :
      g'.Sourced := by
  intro i hi c hc
  obtain ⟨j, hj, hcj, hroot⟩ := hbefore i hi c hc
  exact (h j hj c hcj).of_extends hext hroot

/-- If the constant of a new class is the number of its node, every constant still is
that of a node. -/
theorem Sourced.issue (hw : g.WellFormed) (h : g.Sourced)
    (hnew : g.table.get? node.key = none)
    (hfold : ∀ c, g.fold node = some c → node.value? = some c) :
    (g.issue node).Sourced := by
  intro i hi c hc
  rcases hw.constant?_issue_cases hi hc with ⟨hlt, hold⟩ | ⟨rfl, hnode⟩
  · exact (h i hlt c hold).of_extends (hw.extends_issue hnew) rfl
  · exact ⟨node, hfold c hnode, represents_issue g node⟩

/-- No step makes a constant up. A literal is its own constant, unions pass constants
on, and moving or dropping a node changes no constant while its class keeps the
node. -/
theorem Step.sourced (hw : g.WellFormed) (h : g.Sourced) (s : Step g g') :
    g'.Sourced := by
  have hext := s.extends hw
  cases s with
  | literal _ _ _ fresh => exact h.issue hw fresh fun c hc => hc
  | fold stored _ _ value hx hy union =>
      exact h.of_extends hext fun i hi c hc => constant?_of_unite hw
        (lt_of_root_eq hw (hw.owner_lt value) hx)
        (lt_of_root_eq hw (hw.owner_lt stored) hy) union hi hc
  | @move e stored free =>
      have hframe := restore_sameFrame g e (g.canonical e.node) (g.root e.owner)
      exact h.of_extends hext fun i hi c hc =>
        ⟨i, hframe.issued ▸ hi, (hframe.constant? i).symm.trans hc, rfl⟩
  | @fuse _ e _ _ stored congruent union =>
      refine h.of_extends hext fun i hi c hc => ?_
      obtain ⟨j, hj, hcj, hroot⟩ := constant?_of_unite (hw.dropKey stored)
        (hw.root_lt (hw.owner_lt stored)) (hw.owner_lt (congruent?_inv congruent).2)
        union hi hc
      exact ⟨j, hj,
        ((dropKey_sameFrame g e.key _).constant? j).symm.trans hcj, hroot⟩
  | note same _ =>
      exact h.of_extends hext fun i hi c hc =>
        ⟨i, same.issued ▸ hi, (same.constant? i).symm.trans hc, rfl⟩

theorem Steps.sourced (hw : g.WellFormed) (h : g.Sourced) (s : Steps g g') :
    g'.Sourced := by
  induction s with
  | refl => exact h
  | tail s₁ s₂ ih => exact s₂.sourced (Steps.wellFormed hw s₁) ih

/-- Every constant is the number of a node of its class, or it is `v` in the class of
`y`. -/
def SourcedBut (y : ClassId) (v : Binary64) (g : EGraph) : Prop :=
  ∀ x < g.issued, ∀ c, g.constant? x = some c → g.HoldsNumber c x ∨ c = v ∧
    g.root x = g.root y

/-- A computed width of known arguments has a constant before any node is this
number. -/
theorem sourcedBut_issue (hw : g.WellFormed) (h : g.Sourced)
    (hnew : g.table.get? node.key = none)
    (hfold : g.fold node = some v) : (g.issue node).SourcedBut g.issued v := by
  intro i hi c hc
  rcases hw.constant?_issue_cases hi hc with ⟨hlt, hold⟩ | ⟨rfl, hnode⟩
  · exact Or.inl ((h i hlt c hold).of_extends (hw.extends_issue hnew) rfl)
  · exact Or.inr ⟨Option.some.inj (hnode.symm.trans hfold), rfl⟩

/-- The literal of the value is entered next; the one exception is still the only
one. -/
theorem SourcedBut.enter (hw : g.WellFormed) (h : g.SourcedBut y v)
    (hy : y < g.issued) (he : EGraph.enter (.literal u) g = .ok x g') :
    g'.WellFormed ∧ g'.SourcedBut y v ∧ g'.HoldsNumber u x ∧ x < g'.issued ∧
    y < g'.issued := by
  rcases enter_cases he with ⟨e, hstored, rfl, rfl⟩ | ⟨hnew, rfl, rfl⟩
  · have hrep := represents_key.1 (represents_of_get? hstored)
    exact ⟨hw, h, ⟨_, rfl, hrep.congr rfl (hw.root_root _).symm⟩,
      hw.root_lt (hw.owner_lt hstored), hy⟩
  · -- a literal that is new is the number of its own class
    have hext := hw.extends_issue hnew
    refine ⟨hw.issue hnew (by simp [Node.children]), fun i hi c hc => ?_,
      ⟨_, rfl, represents_issue g _⟩, ?_, Nat.lt_of_lt_of_le hy hext.issued_le⟩
    · rcases hw.constant?_issue_cases hi hc with ⟨hlt, hold⟩ | ⟨rfl, hnode⟩
      · exact (h i hlt c hold).imp (fun hnum => hnum.of_extends hext rfl)
          fun hval => ⟨hval.1, hext.root_eq hval.2⟩
      · exact Or.inl ⟨.literal u, hnode, represents_issue g _⟩
    · exact issued_lt_issue _ _

/-- The union with the literal makes up for what is missing. -/
theorem SourcedBut.unite (hw : g.WellFormed) (h : g.SourcedBut y v)
    (hlit : g.HoldsNumber v x)
    (hx : x < g.issued) (hy : y < g.issued) (hu : EGraph.unite x y g = .ok z g') :
    g'.Sourced := by
  have hext := hw.extends_unite hx hy hu
  obtain ⟨-, hjoined, -⟩ := unite_joins hw hx hy hu
  intro i hi c hc
  obtain ⟨j, hj, hcj, hroot⟩ := constant?_of_unite hw hx hy hu hi hc
  rcases h j hj c hcj with hnum | ⟨rfl, hjy⟩
  · exact hnum.of_extends hext hroot
  · exact hlit.of_extends hext ((hjoined.trans (hext.root_eq hjy).symm).trans hroot)

theorem SourcedBut.equate (hw : g.WellFormed) (h : g.SourcedBut y v)
    (hy : y < g.issued) (heq : EGraph.equate v y g = .ok z g') : g'.Sourced := by
  obtain ⟨x, g₁, henter, hunite⟩ := bind_inv heq
  obtain ⟨hw₁, h₁, hlit, hx₁, hy₁⟩ := h.enter hw hy henter
  exact h₁.unite hw₁ hlit hx₁ hy₁ hunite

/-! ## Stored literals -/

/-- The stored literals are in a set of numbers. -/
def Stores (ok : Binary64 → Prop) (g : EGraph) : Prop :=
  ∀ key e v, g.table.get? key = some e → e.node = .literal v → ok v

/-- A graph stores what it stored before and the node that was issued. -/
theorem Stores.issue {ok : Binary64 → Prop} (h : g.Stores ok)
    (hlit : ∀ v, node = .literal v → ok v) :
    (g.issue node).Stores ok := by
  intro key e v he hv
  rcases get?_issue_inv he with ⟨-, rfl⟩ | he
  · exact hlit v hv
  · exact h key e v he hv

theorem Stores.of_table {ok : Binary64 → Prop} (h : g.Stores ok)
    (htable : g'.table = g.table) :
    g'.Stores ok := fun key e v he => h key e v (htable ▸ he)

/-- The literals that steps store are values of computed widths, so a set of numbers
that is closed under these has them. -/
theorem Step.stores {ok : Binary64 → Prop} (hok : WidthClosed ok) (hw : g.WellFormed)
    (hwithin : Within ok g) (h : g.Stores ok) (s : Step g g') : g'.Stores ok := by
  cases s with
  | @literal fn l r a b _ stored left right _ =>
      have hchild := hw.child_lt stored
      refine h.issue fun v hv => ?_
      cases hv
      exact hok.eval (hwithin l (hchild l (by simp [Node.children])) a left)
        (hwithin r (hchild r (by simp [Node.children])) b right) fn
  | fold stored _ _ value hx hy union =>
      exact h.of_table (unite_joins hw (lt_of_root_eq hw (hw.owner_lt value) hx)
        (lt_of_root_eq hw (hw.owner_lt stored) hy) union).1
  | @move entry stored _ =>
      intro key e v he hv
      rcases get?_restore_inv stored he with ⟨-, rfl⟩ | ⟨-, -, he⟩
      · exact h entry.key entry v stored (Node.eq_literal_of_map hv)
      · exact h key e v he hv
  | @fuse _ entry _ _ stored congruent union =>
      have hdrop : (g.dropKey entry.key (g.root entry.owner)).Stores ok :=
        fun key e v he => h key e v (get?_dropKey_inv he).2
      exact hdrop.of_table (unite_joins (hw.dropKey stored)
        (hw.root_lt (hw.owner_lt stored))
        (hw.owner_lt (congruent?_inv congruent).2) union).1
  | note same _ => exact h.of_table same.table

theorem Steps.stores {ok : Binary64 → Prop} (hok : WidthClosed ok)
    (hw : g.WellFormed) (hwithin : Within ok g) (h : g.Stores ok) (s : Steps g g') :
    g'.Stores ok := by
  induction s with
  | refl => exact h
  | tail s₁ s₂ ih =>
      exact s₂.stores hok (Steps.wellFormed hw s₁)
        (Steps.within hok hw hwithin s₁) ih

/-! ## Graphs with regular literals -/

/-- Widths that are computed from regular numbers are regular, and so are whole
numbers. -/
theorem widthClosed_regular : WidthClosed Regular where
  ofNat n := (Binary64.unsigned_ofNat n).regular
  eval := Regular.eval

/-- The constants are the numbers among the nodes, and all of them are regular. -/
structure Grounded (g : EGraph) : Prop where
  wellFormed : g.WellFormed
  constants : Within Regular g
  literals : g.Stores Regular
  sourced : g.Sourced

theorem grounded_empty : empty.Grounded where
  wellFormed := wellFormed_empty
  constants i hi := absurd hi (Nat.not_lt_zero i)
  literals key e v he := by simp [empty] at he
  sourced := sourced_empty

theorem Grounded.steps (h : g.Grounded) (s : Steps g g') : g'.Grounded where
  wellFormed := Steps.wellFormed h.wellFormed s
  constants := Steps.within widthClosed_regular h.wellFormed h.constants s
  literals := Steps.stores widthClosed_regular h.wellFormed h.constants h.literals s
  sourced := Steps.sourced h.wellFormed h.sourced s

/-- A union keeps it as well, since one of the two constants stays. -/
theorem Grounded.unite (h : g.Grounded) (hx : x < g.issued) (hy : y < g.issued)
    (hu : EGraph.unite x y g = .ok z g') : g'.Grounded where
  wellFormed := h.wellFormed.unite hx hy hu
  constants := h.constants.unite h.wellFormed hx hy hu
  literals := h.literals.of_table (unite_joins h.wellFormed hx hy hu).1
  sourced :=
  h.sourced.of_extends (h.wellFormed.extends_unite hx hy hu) fun _ hi _ hc =>
    constant?_of_unite h.wellFormed hx hy hu hi hc

/-- Adding a node makes no constant up. For a computed width the exception is there
only until the class is equated with the value. -/
theorem Sourced.intern (hw : g.WellFormed) (h : g.Sourced)
    (hc : ∀ c ∈ node.children, c < g.issued)
    (hi : EGraph.intern node g = .ok id g') : g'.Sourced := by
  rcases intern_cases hi with ⟨-, -, -, rfl⟩ | ⟨hnew, ⟨hfold, -, rfl⟩ | ⟨v, hv, heq⟩⟩
  · exact h
  · refine h.issue hw hnew fun c hcfold => ?_
    cases node with
    | literal | sign => exact hcfold
    | symbol | binary => cases hcfold
    | derived => exact absurd (hcfold.symm.trans hfold) (Option.some_ne_none c)
  · -- the value that is equated is the constant that the new class got
    have hfold : g.fold node = some v := by
      cases node <;> first | exact hv | cases hv
    refine (sourcedBut_issue hw h hnew hfold).equate (hw.issue hnew hc) ?_ heq
    exact issued_lt_issue _ _

/-- So constants are the numbers among the nodes after adding a node with a regular
literal, too. -/
theorem Grounded.intern (h : g.Grounded) (hc : ∀ c ∈ node.children, c < g.issued)
    (hlit : ∀ v, node = .literal v → v.Regular)
    (hi : EGraph.intern node g = .ok id g') :
    g'.Grounded := by
  have hw := h.wellFormed
  have hsourced := h.sourced.intern hw hc hi
  rcases intern_steps hw hc hi with ⟨-, -, -, rfl⟩ | ⟨hnew, steps, -⟩
  · exact h
  · have hw₁ := hw.issue hnew hc
    have hwithin := h.constants.issue widthClosed_regular hw hc hlit
    exact ⟨Steps.wellFormed hw₁ steps,
      Steps.within widthClosed_regular hw₁ hwithin steps,
      Steps.stores widthClosed_regular hw₁ hwithin (h.literals.issue hlit) steps,
      hsourced⟩

/-- The node that is interned has the same literal as the one that was given. -/
theorem Grounded.add (h : g.Grounded) {m : Node Int}
    (hlit : ∀ v, m = .literal v → v.Regular)
    (ha : EGraph.add m g = .ok id g') : g'.Grounded := by
  obtain ⟨hc, hi⟩ := add_inv ha
  exact h.intern (fun c hmem =>
    (canonical_children h.wellFormed (children_toNat_lt hc) c hmem).1)
    (fun v hv => hlit v (canonical_eq_literal hv)) hi

/-- The literals of the nodes that a pattern adds are its parts. -/
theorem Grounded.instantiate (h : g.Grounded) (hs : g.BoundIn s)
    (hlit : ∀ v, .literal v ∈ p.parts → v.Regular)
    (hi : EGraph.instantiate s p g = .ok ref g') : g'.Grounded := by
  refine (instantiate_induction (P := Grounded) ?_ h.wellFormed hs h hi).1
  intro n hn t m t' id _ ht hrel ha
  exact ht.add (fun v hv => hlit v (eq_literal_of_rel hrel hv ▸ hn)) ha

/-- An application adds the literals of the right side. -/
theorem Grounded.applyAt (h : g.Grounded) (hs : g.BoundIn app.subst)
    (hlit : ∀ v, .literal v ∈ app.equation.rhs.parts → v.Regular) {b : Bool}
    (ha : EGraph.applyAt app g = .ok b g') : g'.Grounded := by
  obtain ⟨ref, g₁, hi, hid, ⟨-, hlt⟩, hrest⟩ := applyAt_inv ha
  have h₁ := h.instantiate hs hlit hi
  rcases hrest with ⟨-, rfl⟩ | ⟨r, hu⟩
  · exact h₁
  · exact h₁.unite (h₁.wellFormed.root_lt hid) (h₁.wellFormed.root_lt hlt) hu

/-- So equations whose right sides have regular literals keep a graph grounded. -/
theorem grounded_kept
    (hlit : ∀ eqn ∈ equations, ∀ v, .literal v ∈ eqn.rhs.parts → v.Regular) :
    Kept Grounded equations where
  steps _ h s := h.steps s
  apply hg _ happs hmem _ hext ht hrun := by
    obtain ⟨heqn, ho⟩ := offered_of_mem_applications hg.wellFormed happs hmem
    exact ht.applyAt (ho.boundIn.of_extends hext) (hlit _ heqn) hrun

/-! ## Operations with literals that are not negative -/

/-- The literals that an operation is given are at least zero, and none of them is
minus zero. Those of a text are so anyway. -/
def Operation.Unsigned : Operation → Prop
  | add node => ∀ v, node = .literal v → v.Unsigned
  | addTerm term => ∀ v, .literal v ∈ term.parts → v.Unsigned
  | applyOnce eqn => ∀ v, .literal v ∈ eqn.rhs.parts → v.Unsigned
  | saturate equations _ =>
      ∀ eqn ∈ equations, ∀ v, .literal v ∈ eqn.rhs.parts → v.Unsigned
  | addText _ | merge .. | rebuild => True

/-- The graphs that operations of a kind lead to without an error. -/
inductive ReachedBy (kind : Operation → Prop) : EGraph → Prop
  | empty : ReachedBy kind .empty
  | run {g g' : EGraph} (op : Operation) (start : ReachedBy kind g) (given : kind op)
      (runs : op.Runs g g') : ReachedBy kind g'

theorem ReachedBy.reached {kind : Operation → Prop} (h : ReachedBy kind g) :
    Reached g := by
  induction h with
  | empty => exact .empty
  | run op _ _ runs ih => exact .run op ih runs

theorem Grounded.addGround (h : g.Grounded)
    (hlit : ∀ v, .literal v ∈ p.parts → v.Regular)
    (ha : EGraph.addGround p g = .ok ref g') : g'.Grounded :=
  h.instantiate (boundIn_nil g) hlit (addGround_inv ha).2

/-- Operations whose literals are not negative keep a graph grounded. The literals of
a text are whole numbers, since this is how the parser reads them. -/
theorem Operation.Unsigned.grounded {op : Operation} (hop : op.Unsigned)
    (hg : Calls .empty g) (h : g.Grounded) (hrun : op.Runs g g') : g'.Grounded := by
  cases op with
  | add node =>
      obtain ⟨a, ha⟩ := hrun
      exact h.add (fun v hv => (hop v hv).regular) ha
  | addTerm term =>
      obtain ⟨a, ha⟩ := hrun
      exact h.addGround (fun v hv => (hop v hv).regular) ha
  | addText text =>
      obtain ⟨a, ha⟩ := hrun
      obtain ⟨term, hparse, hadd⟩ := load_inv ha
      refine h.addGround (fun v hv => ?_) hadd
      obtain ⟨n, hn⟩ := (Pattern.atomic_of_parse hparse).literal hv
      rw [hn]
      exact (Binary64.unsigned_ofNat n).regular
  | merge a b =>
      obtain ⟨r, hr⟩ := hrun
      obtain ⟨⟨-, hx⟩, ⟨-, hy⟩, hu⟩ := merge_inv hr
      exact h.unite (h.wellFormed.root_lt hx) (h.wellFormed.root_lt hy) hu
  | rebuild => exact h.steps (rebuild_steps h.wellFormed hrun)
  | applyOnce eqn =>
      obtain ⟨n, hn⟩ := hrun
      have hkept : Kept Grounded [eqn] := grounded_kept (by
        simpa using fun v hv => (hop v hv).regular)
      exact (hkept.applyOnce hg h hn).1
  | saturate equations o =>
      obtain ⟨stats, hs⟩ := hrun
      exact ((grounded_kept fun eqn heqn v hv =>
        (hop eqn heqn v hv).regular).saturate hg h hs).1

/-- So all graphs that such operations lead to are grounded. -/
theorem ReachedBy.grounded (h : ReachedBy Operation.Unsigned g) : g.Grounded := by
  induction h with
  | empty => exact grounded_empty
  | run op start given runs ih => exact given.grounded start.reached.calls ih runs

/-! ## Reading constants off nodes -/

/-- A represented node is stored, and its class lists what is stored. -/
theorem exists_stored (hw : g.WellFormed) (h : g.Represents node x) :
    ∃ e, g.canonical e.node ∈ g.nodes x ∧ g.table.get? e.key = some e ∧
      e.key.map g.root = node.key.map g.root := by
  obtain ⟨key, e, he, hkey, ho⟩ := h
  have heq := WellFormed.key_eq he
  subst heq
  refine ⟨e, List.mem_filterMap.2 ⟨e.key, ?_, ?_⟩, he, hkey⟩
  · rw [← ho]
    exact hw.mem_nodes he
  · rw [he]
    rfl

/-- A class lists the numbers that are represented in it. The listed node may be
another one with the same key, but two regular literals with the same key are the
same. -/
theorem Grounded.mem_nodes (h : g.Grounded) (hv : node.value? = some v)
    (hreg : v.Regular) (hrep : g.Represents node x) : node ∈ g.nodes x := by
  obtain ⟨e, hmem, he, hkey⟩ := exists_stored h.wellFormed hrep
  rw [Entry.key] at hkey
  cases node with
  | literal u =>
      obtain rfl : u = v := Option.some.inj hv
      cases hnode : e.node with
      | literal w =>
          rw [hnode] at hkey hmem
          have hw := h.literals e.key e w he hnode
          have heq : w.withoutMinusZero = u.withoutMinusZero := Node.literal.inj hkey
          rw [hw.withoutMinusZero, hreg.withoutMinusZero] at heq
          exact heq ▸ hmem
      | sign | symbol | derived | binary => rw [hnode] at hkey; cases hkey
  | sign t =>
      cases hnode : e.node with
      | sign t' =>
          rw [hnode] at hkey hmem
          obtain rfl : t' = t := Node.sign.inj hkey
          exact hmem
      | literal | symbol | derived | binary => rw [hnode] at hkey; cases hkey
  | symbol | derived | binary => cases hv

/-- A class knows the numbers among its nodes. By well-formedness it knows the number
of the key under which a node is stored, and for regular numbers this is the number
itself. -/
theorem Grounded.constant?_eq (h : g.Grounded) (hx : x < g.issued)
    (hnode : node ∈ g.nodes x)
    (hv : node.value? = some v) : g.constant? x = some v := by
  have hw := h.wellFormed
  obtain ⟨key, hkey, hentry⟩ := List.mem_filterMap.1 hnode
  obtain ⟨e, he, rfl⟩ := Option.map_eq_some_iff.1 hentry
  obtain ⟨e', he', ho⟩ := hw.stored (hw.root_root x) hkey
  obtain rfl := Option.some.inj (he.symm.trans he')
  rw [canonical, Node.value?_map] at hv
  have hreg : v.Regular := by
    cases hn : e.node with
    | literal u => rw [hn] at hv; cases hv; exact h.literals key e v he hn
    | sign t => rw [hn] at hv; exact Option.some.inj hv ▸ widthClosed_regular.ofNat _
    | symbol | derived | binary => rw [hn] at hv; cases hv
  obtain ⟨w, hkeyv, hwv⟩ := Node.value?_key hv
  obtain ⟨c, hc, hcw⟩ := hw.known he (show key.value? = some w by
    rwa [← WellFormed.key_eq he, Entry.key])
  rw [constant?, ho] at hc
  have hcreg := h.constants x hx c hc
  have hcv : c = v := by
    rw [← hcreg.withoutMinusZero, ← hreg.withoutMinusZero, hcw, hwv]
  rw [← hcv]
  exact hc

/-- The constant of a class is the number that its nodes are. -/
theorem Grounded.constant?_iff (h : g.Grounded) (hx : x < g.issued) :
    g.constant? x = some v ↔
    .literal v ∈ g.nodes x ∨ ∃ t, .sign t ∈ g.nodes x ∧ .ofNat t.code = v := by
  constructor
  · intro hc
    obtain ⟨node, hvalue, hrep⟩ := h.sourced x hx v hc
    have hmem := h.mem_nodes hvalue (h.constants x hx v hc) hrep
    cases node with
    | literal => exact Or.inl (Option.some.inj hvalue ▸ hmem)
    | sign t => exact Or.inr ⟨t, hmem, Option.some.inj hvalue⟩
    | symbol | derived | binary => cases hvalue
  · rintro (hmem | ⟨t, hmem, rfl⟩)
    · exact h.constant?_eq hx hmem rfl
    · exact h.constant?_eq hx hmem rfl

/-- In a repaired graph a computed width of known arguments is in the class of its
value, and as the value is regular the class lists it. -/
theorem Grounded.literal_mem_nodes (h : g.Grounded) (hg : Repaired g) {fn : WidthFn}
    {l r : ClassId} {a b : Binary64} (hnode : .derived fn l r ∈ g.nodes x)
    (hl : g.constant? l = some a)
    (hr : g.constant? r = some b) : .literal (fn.eval a b) ∈ g.nodes x := by
  obtain ⟨hrep, hchild⟩ := represents_of_mem_nodes h.wellFormed hnode
  have ha := h.constants l (hchild l (by simp [Node.children])) a hl
  have hb := h.constants r (hchild r (by simp [Node.children])) b hr
  obtain ⟨lit, hlit, hroot⟩ := hg.literal_of_derived hrep hl rfl hr rfl
  exact h.mem_nodes rfl (ha.eval hb fn)
    ((represents_key.1 (represents_of_get? hlit)).congr rfl hroot)

/-- Constants are sound and complete. In a graph that operations with literals that
are not negative lead to, the constant of a class is the number among its nodes, if
there is one, and all numbers among them are equal, also numerically. After a
rebuild, a computed width of known arguments is in the class that contains the
literal of its value. -/
theorem constantAt_iff_number (hg : ReachedBy Operation.Unsigned g) :
    (∀ ref, g.Issued ref → ∃ nodes c, g.nodesOf ref = .ok nodes ∧
      g.constantAt ref = .ok c ∧
      (∀ v, c = some v ↔ .literal v ∈ nodes ∨ ∃ t, .sign t ∈ nodes ∧
        .ofNat t.code = v) ∧
      ∀ m ∈ nodes, ∀ n ∈ nodes, ∀ v w, m.value? = some v → n.value? = some w →
        v.numEq w = true) ∧
    ∀ (op : Operation) (g' : EGraph), op.Unsigned → op.Rebuilds → op.Runs g g' →
      ∀ ref nodes, g'.nodesOf ref = .ok nodes → ∀ fn (l r : ClassId) a b,
        .derived fn l r ∈ nodes →
        g'.constantAt l = .ok (some a) → g'.constantAt r = .ok (some b) →
          .literal (fn.eval a b) ∈ nodes := by
  constructor
  · intro ref hissued
    have h := hg.grounded
    have hx := h.wellFormed.root_lt hissued.2
    have hfind := find_of_issued hissued
    refine ⟨g.nodes (g.root ref.toNat), g.constant? (g.root ref.toNat), by
      rw [nodesOf, hfind]; rfl, ?_,
      fun v => h.constant?_iff hx, fun m hm n hn v w hv hw => ?_⟩
    · rw [constantAt, hfind, constant?, h.wellFormed.root_root]
      rfl
    · -- both numbers are the constant of the class, and so the same
      have hc := h.constant?_eq hx hm hv
      obtain rfl : v = w := Option.some.inj (hc.symm.trans (h.constant?_eq hx hn hw))
      exact (h.constants _ hx v hc).numEq_self
  · intro op g' hop hrebuilds hrun ref nodes hnodes fn l r a b hmem hl hr
    have h := hop.grounded hg.reached.calls hg.grounded hrun
    obtain ⟨g₁, c, hlast⟩ := hrebuilds.last hg.grounded.wellFormed hrun
    have hrebuilt : g'.Rebuilt := ⟨g₁, hg.reached.calls.trans c, hlast⟩
    obtain ⟨x, -, hx⟩ := except_bind_inv hnodes
    obtain rfl : g'.nodes x = nodes := Except.ok.inj hx
    exact h.literal_mem_nodes hrebuilt.repaired hmem (constantAt_inv hl).2
      (constantAt_inv hr).2

/-- Once `w` is united with 3, a rebuild computes `(max+1 w w)` and then
`(wlsh 2 (max+1 w w))`. -/
theorem constantAt_iff_number_merge : ∃ g g', ReachedBy Operation.Unsigned g ∧
    Operation.rebuild.Runs g g' ∧ g.constantAt 3 = .ok none ∧
    g'.constantAt 3 = .ok (some 17) := by
  have hrun : (fromEmpty (ε := GraphError) do
      let _ ← EGraph.add (.symbol "w")
      let _ ← EGraph.add (.derived .sum 0 0)
      let _ ← EGraph.add (.literal 2)
      let _ ← EGraph.add (.derived .shift 2 1)
      let _ ← EGraph.add (.literal 3)
      let _ ← EGraph.merge 0 4
      let before ← ask (·.constantAt 3)
      EGraph.rebuild
      let nodes ← ask (·.nodesOf 3)
      let left ← ask (·.constantAt 2)
      let right ← ask (·.constantAt 5)
      return (before, decide (.derived .shift 2 5 ∈ nodes), left, right)
      ).toOption.map (·.1) = some (none, true, some 2, some 4) := by
    decide +kernel
  obtain ⟨⟨seen, g'⟩, hok, hseen⟩ := Option.map_eq_some_iff.1 hrun
  obtain ⟨a₁, g₁, h₁, hok⟩ := bind_inv (fromEmpty_inv (toOption_inv hok))
  obtain ⟨a₂, g₂, h₂, hok⟩ := bind_inv hok
  obtain ⟨a₃, g₃, h₃, hok⟩ := bind_inv hok
  obtain ⟨a₄, g₄, h₄, hok⟩ := bind_inv hok
  obtain ⟨a₅, g₅, h₅, hok⟩ := bind_inv hok
  obtain ⟨a₆, g₆, h₆, hok⟩ := bind_inv hok
  obtain ⟨before, t, ht, hrebuild⟩ := bind_inv hok
  obtain ⟨hbefore, rfl⟩ := ask_inv ht
  obtain ⟨⟨⟩, g₇, h₇, hafter⟩ := bind_inv hrebuild
  obtain ⟨nodes, t₁, ht₁, hrest⟩ := bind_inv hafter
  obtain ⟨hnodes, rfl⟩ := ask_inv ht₁
  obtain ⟨left, t₂, ht₂, hrest'⟩ := bind_inv hrest
  obtain ⟨hleft, rfl⟩ := ask_inv ht₂
  obtain ⟨right, t₃, ht₃, hlast⟩ := bind_inv hrest'
  obtain ⟨hright, rfl⟩ := ask_inv ht₃
  obtain ⟨rfl, rfl⟩ := pure_inv hlast
  obtain ⟨rfl, hmem, rfl, rfl⟩ : before = none ∧
      decide (.derived .shift 2 5 ∈ nodes) = true ∧
      left = some 2 ∧ right = some 4 := by simpa using hseen
  have hreached : ReachedBy Operation.Unsigned t := by
    have hliteral (n : ℕ) : (Operation.add (.literal (OfNat.ofNat n))).Unsigned := by
      intro v hv
      rw [← Node.literal.inj hv]
      exact Binary64.unsigned_ofNat n
    have hother {node : Node Int} (hnode : node.value? = none) :
        (Operation.add node).Unsigned := by
      rintro v rfl
      cases hnode
    exact .run (.merge 0 4)
      (.run (.add (.literal 3))
        (.run (.add (.derived .shift 2 1))
          (.run (.add (.literal 2))
            (.run (.add (.derived .sum 0 0))
              (.run (.add (.symbol "w")) .empty (hother rfl) ⟨a₁, h₁⟩)
              (hother rfl) ⟨a₂, h₂⟩)
            (hliteral 2) ⟨a₃, h₃⟩)
          (hother rfl) ⟨a₄, h₄⟩)
        (hliteral 3) ⟨a₅, h₅⟩)
      trivial ⟨a₆, h₆⟩
  have hlit := (constantAt_iff_number hreached).2 .rebuild _ trivial trivial h₇ 3
    nodes hnodes .shift 2 5 2 4 (of_decide_eq_true hmem) hleft hright
  have hvalue : WidthFn.shift.eval 2 4 = 17 := by decide +kernel
  rw [hvalue] at hlit
  obtain ⟨k, hk, -⟩ := except_bind_inv hnodes
  obtain ⟨h0, hlt, -⟩ := find_inv hk
  obtain ⟨nodes', c, hnodes', hc, hiff, -⟩ :=
    (constantAt_iff_number (.run .rebuild hreached trivial h₇)).1 3 ⟨h0, hlt⟩
  obtain rfl := Except.ok.inj (hnodes.symm.trans hnodes')
  exact ⟨t, _, hreached, h₇, hbefore, by rw [hc, (hiff 17).2 (Or.inl hlit)]⟩

end Datapath.EGraph

import Datapath.Proofs.Instances

/-!
# Datapath.Proofs.Interpretation

Interpretations of terms, and how graphs follow them.

An `Interpretation` gives every constructor of terms a meaning in a set of values, so
it gives a value to every node and, with values for the variables, to every pattern.
Zero and minus zero are one literal, since both are written `0`.

`Follows M ν g ν' g'` says that `g'` is sound under values `ν'` that agree with `ν`
on the numbers of `g`. Adding nodes, repairing, and uniting classes of equal value
lead to such graphs. The value of an instance is that of its class
(`Sound.value_of_realizes`), so it does not matter how the instance came to be there,
by being added (`Sound.instantiated`) or by being found.
-/

namespace Datapath

variable {D : Type}

/-- What the constructors of terms mean. -/
structure Interpretation (D : Type) where
  literal : Binary64 → D
  sign : Sign → D
  symbol : String → D
  derived : WidthFn → D → D → D
  binary : Operator → D → D → D → D → D → D → D → D

namespace Interpretation

/-- The value of a node. -/
def node (M : Interpretation D) : Node D → D
  | .literal v => M.literal v.withoutMinusZero
  | .sign s => M.sign s
  | .symbol name => M.symbol name
  | .derived fn left right => M.derived fn left right
  | .binary op w wa sa a wb sb b => M.binary op w wa sa a wb sb b

/-- The value of a pattern, given the values of its variables. -/
def value (M : Interpretation D) (ρ : String → D) : Pattern → D
  | .var name => ρ name
  | .literal v => M.node (.literal v)
  | .sign s => M.node (.sign s)
  | .symbol name => M.node (.symbol name)
  | .derived fn left right => M.node (.derived fn (M.value ρ left) (M.value ρ right))
  | .binary op w wa sa a wb sb b =>
    M.node (.binary op (M.value ρ w) (M.value ρ wa) (M.value ρ sa) (M.value ρ a)
      (M.value ρ wb) (M.value ρ sb) (M.value ρ b))

/-- The value of a layer is that of its node over the values of its slots. -/
theorem value_ofNode (M : Interpretation D) (ρ : String → D) (n : Node Pattern) :
    M.value ρ (.ofNode n) = M.node (n.map (M.value ρ)) := by
  cases n <;> rfl

/-- A value is that of the literal `v`, or of a sign that counts as `v`. -/
def HasConstant (M : Interpretation D) (d : D) (v : Binary64) : Prop :=
  d = M.node (.literal v) ∨ ∃ s, d = M.node (.sign s) ∧
    v.withoutMinusZero = .ofNat s.code

/-- Widths computed from numbers in `ok` have the value of their result, if it is in
`ok`. -/
def FoldsOn (M : Interpretation D) (ok : Binary64 → Prop) : Prop :=
  ∀ {fn x y a b}, M.HasConstant x a → M.HasConstant y b → ok a → ok b →
    ok (fn.eval a b) → M.derived fn x y = M.node (.literal (fn.eval a b))

/-- The condition of an equation holds of constants in `ok` that its variables
have. -/
def EnablesOn (M : Interpretation D) (ok : Binary64 → Prop) (ρ : String → D) :
    Option Condition → Prop
  | none => True
  | some c =>
      ∃ values,
        List.Forall₂ (fun name v => M.HasConstant (ρ name) v ∧ ok v) c.vars values ∧
        c.check values = true

/-- The sides of an equation have the same value wherever constants in `ok` let it be
applied. -/
def ValidatesOn (M : Interpretation D) (ok : Binary64 → Prop)
    (eqn : Equation) : Prop :=
  ∀ ρ, M.EnablesOn ok ρ eqn.condition → M.value ρ eqn.lhs = M.value ρ eqn.rhs

variable {M : Interpretation D}

@[simp] theorem node_key (M : Interpretation D) (n : Node D) :
    M.node n.key = M.node n := by
  cases n <;> simp [Node.key, node]

/-- Literals that differ at most in the sign of a zero have the same value. -/
theorem node_literal_congr {v w : Binary64}
    (h : v.withoutMinusZero = w.withoutMinusZero) :
    M.node (.literal v) = M.node (.literal w) := by
  rw [node, node, h]

/-- The semantics in which every node denotes its value. -/
def semantics (M : Interpretation D) : Semantics D where
  Denotes n d := M.node n = d
  unique h h' := h.symm.trans h'

/-- A value shows a number in the semantics if it has it as a constant. -/
theorem shows_iff {d : D} {v : Binary64} :
    M.semantics.Shows d v ↔ M.HasConstant d v := by
  constructor
  · intro hshows
    obtain ⟨m, w, hm, hwv, hd⟩ := hshows
    have hd : M.node m = d := (M.node_key m).symm.trans hd
    cases m with
    | literal a =>
        obtain rfl := Option.some.inj hm
        exact Or.inl (hd.symm.trans (node_literal_congr hwv))
    | sign s =>
        refine Or.inr ⟨s, hd.symm, ?_⟩
        rw [← hwv, ← Option.some.inj hm,
          Binary64.withoutMinusZero_ofNat (by cases s <;> decide)]
    | symbol | derived | binary => cases hm
  · intro hconst
    rcases hconst with rfl | ⟨s, rfl, hv⟩
    · exact ⟨.literal v, v, rfl, rfl, M.node_key _⟩
    · refine ⟨.sign s, .ofNat s.code, rfl, ?_, rfl⟩
      rw [hv, Binary64.withoutMinusZero_ofNat (by cases s <;> decide)]

/-- Folding is the same for an interpretation and for its semantics. -/
theorem FoldsOn.folds {ok : Binary64 → Prop} (h : M.FoldsOn ok) :
    M.semantics.Folds ok := by
  intro fn x y d e a b hd hx hy ha hb hab he
  have hval := h (shows_iff.1 hx) (shows_iff.1 hy) ha hb hab
  exact hd.symm.trans (hval.trans ((M.node_key _).symm.trans he))

end Interpretation

namespace EGraph

variable {M : Interpretation D} {ok : Binary64 → Prop} {ν ν' ν'' : ClassId → D}
  {g g' g'' : EGraph} {id x : ClassId} {node : Node ClassId} {ρ : String → D}
  {s : Subst} {p : Pattern} {ref : Int}

/-! ## Graphs that follow an interpretation -/

/-- The second graph is sound under values that agree with those of the first on its
numbers. -/
structure Follows (M : Interpretation D) (ν : ClassId → D) (g : EGraph)
    (ν' : ClassId → D) (g' : EGraph) : Prop where
  issued_le : g.issued ≤ g'.issued
  agree : ∀ i < g.issued, ν' i = ν i
  sound : Sound M.semantics ν' g'

namespace Follows

theorem refl (h : Sound M.semantics ν g) : Follows M ν g ν g :=
  ⟨le_rfl, fun _ _ => rfl, h⟩

theorem trans (h : Follows M ν g ν' g') (h' : Follows M ν' g' ν'' g'') :
    Follows M ν g ν'' g'' where
  issued_le := h.issued_le.trans h'.issued_le
  agree i hi := by rw [h'.agree i (Nat.lt_of_lt_of_le hi h.issued_le), h.agree i hi]
  sound := h'.sound

end Follows

/-- The new numbers of a repair stand for literals of what the last graph knows about
them. Which values they get must be known before the first step, so the constants are
read off the last graph. -/
theorem Sound.steps (hfold : M.FoldsOn ok) (hz : ZeroBlind ok) (hw : g.WellFormed)
    (h : Sound M.semantics ν g) (hs : Steps g g') (hok : Within ok g') :
    ∃ ν', Follows M ν g ν' g' := by
  let ν' : ClassId → D := fun i =>
    if i < g.issued then ν i else M.node (.literal ((g'.constant? i).getD .nan))
  have hagree : ∀ i < g.issued, ν' i = ν i := fun i hi => if_pos hi
  refine ⟨ν', (Steps.extends hw hs).issued_le, hagree, ?_⟩
  refine Steps.sound hw hfold.folds hz hok (h.congr hw hagree) hs ?_
  intro n c hn _ hc
  have hval : ν' n = M.node (.literal c) := by
    refine (if_neg (Nat.not_lt.2 hn)).trans ?_
    rw [hc, Option.getD_some]
  exact (M.node_key _).trans hval.symm

/-- The constant that a new class starts with is one that the value of its node has.
For a computed width of known arguments this is `hfold`. -/
theorem shows_fold (hfold : M.FoldsOn ok) (hw : g.WellFormed)
    (h : Sound M.semantics ν g)
    (hc : ∀ c ∈ node.children, c < g.issued) (hok : Within ok (g.issue node))
    {c : Binary64} (hfc : g.fold node = some c) :
    M.semantics.Shows (M.node (node.map ν)) c := by
  rw [Interpretation.shows_iff]
  have hnew : ok c := by
    refine hok g.issued ?_ c (by rw [hw.constant?_issue_new, hfc])
    exact issued_lt_issue _ _
  have hold {i : ClassId} {a : Binary64} (hi : i < g.issued)
      (ha : g.constant? i = some a) : ok a := by
    refine hok i ?_ a (by rw [hw.constant?_issue _ hi, ha])
    exact lt_issue hi _
  cases node with
  | literal v => exact Or.inl (by rw [← Option.some.inj hfc]; rfl)
  | sign s =>
      refine Or.inr ⟨s, rfl, ?_⟩
      rw [← Option.some.inj hfc,
        Binary64.withoutMinusZero_ofNat (by cases s <;> decide)]
  | symbol | binary => cases hfc
  | derived fn l r =>
      have hfd : g.foldDerived? (.derived fn l r) = some c := hfc
      obtain ⟨fn, l, r, a, b, heq, ha, hb, rfl⟩ := foldDerived?_inv hfd
      cases heq
      have hl := hc l (by simp [Node.children])
      have hr := hc r (by simp [Node.children])
      exact Or.inl (hfold (Interpretation.shows_iff.1 (h.constant hl ha))
        (Interpretation.shows_iff.1 (h.constant hr hb)) (hold hl ha) (hold hr hb)
        hnew)

/-- The number of a new class stands for the value of its node. -/
theorem Sound.issued (hfold : M.FoldsOn ok) (hw : g.WellFormed)
    (h : Sound M.semantics ν g)
    (hc : ∀ c ∈ node.children, c < g.issued) (hok : Within ok (g.issue node)) :
    ∃ ν', Follows M ν g ν' (g.issue node) ∧ ν' g.issued = M.node (node.map ν) := by
  let ν' : ClassId → D := Function.update ν g.issued (M.node (node.map ν))
  have hagree : ∀ i < g.issued, ν' i = ν i :=
    fun i hi => Function.update_of_ne hi.ne _ _
  have hself : ν' g.issued = M.node (node.map ν) := Function.update_self _ _ _
  have hmap : node.map ν' = node.map ν :=
    Node.map_congr fun c hmem => hagree c (hc c hmem)
  refine ⟨ν', ⟨by rw [issued_issue]; exact Nat.le_succ _, hagree, ?_⟩, hself⟩
  refine (h.congr hw hagree).issue hw ?_ fun c hfc => ?_
  · show M.node (node.key.map ν') = ν' g.issued
    rw [← Node.key_map, M.node_key, hmap, hself]
  · rw [hself]
    exact shows_fold hfold hw h hc hok hfc

/-- An added node has the value of its class. -/
theorem Sound.interned (hfold : M.FoldsOn ok) (hz : ZeroBlind ok) (hw : g.WellFormed)
    (h : Sound M.semantics ν g) (hc : ∀ c ∈ node.children, c < g.issued)
    (hi : EGraph.intern node g = .ok id g') (hok : Within ok g') :
    ∃ ν', Follows M ν g ν' g' ∧ id < g'.issued ∧ ν' id = M.node (node.map ν) := by
  rcases intern_steps hw hc hi with ⟨e, he, rfl, rfl⟩ | ⟨hnew, steps, rfl⟩
  · refine ⟨ν, .refl h, hw.root_lt (hw.owner_lt he), ?_⟩
    have hden : M.node (node.key.map ν) = ν e.owner := h.stored he
    rw [h.root, ← hden, ← Node.key_map, M.node_key]
  · have hwi := hw.issue hnew hc
    obtain ⟨ν₁, hissued, hself⟩ :=
      h.issued hfold hw hc (hok.of_extends hz (Steps.extends hwi steps))
    -- the steps after it unite the new class with its value, if it has one
    obtain ⟨ν', hν'⟩ := hissued.sound.steps hfold hz hwi steps hok
    have hlt : g.issued < (g.issue node).issued := issued_lt_issue _ _
    refine ⟨ν', hissued.trans hν', ?_, ?_⟩
    · exact (Steps.wellFormed hwi steps).root_lt
        (Nat.lt_of_lt_of_le hlt hν'.issued_le)
    · rw [hν'.sound.root, hν'.agree _ hlt, hself]

/-- The same for nodes of references. -/
theorem Sound.added (hfold : M.FoldsOn ok) (hz : ZeroBlind ok) (hw : g.WellFormed)
    (h : Sound M.semantics ν g) {node : Node Int}
    (ha : EGraph.add node g = .ok id g') (hok : Within ok g') :
    ∃ ν', Follows M ν g ν' g' ∧ id < g'.issued ∧
      ν' id = M.node (node.map fun ref => ν ref.toNat) := by
  obtain ⟨hc, hi⟩ := add_inv ha
  have hcanon := canonical_children hw (children_toNat_lt hc)
  obtain ⟨ν', hν', hlt, hval⟩ :=
    h.interned hfold hz hw (fun c hmem => (hcanon c hmem).1) hi hok
  refine ⟨ν', hν', hlt, ?_⟩
  rw [hval, canonical, Node.map_map, Node.map_map]
  exact congrArg M.node (Node.map_congr fun c _ => h.root _)

/-! ## Values of instances -/

/-- Every variable that a substitution binds has the value of its class. -/
def Valued (ν : ClassId → D) (s : Subst) (ρ : String → D) : Prop :=
  ∀ name ref, s.get? name = some ref → ν ref.toNat = ρ name

theorem Valued.follows (h : Valued ν s ρ) (hs : g.BoundIn s)
    (hf : Follows M ν g ν' g') : Valued ν' s ρ :=
  fun name ref hget => (hf.agree _ (hs name ref hget).2).trans (h name ref hget)

/-- The class of an instance has the value of the pattern, by induction on the
pattern: the children of the layer have the values of the slots. -/
theorem Sound.value_of_realizes (h : Sound M.semantics ν g) (hρ : Valued ν s ρ)
    (hp : g.Realizes s p x) : M.value ρ p = ν x := by
  induction p using Pattern.layers generalizing x with
  | var name =>
      obtain ⟨r, hs, hroot⟩ := hp
      exact (hρ name r hs).symm.trans (h.of_root_eq hroot)
  | node n ih =>
      obtain ⟨m, hrel, hm⟩ := Pattern.occurs_ofNode.1 hp
      have hchildren : n.Rel (fun q k => M.value ρ q = k) (m.map ν) :=
        Node.Rel.map_right.2 (hrel.imp fun q hq c _ hc => ih q hq hc)
      have hden : M.node (m.key.map ν) = ν x := h.denotes_of_represents hm
      rw [M.value_ofNode, Node.Rel.iff_map_eq.1 hchildren, ← M.node_key,
        Node.key_map, hden]

/-- The classes that a substitution binds variables to have the values of the
variables. -/
def Binds (g : EGraph) (ν : ClassId → D) (s : Subst) (ρ : String → D) : Prop :=
  ∀ name ref, s.get? name = some ref → g.Issued ref ∧ ν ref.toNat = ρ name

namespace Binds

theorem boundIn (h : Binds g ν s ρ) : g.BoundIn s :=
  fun name ref hs => (h name ref hs).1

theorem valued (h : Binds g ν s ρ) : Valued ν s ρ :=
  fun name ref hs => (h name ref hs).2

theorem follows (h : Binds g ν s ρ) (hf : Follows M ν g ν' g') :
    Binds g' ν' s ρ := by
  intro name ref hs
  obtain ⟨⟨hnonneg, hlt⟩, hval⟩ := h name ref hs
  exact ⟨⟨hnonneg, Nat.lt_of_lt_of_le hlt hf.issued_le⟩, (hf.agree _ hlt).trans hval⟩

end Binds

/-- A reference means a class of the given value. -/
structure Means (g : EGraph) (ν : ClassId → D) (ref : Int) (d : D) : Prop where
  lt : ref.toNat < g.issued
  eq : ν ref.toNat = d

theorem Means.follows {d : D} (h : Means g ν ref d) (hf : Follows M ν g ν' g') :
    Means g' ν' ref d :=
  ⟨Nat.lt_of_lt_of_le h.lt hf.issued_le, (hf.agree _ h.lt).trans h.eq⟩

/-- An added pattern has the value of its class. -/
theorem Sound.instantiated (hfold : M.FoldsOn ok) (hz : ZeroBlind ok)
    (hw : g.WellFormed) (h : Sound M.semantics ν g) (hρ : Binds g ν s ρ)
    (hi : instantiate s p g = .ok ref g')
    (hok : Within ok g') :
    ∃ ν', Follows M ν g ν' g' ∧ Means g' ν' ref (M.value ρ p) := by
  have hadd : ∀ n, .ofNode n ∈ p.parts → ∀ t m t' id, t.WellFormed →
      (Within ok t → ∃ ν', Follows M ν g ν' t) → n.Rel (t.Refers s) m →
      EGraph.add m t = .ok id t' →
        Within ok t' → ∃ ν', Follows M ν g ν' t' := by
    intro n _ t m t' id hwt ht _ ha hokt
    obtain ⟨ν₁, f₁⟩ := ht (hokt.of_extends hz ((add_call hwt ha).extends hwt))
    obtain ⟨ν', f', -⟩ := f₁.sound.added hfold hz hwt ha hokt
    exact ⟨ν', f₁.trans f'⟩
  -- the constants of the last graph are known to be in `ok`, those of earlier ones
  -- follow
  obtain ⟨hsound, hrefers⟩ :=
    instantiate_induction hadd hw hρ.boundIn (fun _ => ⟨ν, .refl h⟩) hi
  obtain ⟨ν', f'⟩ := hsound hok
  exact ⟨ν', f', hrefers.1.2,
    (f'.sound.value_of_realizes (hρ.follows f').valued hrefers.2).symm⟩

end EGraph

end Datapath

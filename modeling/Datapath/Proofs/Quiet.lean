import Datapath.Proofs.Confluence
import Datapath.Proofs.Evaluated

/-!
# Datapath.Proofs.Quiet

Rounds that unite nothing.

Such a round may still add to the graph: an application adds its right side before it
finds that its class is the one it was made at, and a computed width that is added is
united with its number without being counted. What the round adds says nothing new
about the classes that were there (`Quiet`). In the completion of the snapshot with
which the round began every application has the value of its class, so each class of
the graph has the value of a class that was there or of a number
(`Completed.IsElementary`), and by this value it is found again (`located`). The
induction is on the age of classes, as each has a node over older ones (`Founded`).
-/

namespace Datapath

namespace EGraph

variable {g g' : EGraph} {node : Node ClassId}

/-! ## Nodes over older classes -/

/-- Every class has a node whose children are older. -/
def Founded (g : EGraph) : Prop :=
  ∀ x < g.issued, ∃ m, g.Represents m x ∧ ∀ c ∈ m.children, c < x

/-- A node that is given a class stands over classes that were there before it. -/
theorem Founded.issue (hw : g.WellFormed) (h : g.Founded)
    (hnew : g.table.get? node.key = none)
    (hc : ∀ c ∈ node.children, c < g.issued) : (g.issue node).Founded := by
  intro x hx
  rw [issued_issue] at hx
  rcases Nat.lt_succ_iff_lt_or_eq.1 hx with hlt | rfl
  · obtain ⟨m, hm, hchild⟩ := h x hlt
    exact ⟨m, (hw.extends_issue hnew).represents hm, hchild⟩
  · exact ⟨node, represents_issue g node, hc⟩

theorem Founded.of_extends (h : g.Founded) (hext : Extends g g')
    (hissued : g'.issued = g.issued) : g'.Founded := by
  intro x hx
  rw [hissued] at hx
  obtain ⟨m, hm, hchild⟩ := h x hx
  exact ⟨m, hext.represents hm, hchild⟩

/-- Every class that changes lead to has a node over older classes: numbers are only
ever given to nodes whose children have theirs. -/
theorem Changes.founded (hw : g.WellFormed) (h : g.Founded) (c : Changes g g') :
    g'.Founded := by
  induction c with
  | refl => exact h
  | @tail t t' c₁ c₂ ih =>
      have ht := Changes.wellFormed hw c₁
      cases c₂ with
      | issue children fresh => exact ih.issue ht fresh children
      | unite left right union =>
          exact ih.of_extends (ht.extends_unite left right union)
            (issued_unite ht left right union)
      | step step =>
          rcases step.issued_cases ht with hissued | ⟨v, rfl, hnew, -⟩
          · exact ih.of_extends (step.extends ht) hissued
          · exact ih.issue ht hnew (by simp [Node.children])

theorem Rebuilt.founded (hg : g.Rebuilt) : g.Founded :=
  Changes.founded wellFormed_empty (fun x hx => absurd hx (Nat.not_lt_zero x))
    (Calls.changes wellFormed_empty hg.calls)

end EGraph

/-! ## Values in a quiet round -/

/-- A given value, or that of a literal or a sign. -/
def Completed.IsElementary {D : Type} : Completed D → Prop
  | .known _ => True
  | .free n => ∃ v, n.value? = some v

namespace Semantics

open Completed

variable {D : Type} {S : Semantics D} {d : D} {n : Node (Completed D)}
  {ρ : String → Completed D} {p : Pattern}

/-- What is known as a number is an elementary value. -/
theorem isElementary_of_number {c : Completed D} {v : Binary64}
    (h : S.number c = some v) : c.IsElementary := by
  cases c with
  | known d => trivial
  | free n =>
      obtain ⟨w, hw, -⟩ := Option.map_eq_some_iff.1 h
      exact ⟨w, hw⟩

/-- Where a node that is entered as it is has an elementary value, its children
have. -/
theorem isElementary_of_place (h : (S.place n).IsElementary) :
    ∀ c ∈ n.children, c.IsElementary := by
  intro c hc
  rcases S.place_cases n with ⟨m, d, rfl, -, -⟩ | hplace
  · rw [Node.children_map] at hc
    obtain ⟨k, -, rfl⟩ := List.mem_map.1 hc
    trivial
  · rw [hplace] at h
    obtain ⟨v, hv⟩ := h
    cases n with
    | literal | sign => exact absurd hc List.not_mem_nil
    | symbol | derived | binary => cases hv

/-- Where a node has an elementary value, its children have. -/
theorem isElementary_of_completion (h : (S.completion.node n).IsElementary) :
    ∀ c ∈ n.children, c.IsElementary := by
  intro c hc
  by_cases hn : n.IsDerived
  · cases n with
    | literal | sign | symbol | binary => exact hn.elim
    | derived fn x y =>
      change (S.completion.derived fn x y).IsElementary at h
      simp only [completion] at h
      split at h
      · next a b hx hy =>
        simp only [Node.children, List.mem_cons, List.not_mem_nil, or_false] at hc
        rcases hc with rfl | rfl
        · exact isElementary_of_number hx
        · exact isElementary_of_number hy
      · exact isElementary_of_place h c hc
  · rw [completion_node hn] at h
    exact isElementary_of_place h c (by rwa [Node.children_key])

/-- Where a pattern has an elementary value, its parts have. -/
theorem isElementary_of_part (h : (S.completion.value ρ p).IsElementary)
    {q : Pattern} (hq : q ∈ p.parts) : (S.completion.value ρ q).IsElementary := by
  induction p using Pattern.layers with
  | var name =>
      obtain rfl := List.mem_singleton.1 hq
      exact h
  | node n ih =>
      rcases Pattern.mem_parts_ofNode.1 hq with rfl | ⟨c, hc, hq⟩
      · exact h
      · rw [Interpretation.value_ofNode] at h
        refine ih c hc (isElementary_of_completion h _ ?_) hq
        rw [Node.children_map]
        exact List.mem_map_of_mem hc

/-- Other nodes than numbers and computed widths have an elementary value only if it
is a given one. -/
theorem exists_known_of_isElementary {n : Node Pattern}
    (hderived : (Pattern.ofNode n).Underived)
    (hn : n.value? = none) (hp : p = .ofNode n)
    (h : (S.completion.value ρ p).IsElementary) :
    ∃ d, S.completion.value ρ p = known d := by
  subst hp
  rw [Interpretation.value_ofNode,
    completion_node (by rw [Node.isDerived_map]; exact hderived.not_isDerived)]
    at h ⊢
  rcases S.place_cases (n.map (S.completion.value ρ)).key with
    ⟨-, d, -, -, hplace⟩ | hplace
  · exact ⟨d, hplace⟩
  · rw [hplace] at h
    obtain ⟨v, hv⟩ := h
    cases n with
    | literal | sign => exact absurd hn (Option.some_ne_none _)
    | symbol | derived | binary => cases hv

/-- A pattern without computed widths that has a given value occurs there. -/
theorem occurs_of_value (hkey : ∀ {m k}, S.Denotes (Node.key m) k ↔ S.Denotes m k)
    (hp : p.Underived) (h : S.completion.value ρ p = known d) :
    p.Occurs (fun name k => ρ name = known k) S.Denotes d := by
  induction p using Pattern.layers generalizing d with
  | var name => exact h
  | node n ih =>
      rw [Interpretation.value_ofNode] at h
      obtain ⟨m, hm, hden⟩ :=
        exists_of_completion (by rw [Node.isDerived_map]; exact hp.not_isDerived) h
      refine (Pattern.occurs_ofNode_key hkey).2 ⟨m, ?_, hden⟩
      rw [Node.key_map] at hm
      refine (Node.Rel.map_right.1 (Node.Rel.iff_map_eq.2 hm)).imp
        fun q hq c _ hval => ?_
      rw [Node.children_key] at hq
      exact ih q hq (hp.child hq) hval

end Semantics

namespace EGraph

open Completed

variable {t u u' g g' : EGraph} {equations : List Equation} {apps : List Application}
  {app : Application} {o : Options} {id x y : ClassId} {node : Node ClassId}
  {s : Subst} {p : Pattern} {ref : Int}

/-! ## Quiet rounds -/

/-- The graph `u` is one to which a round that began in `t` leads without uniting
classes: it says nothing new about the classes of `t`, and all others are those of
numbers. -/
structure Quiet (t u : EGraph) : Prop where
  evaluated : u.Evaluated fun _ => True
  grows : Extends t u
  constant : ∀ x < t.issued, u.constant? x = t.constant? x
  values : ∃ ν, Follows t.snapshot.completion (fun i => known (t.root i)) t ν u ∧
    Ranges IsElementary ν u

namespace Quiet

theorem refl (ht : t.Rebuilt) : Quiet t t where
  evaluated := ht.repaired.evaluated
  grows := .refl t
  constant _ _ := rfl
  values := ⟨_, .refl (ht.sound_snapshot.completed ht.repaired.closed),
    fun _ _ => trivial⟩

theorem wellFormed (h : Quiet t u) : u.WellFormed := h.evaluated.wellFormed

/-- An application that unites nothing keeps a round quiet. Its right side has the
value of the class it was made at, so what is added for it has elementary values, and
it is represented in this class. -/
theorem applyAt (ht : t.Rebuilt) (h : Quiet t u) (hid : app.id < t.issued)
    (hs : t.BoundIn app.subst) (ha : EGraph.applyAt app u = .ok false u') :
    Quiet t u' ∧ u'.Realizes app.subst app.equation.rhs app.id := by
  have hw := h.wellFormed
  have hsu := hs.of_extends h.grows
  obtain ⟨ν, hf, hν⟩ := h.values
  have hclosed := ht.repaired.closed
  have hbinds : Binds t (fun i => known (t.root i)) app.subst
      fun name => known (image t.root app.subst name) :=
    fun name r hget => ⟨hs name r hget, congrArg known (image_eq hget).symm⟩
  -- the right side has the value of its class, so its parts are classes of `t` or
  -- numbers
  have hvalue := (hf.quiet hclosed.foldsOn hw hid hbinds ha).2
  have hparts : ∀ q ∈ app.equation.rhs.parts, (t.snapshot.completion.value
      (fun name => known (image t.root app.subst name)) q).IsElementary :=
    fun q hq => Semantics.isElementary_of_part (by rw [hvalue]; trivial) hq
  obtain ⟨ref, u₁, hi, -, -, ⟨-, hroot, rfl⟩ | ⟨htrue, -⟩⟩ := applyAt_cases ha
  · have hext := Calls.extends hw (instantiate_calls hw hi)
    obtain ⟨ν', hf', hν'⟩ := hf.sound.instantiate_ranges hclosed.foldsOn hw hν hsu
      (hbinds.follows hf).valued hparts hi
    refine ⟨⟨h.evaluated.instantiate (fun _ _ => trivial) hsu hi, h.grows.trans hext,
      fun x hx => ?_, ν', hf.trans hf', hν'⟩, ?_⟩
    · -- the constants of the classes of `t` are not touched by adding nodes
      rw [constant?_instantiate hw hsu hi (Nat.lt_of_lt_of_le hx h.grows.issued_le),
        h.constant x hx]
    · exact (refers_of_instantiate hw hsu hi).2.congr hroot.symm
  · cases htrue

theorem steps (ht : t.Rebuilt) (h : Quiet t u) (hsteps : Steps u u') :
    Quiet t u' := by
  obtain ⟨ν, hf, hν⟩ := h.values
  obtain ⟨ν', hf', hν'⟩ :=
    hf.sound.steps_ranges ht.repaired.closed.foldsOn h.wellFormed hν hsteps
  obtain ⟨hevaluated, -, hconst⟩ := h.evaluated.steps hsteps
  refine ⟨hevaluated, h.grows.trans (Steps.extends h.wellFormed hsteps), fun x hx =>
    ?_, ν', hf.trans hf', hν'⟩
  rw [hconst, h.constant x hx]

end Quiet

/-! ## Classes of a quiet round -/

section

variable {ν : ClassId → Completed ClassId}

/-- What the value of a class says of it: it is the class of `t` that the value is,
and it has the number that the value shows. -/
structure Located (t g : EGraph) (ν : ClassId → Completed ClassId)
    (z : ClassId) : Prop where
  root_eq : ∀ k, ν z = known k → g.root z = g.root k
  constant : ∀ a, t.snapshot.number (ν z) = some a →
    ∃ c, g.constant? z = some c ∧ c.withoutMinusZero = a.withoutMinusZero

/-- A class is located if one of its nodes is, whose children are: the snapshot names
the class of `t` that held the node, or the node is a number. -/
theorem located_of_place (ht : t.Rebuilt) (hg : g.Settled) (hw : g.WellFormed)
    (hext : Extends t g) {z : ClassId} (hm : g.Represents node z)
    (hchild : ∀ c ∈ node.children, ∀ k, ν c = known k → g.root c = g.root k)
    (hz : ν z = t.snapshot.place (node.key.map ν)) : Located t g ν z := by
  -- a value that is a class comes from a node of it, which has become one with this
  -- one
  have hroot (k : ClassId) (hk : ν z = known k) : g.root z = g.root k := by
    obtain ⟨m, hmap, hden⟩ := Semantics.exists_of_place (hz.symm.trans hk)
    obtain ⟨hrep, -⟩ := represents_of_snapshot ht.wellFormed hden
    refine hg.root_eq hm (hext.represents hrep) ?_
    have hrel : node.key.Rel (fun c j => g.root c = g.root j) m :=
      (Node.Rel.map_right.1 (Node.Rel.iff_map_eq.2 hmap)).imp fun c hc j _ hcj =>
        hchild c (by rwa [Node.children_key] at hc) j hcj
    have heq : node.key.map g.root = m.map g.root :=
      Node.Rel.iff_map_eq.1 (Node.Rel.map_right.2 hrel)
    rw [← Node.key_map _ m, ← heq, Node.key_map, Node.key_key]
  refine ⟨hroot, fun a ha => ?_⟩
  rcases Semantics.place_cases t.snapshot (node.key.map ν) with
    ⟨m, k, -, hden, hplace⟩ | hplace
  · -- a named class shows the constant that it had in the snapshot
    rw [hz, hplace] at ha
    obtain ⟨c, hc, hca⟩ :=
      ht.repaired.constant?_of_shows (Semantics.shows_of_number ha)
    have hlt : k < t.issued :=
      ((mem_classIds ht.wellFormed).1 (ht.mem_of_snapshot hden).1).1
    obtain ⟨d, hd, hdc⟩ := hext.constant hlt hc
    refine ⟨d, ?_, hdc.trans hca⟩
    rw [← hw.constant?_root, hroot k (hz.trans hplace), hw.constant?_root, hd]
  · rw [hz, hplace] at ha
    obtain ⟨v, hv, rfl⟩ := Option.map_eq_some_iff.1 ha
    rw [Node.value?_map] at hv
    obtain ⟨c, hc, hcv⟩ := hg.constant?_of_represents hw (represents_key.2 hm) hv
    exact ⟨c, hc, by rw [hcv, Binary64.withoutMinusZero_idem]⟩

/-- Every class is located, by induction on its age. -/
theorem located (ht : t.Rebuilt) (hg : g.Evaluated fun _ => True)
    (hfounded : g.Founded) (hext : Extends t g)
    (hsound : Sound t.snapshot.completion.semantics ν g) {z : ClassId}
    (hz : z < g.issued) : Located t g ν z := by
  induction z using Nat.strong_induction_on with
  | _ z ih =>
      have hw := hg.wellFormed
      obtain ⟨m, hm, hchild⟩ := hfounded z hz
      have hat : ∀ c ∈ m.children, Located t g ν c := fun c hc =>
        ih c (hchild c hc) (Nat.lt_trans (hchild c hc) hz)
      have hval : t.snapshot.completion.node (m.map ν) = ν z := by
        rw [← Interpretation.node_key, Node.key_map]
        exact hsound.denotes_of_represents hm
      have hplaced (h : ν z = t.snapshot.place (m.key.map ν)) : Located t g ν z :=
        located_of_place ht hg.settled hw hext hm (fun c hc => (hat c hc).root_eq) h
      by_cases hderived : m.IsDerived
      · cases m with
        | literal | sign | symbol | binary => exact hderived.elim
        | derived fn l r =>
          change t.snapshot.completion.derived fn (ν l) (ν r) = ν z at hval
          simp only [Semantics.completion] at hval
          split at hval
          · next a b ha hb =>
            -- the class holds the literal of the width
            obtain ⟨c, hc, hca⟩ := (hat l (by simp [Node.children])).constant a ha
            obtain ⟨d, hd, hdb⟩ := (hat r (by simp [Node.children])).constant b hb
            exact located_of_place ht hg.settled hw hext
              (hg.represents_value hm hc hca hd hdb)
              (fun c hc => absurd hc List.not_mem_nil) hval.symm
          · exact hplaced hval.symm
      · rw [Semantics.completion_node (by rwa [Node.isDerived_map]),
          Node.key_map] at hval
        exact hplaced hval.symm

end

end EGraph

end Datapath

import Datapath.Proofs.Applications

/-!
# Datapath.Proofs.OutputWidths

The output widths of operations in one class.

All operations of one class have the same output width (`Uniform`): an equation of
the catalog has the same variable as the output width of both sides, and other unions
are of classes without operations or of congruent nodes.
-/

namespace Datapath

/-! ## Output widths and operands -/

namespace Node

variable {α β : Type} {R : α → β → Prop} {m : Node α} {n : Node β}

/-- The output width of an operation. -/
def outputWidth? : Node α → Option α
  | .binary _ w .. => some w
  | _ => none

/-- The operands of an operation: the declared width and the expression of each. -/
def operands : Node α → List (α × α)
  | .binary _ _ wa _ a wb _ b => [(wa, a), (wb, b)]
  | _ => []

@[simp] theorem outputWidth?_key (n : Node α) :
    n.key.outputWidth? = n.outputWidth? := by
  cases n <;> rfl

@[simp] theorem outputWidth?_map (f : α → β) (n : Node α) :
    (n.map f).outputWidth? = n.outputWidth?.map f := by
  cases n <;> rfl

@[simp] theorem operands_key (n : Node α) : n.key.operands = n.operands := by
  cases n <;> rfl

@[simp] theorem operands_map (f : α → β) (n : Node α) :
    (n.map f).operands = n.operands.map (Prod.map f f) := by
  cases n <;> rfl

theorem outputWidth?_eq_of_map_eq {f : α → β} {k : Node α}
    (h : k.map f = m.key.map f) : k.outputWidth?.map f = m.outputWidth?.map f := by
  simpa using congrArg outputWidth? h

theorem operands_eq_of_map_eq {f : α → β} {k : Node α} (h : k.map f = m.key.map f) :
    k.operands.map (Prod.map f f) = m.operands.map (Prod.map f f) := by
  simpa using congrArg operands h

/-- Related nodes have related output widths. -/
theorem Rel.outputWidth? (h : m.Rel R n) {b : β} (hb : n.outputWidth? = some b) :
    ∃ a, m.outputWidth? = some a ∧ R a b := by
  obtain ⟨hhead, hall⟩ := h
  cases n <;> cases hb
  cases m <;> cases hhead
  simp only [children, List.forall₂_cons] at hall
  exact ⟨_, rfl, hall.1⟩

/-- Related nodes have related operands. -/
theorem Rel.operands (h : m.Rel R n) {b : β × β} (hb : b ∈ n.operands) :
    ∃ a ∈ m.operands, R a.1 b.1 ∧ R a.2 b.2 := by
  obtain ⟨hhead, hall⟩ := h
  cases n with
  | literal | sign | symbol | derived => exact absurd hb List.not_mem_nil
  | binary =>
      cases m <;> cases hhead
      simp only [children, List.forall₂_cons] at hall
      obtain ⟨-, hwa, -, ha, hwb, -, hb', -⟩ := hall
      simp only [Node.operands, List.mem_cons, List.not_mem_nil, or_false] at hb
      rcases hb with rfl | rfl
      · exact ⟨_, List.mem_cons_self, hwa, ha⟩
      · exact ⟨_, List.mem_cons_of_mem _ List.mem_cons_self, hwb, hb'⟩

end Node

namespace EGraph

variable {g g' G : EGraph} {x y w l id : ClassId} {key k node : Node ClassId}
  {e e' : Entry} {ℓ : Option ClassId} {s : Subst} {p : Pattern} {ref : Int}
  {app : Application} {eqn : Equation} {equations : List Equation} {o : Options}

/-! ## Uniform classes -/

/-- All stored nodes of the class of `x` have the given output width, or none. -/
def HasWidth (g : EGraph) (x : ClassId) (ℓ : Option ClassId) : Prop :=
  ∀ ⦃key e⦄, g.table.get? key = some e → g.root e.owner = g.root x →
    key.outputWidth?.map g.root = ℓ

/-- The stored nodes of a class agree about their output width. -/
def Uniform (g : EGraph) : Prop := ∀ x, ∃ ℓ, g.HasWidth x ℓ

theorem HasWidth.congr (h : g.HasWidth x ℓ) (heq : g.root y = g.root x) :
    g.HasWidth y ℓ :=
  fun _ _ he ho => h he (ho.trans heq)

theorem Uniform.hasWidth (h : g.Uniform) (he : g.table.get? key = some e)
    (ho : g.root e.owner = g.root x) :
    g.HasWidth x (key.outputWidth?.map g.root) := by
  obtain ⟨ℓ, hℓ⟩ := h x
  rw [hℓ he ho]
  exact hℓ

/-- Represented nodes have the output width of their class. -/
theorem Uniform.hasWidth_of_represents (h : g.Uniform) (hrep : g.Represents node x) :
    g.HasWidth x (node.outputWidth?.map g.root) := by
  obtain ⟨key, e, he, hkey, ho⟩ := hrep
  rw [← Node.outputWidth?_eq_of_map_eq hkey]
  exact h.hasWidth he ho

theorem uniform_empty : empty.Uniform :=
  fun _ => ⟨none, fun _ _ he => by simp [empty] at he⟩

theorem Uniform.of_sameContent (h : g.Uniform) (hs : SameContent g g') :
    g'.Uniform := by
  intro x
  obtain ⟨ℓ, hℓ⟩ := h x
  refine ⟨ℓ, fun key e he ho => ?_⟩
  rw [hs.table] at he
  rw [hs.root, hs.root] at ho
  rw [funext hs.root]
  exact hℓ he ho

/-- A node that is given a class is the only one there. -/
theorem Uniform.issue (hw : g.WellFormed) (h : g.Uniform) :
    (g.issue node).Uniform := by
  have hroot : (g.issue node).root = g.root :=
    funext fun i => root_issue hw.ranked node i
  intro x
  by_cases hx : g.root x = g.issued
  · refine ⟨node.outputWidth?.map g.root, fun key e he ho => ?_⟩
    rw [hroot] at ho ⊢
    rcases get?_issue_inv he with ⟨rfl, -⟩ | he
    · rw [Node.outputWidth?_key]
    · exact absurd (ho.trans hx) (hw.root_lt (hw.owner_lt he)).ne
  · obtain ⟨ℓ, hℓ⟩ := h x
    refine ⟨ℓ, fun key e he ho => ?_⟩
    rw [hroot] at ho ⊢
    rcases get?_issue_inv he with ⟨-, rfl⟩ | he
    · rw [hw.root_of_le le_rfl] at ho
      exact absurd ho.symm hx
    · exact hℓ he ho

/-- The union of two classes with one output width is uniform. -/
theorem Uniform.absorb (hw : g.WellFormed) (h : g.Uniform) (hj : Joinable g w l)
    (hwinner : g.HasWidth w ℓ) (hloser : g.HasWidth l ℓ) :
    (g.absorb w l).Uniform := by
  -- after the union, a root is what it was, except that the winner stands for the
  -- loser
  have hmap (key : Node ClassId) : key.outputWidth?.map (g.absorb w l).root =
      (key.outputWidth?.map g.root).map fun i => if i = l then w else i := by
    rw [Option.map_map]
    exact congrArg (Option.map · _) (funext fun i => hj.root hw i)
  intro x
  by_cases hx : (g.absorb w l).root x = w
  · refine ⟨ℓ.map fun i => if i = l then w else i, fun key e he ho => ?_⟩
    rw [hx, hj.root hw] at ho
    rw [hmap]
    split at ho
    · next hl => rw [hloser he (hl.trans hj.loser_root.symm)]
    · rw [hwinner he (ho.trans hj.winner_root.symm)]
  · obtain ⟨ℓ', hℓ'⟩ := h x
    refine ⟨ℓ'.map fun i => if i = l then w else i, fun key e he ho => ?_⟩
    rw [hmap, hℓ' he]
    rw [hj.root hw] at hx ho
    rw [hj.root hw] at ho
    split at hx
    · exact absurd rfl hx
    · next hxl =>
      rw [if_neg hxl] at ho
      split at ho
      · exact absurd ho.symm hx
      · exact ho

theorem Uniform.unite (hw : g.WellFormed) (h : g.Uniform) {z : ClassId}
    (hx : x < g.issued) (hy : y < g.issued) (hxw : g.HasWidth x ℓ)
    (hyw : g.HasWidth y ℓ) (hu : EGraph.unite x y g = .ok z g') : g'.Uniform := by
  rcases unite_cases hw hx hy hu with ⟨-, rfl, -⟩ | ⟨w, l, hj, rfl, -, hroots⟩
  · exact h
  · rcases hroots with ⟨hw', hl⟩ | ⟨hl, hw'⟩
    · exact h.absorb hw hj (hxw.congr (by rw [← hw', hw.root_root]))
        (hyw.congr (by rw [← hl, hw.root_root]))
    · exact h.absorb hw hj (hyw.congr (by rw [← hw', hw.root_root]))
        (hxw.congr (by rw [← hl, hw.root_root]))

theorem HasWidth.dropKey (h : g.HasWidth x ℓ) (key : Node ClassId)
    (owner : ClassId) : (g.dropKey key owner).HasWidth x ℓ := by
  intro k e he ho
  exact h (get?_dropKey_inv he).2 ho

theorem Uniform.dropKey (h : g.Uniform) (key : Node ClassId) (owner : ClassId) :
    (g.dropKey key owner).Uniform := fun x => by
  obtain ⟨ℓ, hℓ⟩ := h x
  exact ⟨ℓ, hℓ.dropKey key owner⟩

theorem outputWidth?_canonical (hw : g.WellFormed) (node : Node ClassId) :
    (g.canonical node).key.outputWidth?.map g.root =
      node.outputWidth?.map g.root := by
  rw [Node.outputWidth?_key, canonical, Node.outputWidth?_map, Option.map_map]
  exact congrArg (Option.map · _) (funext hw.root_root)

/-- An entry that moves to its canonical key keeps its output width up to
equality. -/
theorem Uniform.restore (hw : g.WellFormed) (h : g.Uniform)
    (he : g.table.get? e.key = some e) :
    (g.restore e (g.canonical e.node) (g.root e.owner)).Uniform := by
  have hroot : (g.restore e (g.canonical e.node) (g.root e.owner)).root = g.root :=
    funext (restore_sameFrame g e _ _).root
  intro x
  obtain ⟨ℓ, hℓ⟩ := h x
  refine ⟨ℓ, fun key e' he' ho => ?_⟩
  rw [hroot] at ho ⊢
  rcases get?_restore_inv he he' with ⟨rfl, rfl⟩ | ⟨-, -, he'⟩
  · rw [hw.root_root] at ho
    rw [outputWidth?_canonical hw, ← Node.outputWidth?_key]
    exact hℓ he ho
  · exact hℓ he' ho

/-- Repairs keep classes uniform: what they unite are congruent nodes, or classes of
numbers, in which there is no operation. -/
theorem Step.uniform (hw : g.WellFormed) (h : g.Uniform) (s : Step g g') :
    g'.Uniform := by
  cases s with
  | literal => exact h.issue hw
  | @fold _ _ _ _ x y _ _ _ _ _ stored left right value hx hy union =>
      -- neither class has operations
      have hxw : g.HasWidth x none := h.hasWidth value hx.symm
      have hyw : g.HasWidth y none := h.hasWidth stored hy.symm
      exact h.unite hw (lt_of_root_eq hw (hw.owner_lt value) hx)
        (lt_of_root_eq hw (hw.owner_lt stored) hy) hxw hyw union
  | move stored free => exact h.restore hw stored
  | @fuse _ e e' z stored congruent union =>
      -- congruent nodes have one canonical form, and with it one output width
      obtain ⟨-, he'⟩ := congruent?_inv congruent
      have hwidth := h.hasWidth he' rfl
      rw [outputWidth?_canonical hw, ← Node.outputWidth?_key] at hwidth
      refine (h.dropKey e.key _).unite (hw.dropKey stored)
        (hw.root_lt (hw.owner_lt stored)) (hw.owner_lt he') ?_
        (hwidth.dropKey _ _) union
      exact (h.hasWidth stored (hw.root_root _).symm).dropKey _ _
  | note same _ => exact h.of_sameContent same

theorem Uniform.steps (hw : g.WellFormed) (h : g.Uniform) (s : Steps g g') :
    g'.Uniform := by
  induction s with
  | refl => exact h
  | tail s₁ s₂ ih => exact s₂.uniform (Steps.wellFormed hw s₁) ih

theorem Uniform.add (hw : g.WellFormed) (h : g.Uniform) {m : Node Int}
    (ha : EGraph.add m g = .ok id g') : g'.Uniform := by
  obtain ⟨hc, hi⟩ := add_inv ha
  have hlt := fun c hmem => (canonical_children hw (children_toNat_lt hc) c hmem).1
  rcases intern_steps hw hlt hi with ⟨-, -, -, rfl⟩ | ⟨hnew, steps, -⟩
  · exact h
  · exact (h.issue hw).steps (hw.issue hnew hlt) steps

theorem Uniform.instantiate (hw : g.WellFormed) (h : g.Uniform) (hs : g.BoundIn s)
    (hi : EGraph.instantiate s p g = .ok ref g') : g'.Uniform :=
  (instantiate_induction (P := Uniform)
    (fun _ _ _ _ _ _ hwt ht _ ha => ht.add hwt ha) hw hs h hi).1

/-! ## Equations keep classes uniform -/

end EGraph

/-- Both sides of an equation are operations with the same variable as output
width. -/
def Equation.KeepsWidth (eqn : Equation) : Prop :=
  ∃ (name : String) (l r : Node Pattern), eqn.lhs = .ofNode l ∧ eqn.rhs = .ofNode r ∧
    l.outputWidth? = some (.var name) ∧ r.outputWidth? = some (.var name)

namespace EGraph

variable {g g' G : EGraph} {x y w l id : ClassId} {key k node : Node ClassId}
  {e e' : Entry} {ℓ : Option ClassId} {s : Subst} {p q : Pattern} {ref : Int}
  {app : Application} {eqn : Equation} {equations : List Equation} {o : Options}

/-- In the class of an instance the output width is that of the instance. -/
theorem Uniform.hasWidth_of_realizes (h : g.Uniform) {n : Node Pattern}
    {name : String} (hn : n.outputWidth? = some (.var name))
    (hreal : g.Realizes s (.ofNode n) x) (hs : s.get? name = some ref) :
    g.HasWidth x (some (g.root ref.toNat)) := by
  obtain ⟨m, hrel, hrep⟩ := Pattern.occurs_ofNode.1 hreal
  obtain ⟨c, hc, hbound⟩ := hrel.flip.outputWidth? hn
  obtain ⟨ref', hs', hroot⟩ := hbound
  obtain rfl : ref = ref' := Option.some.inj (hs.symm.trans hs')
  have hwidth := h.hasWidth_of_represents hrep
  rwa [hc, Option.map_some, ← hroot] at hwidth

/-- So does the application of an equation that keeps the output width, as the class
of its left side and the class of its right side have the width that the variable is
bound to. -/
theorem Uniform.applyAt (hw : g.WellFormed) (h : g.Uniform)
    (hkeep : app.equation.KeepsWidth) (hs : g.BoundIn app.subst)
    (hlhs : g.Realizes app.subst app.equation.lhs app.id) {b : Bool}
    (ha : EGraph.applyAt app g = .ok b g') : g'.Uniform := by
  obtain ⟨ref, g₁, hi, hid, ⟨-, hlt⟩, hrest⟩ := applyAt_inv ha
  have h₁ := h.instantiate hw hs hi
  rcases hrest with ⟨-, rfl⟩ | ⟨r, hu⟩
  · exact h₁
  · have hcalls := instantiate_calls hw hi
    have hw₁ := Calls.wellFormed hw hcalls
    have hlhs₁ := hlhs.of_extends (Calls.extends hw hcalls)
    obtain ⟨-, hrhs₁⟩ := refers_of_instantiate hw hs hi
    obtain ⟨name, l, r, hl, hr, hlw, hrw⟩ := hkeep
    rw [hl] at hlhs₁
    rw [hr] at hrhs₁
    -- the variable is bound, as it was matched
    obtain ⟨m, hrel, -⟩ := Pattern.occurs_ofNode.1 hlhs₁
    obtain ⟨c, -, width, hbound, -⟩ := hrel.flip.outputWidth? hlw
    have hwl := (h₁.hasWidth_of_realizes hlw hlhs₁ hbound).congr (hw₁.root_root _)
    have hwr := (h₁.hasWidth_of_realizes hrw hrhs₁ hbound).congr (hw₁.root_root _)
    exact h₁.unite hw₁ (hw₁.root_lt hid) (hw₁.root_lt hlt) hwl hwr hu

/-- Rounds of such equations keep the classes uniform. -/
theorem uniform_kept (hE : ∀ eqn ∈ equations, eqn.KeepsWidth) :
    Kept Uniform equations where
  steps hw h hsteps := h.steps hw hsteps
  apply hg _ happs hmem hw hext ht hrun := by
    obtain ⟨heqn, ho⟩ := offered_of_mem_applications hg.wellFormed happs hmem
    exact ht.applyAt hw (hE _ heqn) (ho.boundIn.of_extends hext)
      (ho.realizes.of_extends hext) hrun

end EGraph

end Datapath

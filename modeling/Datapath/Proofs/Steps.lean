import Datapath.Proofs.Computation
import Datapath.Proofs.WellFormed
import Mathlib.Logic.Relation

/-!
# Datapath.Proofs.Steps

Everything that a repair can do, as a step relation.

`EGraph.rebuild` is a loop in a loop in a loop, but it changes the graph in five ways
only: it files the literal of a value that a computed width has, unites such a width
with the literal, stores a node again under its canonical key, drops a node that has
become equal to another one and unites their classes, and keeps lists. `Step` has one
constructor for each, with the reason for which the code does it. `rebuild_steps`
shows that every successful rebuild is a sequence of such steps, so a property of
rebuilds is proved by looking at five cases.
-/

namespace Datapath.EGraph

variable {g g' g'' : EGraph} {id w l x y : ClassId} {key k node : Node ClassId}
  {e e' : Entry}

/-! ## Uniting and entering -/

/-- A node that is stored is looked up, and any other one gets a class. -/
theorem enter_cases {a : ClassId} (h : enter node g = .ok a g') :
    (∃ e, g.table.get? node.key = some e ∧ a = g.root e.owner ∧ g' = g) ∨
      (g.table.get? node.key = none ∧ a = g.issued ∧ g' = g.issue node) := by
  unfold enter at h
  split at h
  · next e he =>
    cases h
    exact Or.inl ⟨e, he, rfl, rfl⟩
  · next he =>
    cases h
    exact Or.inr ⟨he, rfl, rfl⟩

/-- A union leaves the table alone, puts its arguments into one class and returns the
root of it. -/
theorem unite_joins (h : g.WellFormed) {r : ClassId} (hx : x < g.issued)
    (hy : y < g.issued) (hu : unite x y g = .ok r g') :
    g'.table = g.table ∧ g'.root x = g'.root y ∧ r = g'.root x := by
  rcases unite_cases h hx hy hu with ⟨heq, rfl, hr⟩ | ⟨w, l, hj, rfl, hr, hroots⟩
  · exact ⟨rfl, heq, hr⟩
  · refine ⟨table_absorb g w l, ?_⟩
    -- the roots are x and y in one order or the other
    rw [hj.root h, hj.root h, hr]
    rcases hroots with ⟨hxw, hyl⟩ | ⟨hxl, hyw⟩
    · rw [hxw, hyl, if_neg hj.ne, if_pos rfl]
      exact ⟨rfl, rfl⟩
    · rw [hxl, hyw, if_pos rfl, if_neg hj.ne]
      exact ⟨rfl, rfl⟩

theorem issued_unite (h : g.WellFormed) {z : ClassId} (hx : x < g.issued)
    (hy : y < g.issued) (hu : unite x y g = .ok z g') : g'.issued = g.issued := by
  rcases unite_cases h hx hy hu with ⟨-, rfl, -⟩ | ⟨w, l, -, rfl, -⟩
  · rfl
  · exact issued_absorb g w l

/-! ## Steps -/

/-- One change of a graph in the course of a repair. -/
inductive Step : EGraph → EGraph → Prop
  /-- The value of a computed width with known arguments gets a class. -/
  | literal {g : EGraph} {fn : WidthFn} {l r : ClassId} {a b : Binary64} {e : Entry}
      (stored : g.table.get? (.derived fn l r) = some e)
      (left : g.constant? l = some a) (right : g.constant? r = some b)
      (fresh : g.table.get? (Node.literal (fn.eval a b)).key = none) :
      Step g (g.issue (.literal (fn.eval a b)))
  /-- A computed width with known arguments is united with its value. -/
  | fold {g g' : EGraph} {fn : WidthFn} {l r x y z : ClassId} {a b : Binary64}
      {e lit : Entry}
      (stored : g.table.get? (.derived fn l r) = some e)
      (left : g.constant? l = some a) (right : g.constant? r = some b)
      (value : g.table.get? (Node.literal (fn.eval a b)).key = some lit)
      (hx : g.root x = g.root lit.owner) (hy : g.root y = g.root e.owner)
      (union : unite x y g = .ok z g') : Step g g'
  /-- A node is stored again under its canonical key. -/
  | move {g : EGraph} {e : Entry} (stored : g.table.get? e.key = some e)
      (free : g.congruent? e (g.canonical e.node) = none) :
      Step g (g.restore e (g.canonical e.node) (g.root e.owner))
  /-- A node that has become equal to another stored one is dropped and their classes
  are united. -/
  | fuse {g g' : EGraph} {e e' : Entry} {z : ClassId}
      (stored : g.table.get? e.key = some e)
      (congruent : g.congruent? e (g.canonical e.node) = some e')
      (union : unite (g.root e.owner) e'.owner
        (g.dropKey e.key (g.root e.owner)) = .ok z g') : Step g g'
  /-- Lists are kept. -/
  | note {g g' : EGraph} (same : SameContent g g')
      (pending : ∀ p ∈ g'.pending, p ∈ g.pending) : Step g g'

/-- Any number of steps. -/
abbrev Steps : EGraph → EGraph → Prop := Relation.ReflTransGen Step

theorem lt_of_root_eq (h : g.WellFormed) (hy : y < g.issued)
    (hroot : g.root x = g.root y) : x < g.issued := by
  have hlt : g.root x < g.issued := by
    rw [hroot]
    exact h.root_lt hy
  exact (UnionFind.root_lt_iff h.ranked).1 hlt

/-- Every step keeps a graph well-formed. -/
theorem Step.wellFormed (h : g.WellFormed) (s : Step g g') : g'.WellFormed := by
  cases s with
  | literal _ _ _ fresh => exact h.issue fresh (by simp [Node.children])
  | fold stored left right value hx hy union =>
      exact h.unite (lt_of_root_eq h (h.owner_lt value) hx)
        (lt_of_root_eq h (h.owner_lt stored) hy) union
  | move stored free => exact h.restore stored free
  | fuse stored congruent union =>
      have hd := h.dropKey stored
      exact hd.unite (h.root_lt (h.owner_lt stored))
        (h.owner_lt (congruent?_inv congruent).2) union
  | note same pending =>
      exact h.of_sameContent same fun p hp => by
        rw [same.issued]
        exact h.pending_lt p (pending p hp)

theorem Steps.wellFormed (h : g.WellFormed) (s : Steps g g') : g'.WellFormed := by
  induction s with
  | refl => exact h
  | tail _ s ih => exact s.wellFormed ih

/-- Only the literal of a value gets a new number. -/
theorem Step.issued_cases (h : g.WellFormed) (s : Step g g') :
    g'.issued = g.issued ∨
      ∃ v, g' = g.issue (.literal v) ∧ g.table.get? (Node.literal v).key = none ∧
        ∃ fn l r a b e, g.table.get? (.derived fn l r) = some e ∧
          g.constant? l = some a ∧ g.constant? r = some b ∧ v = fn.eval a b := by
  cases s with
  | literal stored left right fresh =>
      exact Or.inr ⟨_, rfl, fresh, _, _, _, _, _, _, stored, left, right, rfl⟩
  | fold stored _ _ value hx hy union =>
      exact Or.inl (issued_unite h (lt_of_root_eq h (h.owner_lt value) hx)
        (lt_of_root_eq h (h.owner_lt stored) hy) union)
  | move stored free =>
      exact Or.inl (restore_sameFrame g _ _ _).issued
  | fuse stored congruent union =>
      have hissued := issued_unite (h.dropKey stored) (h.root_lt (h.owner_lt stored))
        (h.owner_lt (congruent?_inv congruent).2) union
      exact Or.inl hissued
  | note same _ => exact Or.inl same.issued

/-- A step stores nodes again under canonical keys, and literals. -/
theorem Step.stored_cases (h : g.WellFormed) (s : Step g g')
    (he' : g'.table.get? key = some e') : (∃ e, g.table.get? key = some e) ∨
      (∃ k e, g.table.get? k = some e ∧ key = (g.canonical k).key) ∨
        ∃ v, key = (Node.literal v).key := by
  cases s with
  | literal =>
      rcases get?_issue_inv he' with ⟨hkey, -⟩ | he'
      · exact Or.inr (Or.inr ⟨_, hkey⟩)
      · exact Or.inl ⟨_, he'⟩
  | fold stored _ _ value hx hy union =>
      rw [(unite_joins h (lt_of_root_eq h (h.owner_lt value) hx)
        (lt_of_root_eq h (h.owner_lt stored) hy) union).1] at he'
      exact Or.inl ⟨_, he'⟩
  | @move e stored _ =>
      rcases get?_restore_inv stored he' with ⟨rfl, -⟩ | ⟨-, -, he'⟩
      · refine Or.inr (Or.inl ⟨e.key, e, stored, ?_⟩)
        rw [Entry.key, canonical, canonical, Node.key_map, Node.key_map, Node.key_key]
      · exact Or.inl ⟨_, he'⟩
  | fuse stored congruent union =>
      rw [(unite_joins (h.dropKey stored) (h.root_lt (h.owner_lt stored))
        (h.owner_lt (congruent?_inv congruent).2) union).1] at he'
      exact Or.inl ⟨_, (get?_dropKey_inv he').2⟩
  | note same _ =>
      rw [same.table] at he'
      exact Or.inl ⟨_, he'⟩

theorem Steps.of_enlists (h : Enlists g g') : Steps g g' :=
  .single (.note h.toSameContent fun p hp => by rwa [h.pending] at hp)

/-! ## A rebuild is a sequence of steps -/

/-- A class for the literal of a value changes nothing for the computed width that
has it. -/
theorem stored_issue_literal (h : g.WellFormed) {fn : WidthFn} {l r : ClassId}
    {a b : Binary64} (stored : g.table.get? (.derived fn l r) = some e)
    (left : g.constant? l = some a) (right : g.constant? r = some b) (v : Binary64) :
    (g.issue (.literal v)).table.get? (.derived fn l r) = some e ∧
      (g.issue (.literal v)).constant? l = some a ∧
      (g.issue (.literal v)).constant? r = some b ∧
      (g.issue (.literal v)).table.get? (Node.literal v).key =
        some ⟨.literal v, g.issued⟩ := by
  have hne : Node.derived fn l r ≠ (Node.literal v).key := by simp [Node.key]
  have hchild := h.child_lt stored
  refine ⟨?_, ?_, ?_, ?_⟩
  · rw [get?_issue, if_neg hne]
    exact stored
  · rw [h.constant?_issue _ (hchild l (by simp [Node.children]))]
    exact left
  · rw [h.constant?_issue _ (hchild r (by simp [Node.children]))]
    exact right
  · exact get?_issue_new g _

/-- Equating a stored computed width with its value. -/
theorem equate_steps (h : g.WellFormed) {fn : WidthFn} {l r z : ClassId}
    {a b : Binary64} (stored : g.table.get? (.derived fn l r) = some e)
    (left : g.constant? l = some a) (right : g.constant? r = some b)
    (hy : g.root y = g.root e.owner) (heq : equate (fn.eval a b) y g = .ok z g') :
    Steps g g' := by
  obtain ⟨x, g₁, henter, hunite⟩ := bind_inv heq
  rcases enter_cases henter with ⟨lit, hlit, rfl, rfl⟩ | ⟨hnone, rfl, rfl⟩
  · exact .single (.fold stored left right hlit (h.root_root _) hy hunite)
  · -- the literal is new: it gets a class first
    obtain ⟨hstored, hleft, hright, hvalue⟩ :=
      stored_issue_literal h stored left right (fn.eval a b)
    refine .tail (.single (.literal stored left right hnone))
      (.fold hstored hleft hright hvalue rfl ?_ hunite)
    rw [root_issue h.ranked, root_issue h.ranked]
    exact hy

/-- A node with a value is a computed width of two known constants. -/
theorem foldDerived?_inv {v : Binary64} (h : g.foldDerived? node = some v) :
    ∃ fn l r a b, node = .derived fn l r ∧ g.constant? l = some a ∧
      g.constant? r = some b ∧ v = fn.eval a b := by
  cases node with
  | literal | sign | symbol | binary => cases h
  | derived fn l r =>
      simp only [foldDerived?, fold] at h
      split at h
      · next a b ha hb =>
        cases h
        exact ⟨fn, l, r, a, b, rfl, ha, hb, rfl⟩
      · cases h

/-! What the parts of a rebuild that succeeds have done. -/

/-- What happens to a parent that computes a number, and to one that does not. -/
theorem refold_cases {u : Unit} (hr : refold node y g = .ok u g') :
    (∃ v z, g.foldDerived? node = some v ∧ equate v y g = .ok z g') ∨
      (g.foldDerived? node = none ∧ g' = g) := by
  unfold refold at hr
  rw [get_bind] at hr
  cases hv : g.foldDerived? node with
  | some v =>
      rw [hv] at hr
      obtain ⟨z, hz⟩ := discard_inv hr
      exact Or.inl ⟨v, z, rfl, hz⟩
  | none =>
      rw [hv] at hr
      exact Or.inr ⟨rfl, (pure_inv hr).2.symm⟩

/-- A node is stored under its canonical key, unless another node is stored there:
then it is dropped, and the two classes are united. -/
theorem rekey_cases {u : Unit} (hr : rekey e node y g = .ok u g') :
    (∃ e' z, g.congruent? e node = some e' ∧
      unite y e'.owner (g.dropKey e.key y) = .ok z g') ∨
      (g.congruent? e node = none ∧ g' = g.restore e node y) := by
  unfold rekey at hr
  split at hr
  · next e' hc =>
    obtain ⟨z, hz⟩ := discard_inv hr
    exact Or.inl ⟨e', z, hc, hz⟩
  · next hfree =>
    cases hr
    exact Or.inr ⟨hfree, rfl⟩

/-- A stored key is stored again under its canonical form, listed and folded
again. -/
theorem repairParent_cases {u : Unit} (hr : repairParent key g = .ok u g') :
    (g.table.get? key = none ∧ g' = g) ∨
      ∃ e t, key = e.key ∧ g.table.get? e.key = some e ∧
        rekey e (g.canonical e.node) (g.root e.owner) g = .ok () t ∧
        refold (g.canonical e.node) (g.root e.owner)
          (t.enlist (g.canonical e.node).key) = .ok () g' := by
  unfold repairParent at hr
  rw [get_bind] at hr
  cases he : g.table.get? key with
  | none =>
      rw [he] at hr
      exact Or.inl ⟨rfl, (pure_inv hr).2.symm⟩
  | some e =>
      rw [he] at hr
      obtain rfl := WellFormed.key_eq he
      obtain ⟨⟨⟩, t, hrekey, hr⟩ := bind_inv hr
      obtain ⟨⟨⟩, t', hlist, hfold⟩ := bind_inv hr
      obtain rfl := modify_inv hlist
      exact Or.inr ⟨e, t, rfl, he, hrekey, hfold⟩

/-- One more pass repairs what is pending, if anything is. -/
theorem rebuildPasses_succ_cases {passes : Nat} {u : Unit}
    (hr : rebuildPasses (passes + 1) g = .ok u g') :
    (g.pending = #[] ∧ g' = g) ∨ (g.pending ≠ #[] ∧
      ∃ t, (g.pending.toList.forM fun id => do repair ((← get).root id))
        { g with pending := #[] } = .ok () t ∧
        rebuildPasses passes t = .ok () g') := by
  unfold rebuildPasses at hr
  rw [get_bind] at hr
  split at hr
  · next hempty => exact Or.inl ⟨by simpa using hempty, (pure_inv hr).2.symm⟩
  · next hsome =>
    obtain ⟨⟨⟩, g₁, htake, hrest⟩ := bind_inv hr
    obtain rfl := modify_inv htake
    obtain ⟨⟨⟩, t, hloop, hlater⟩ := bind_inv hrest
    exact Or.inr ⟨fun hp => hsome (by simp [hp]), t, hloop, hlater⟩

/-- Folding a parent again consists of steps. -/
theorem refold_steps (h : g.WellFormed) {u : Unit}
    (stored : g.table.get? node.key = some e) (hy : g.root y = g.root e.owner)
    (hr : refold node y g = .ok u g') : Steps g g' := by
  obtain ⟨v, z, hv, hz⟩ | ⟨-, rfl⟩ := refold_cases hr
  · obtain ⟨fn, l, r, a, b, rfl, ha, hb, rfl⟩ := foldDerived?_inv hv
    exact equate_steps h stored ha hb hy hz
  · exact .refl

/-- Storing a node again is one step, after which a node of the same class has its
canonical key. -/
theorem rekey_steps (h : g.WellFormed) {u : Unit} (he : g.table.get? e.key = some e)
    (hr : rekey e (g.canonical e.node) (g.root e.owner) g = .ok u g') :
    Step g g' ∧ ∃ e', g'.table.get? (g.canonical e.node).key = some e' ∧
      g'.root (g.root e.owner) = g'.root e'.owner := by
  have howner := h.root_lt (h.owner_lt he)
  obtain ⟨e', z, hc, hu⟩ | ⟨hfree, rfl⟩ := rekey_cases hr
  · obtain ⟨hne, he'⟩ := congruent?_inv hc
    obtain ⟨htable, hroots, -⟩ :=
      unite_joins (h.dropKey he) howner (h.owner_lt he') hu
    refine ⟨.fuse he hc hu, e', ?_, hroots⟩
    rw [htable, get?_dropKey, if_neg hne]
    exact he'
  · refine ⟨.move he hfree, ⟨g.canonical e.node, g.root e.owner⟩, ?_, rfl⟩
    rw [get?_restore he, if_pos rfl]

/-- Bringing a parent up to date consists of steps. -/
theorem repairParent_steps (h : g.WellFormed) {u : Unit}
    (hr : repairParent key g = .ok u g') : Steps g g' := by
  obtain ⟨-, rfl⟩ | ⟨e, g₁, rfl, he, hrekey, hfold⟩ := repairParent_cases hr
  · exact .refl
  · obtain ⟨s₁, e', he', hroot⟩ := rekey_steps h he hrekey
    have h₁ := s₁.wellFormed h
    have hlisted := enlist_enlists g₁ (g.canonical e.node).key
    refine .head s₁ ((Steps.of_enlists hlisted).trans ?_)
    -- the node that is folded is the one that is now stored under the canonical key
    refine refold_steps (h₁.of_enlists hlisted) (e := e') ?_ ?_ hfold
    · rw [hlisted.table]
      exact he'
    · rw [hlisted.root, hlisted.root]
      exact hroot

/-- The graph in which the repair of a class has taken over its list of parents. -/
def cleared (g : EGraph) (id : ClassId) : EGraph :=
  { g.modifyRecord id fun c => { c with parents := .empty } with intact := false }

theorem sameContent_cleared (g : EGraph) (id : ClassId) :
    SameContent g (g.cleared id) where
  sets := rfl
  table := rfl
  classes_size := by simp [cleared, modifyRecord]
  ids j := by
    refine (congrArg EClass.id (record_modifyRecord g id _ j)).trans ?_
    split <;> rfl
  nodes j := by
    refine (congrArg EClass.nodes (record_modifyRecord g id _ j)).trans ?_
    split <;> rfl
  constant j := by
    refine (congrArg EClass.constant (record_modifyRecord g id _ j)).trans ?_
    split <;> rfl

theorem steps_cleared (g : EGraph) (id : ClassId) : Steps g (g.cleared id) :=
  .single (.note (sameContent_cleared g id) fun _ hp => hp)

/-- The last part of a repair adds to parent lists at most. -/
theorem enlists_finish (g : EGraph) (id : ClassId) (intact : Bool) :
    Enlists g (if intact then { g with intact := true } else g.relist id) := by
  cases intact with
  | true =>
      exact ⟨⟨rfl, rfl, rfl, fun _ => rfl, fun _ => rfl, fun _ => rfl⟩,
        rfl, fun hk => hk⟩
  | false => exact relist_enlists g id

/-- A repair empties a parent list, brings its members up to date one after the
other, and adds to parent lists in the end. -/
theorem repair_inv {u : Unit} (hr : repair id g = .ok u g') :
    ∃ g₁, (g.record id).parents.toList.forM repairParent (g.cleared id) = .ok () g₁ ∧
      Enlists g₁ g' := by
  unfold repair at hr
  rw [get_bind, get_bind] at hr
  obtain ⟨⟨⟩, g₁, hclear, hrest⟩ := bind_inv hr
  obtain rfl := modify_inv hclear
  obtain ⟨⟨⟩, g₂, hloop, hlast⟩ := bind_inv hrest
  obtain rfl := modify_inv hlast
  exact ⟨g₂, hloop, enlists_finish g₂ id g.intact⟩

theorem steps_of_forM_repairParent (h : g.WellFormed)
    {keys : List (Node ClassId)} {u : Unit}
    (hr : keys.forM repairParent g = .ok u g') : Steps g g' :=
  forM_induction (fun _ s => Steps g s)
    (fun _ _ _ _ hs ht =>
      hs.trans (repairParent_steps (hs.wellFormed h) ht)) .refl hr

theorem repair_steps (h : g.WellFormed) {u : Unit} (hr : repair id g = .ok u g') :
    Steps g g' := by
  obtain ⟨g₁, hloop, hlast⟩ := repair_inv hr
  have hclear := steps_cleared g id
  have hparents := steps_of_forM_repairParent (hclear.wellFormed h) hloop
  exact hclear.trans (hparents.trans (Steps.of_enlists hlast))

theorem sameContent_take_pending (g : EGraph) :
    SameContent g { g with pending := #[] } :=
  ⟨rfl, rfl, rfl, fun _ => rfl, fun _ => rfl, fun _ => rfl⟩

/-- A pass starts by taking over the pending classes. -/
theorem steps_take_pending (g : EGraph) : Steps g { g with pending := #[] } :=
  .single (.note (sameContent_take_pending g) fun p hp => by simp at hp)

theorem steps_of_forM_repair (h : g.WellFormed) {ids : List ClassId} {u : Unit}
    (hr : (ids.forM fun id => do repair ((← get).root id)) g = .ok u g') :
    Steps g g' :=
  forM_induction (fun _ s => Steps g s)
    (fun _ _ _ _ hs ht => hs.trans (repair_steps (hs.wellFormed h) ht)) .refl hr

/-- A property of the graph and of the classes that are left of a pass holds with no
class left after all passes, if a pass can begin with it and each repair takes it to
the next class. -/
theorem rebuildPasses_induction {P : List ClassId → EGraph → Prop}
    (take : ∀ g, P [] g → P g.pending.toList { g with pending := #[] })
    (step : ∀ p rest g g', P (p :: rest) g → repair (g.root p) g = .ok () g' →
      P rest g')
    {passes : Nat} {u : Unit} (h : P [] g) (hr : rebuildPasses passes g = .ok u g') :
    P [] g' := by
  induction passes generalizing g with
  | zero =>
      obtain ⟨-, rfl⟩ := pure_inv hr
      exact h
  | succ passes ih =>
      obtain ⟨-, rfl⟩ | ⟨-, t, hloop, hlater⟩ := rebuildPasses_succ_cases hr
      · exact h
      · exact ih (forM_induction P (fun p rest s t hs ht => step p rest s t hs ht)
          (take g h) hloop) hlater

theorem rebuildPasses_steps (h : g.WellFormed) {passes : Nat} {u : Unit}
    (hr : rebuildPasses passes g = .ok u g') : Steps g g' := by
  refine rebuildPasses_induction (P := fun _ s => Steps g s) (fun s hs => ?_)
    (fun p rest s t hs ht => ?_) .refl hr
  · exact hs.trans (steps_take_pending s)
  · exact hs.trans (repair_steps (hs.wellFormed h) ht)

/-- A successful rebuild is a sequence of steps, so what every step keeps, every
rebuild keeps. -/
theorem rebuild_steps (h : g.WellFormed) {u : Unit} (hr : rebuild g = .ok u g') :
    Steps g g' := by
  unfold rebuild at hr
  rw [get_bind] at hr
  exact rebuildPasses_steps h hr

end Datapath.EGraph

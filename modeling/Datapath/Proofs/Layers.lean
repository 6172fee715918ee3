import Datapath.Pattern
import Datapath.Proofs.Content
import Mathlib.Data.List.Forall2

/-!
# Datapath.Proofs.Layers

Patterns layer by layer.

A pattern is a variable or a node whose children are patterns again
(`Pattern.ofNode`), so that what is true of all patterns is proved by an induction
with these two cases (`Pattern.layers`), and what a layer does to its slots is said
once for all constructors. `Node.Rel` relates nodes with the same head slot by slot.

`Pattern.Occurs` is the shape of every statement that a pattern is somewhere to be
found: it is given what its variables stand for and which nodes are where.
-/

namespace Datapath

/-! ## Nodes slot by slot -/

namespace Node

variable {α β γ : Type} {R S : α → β → Prop} {m : Node α} {n n' : Node β}

/-- Two nodes have the same head, and their children are related from left to
right. -/
def Rel (R : α → β → Prop) (m : Node α) (n : Node β) : Prop :=
  m.map (fun _ => ()) = n.map (fun _ => ()) ∧ List.Forall₂ R m.children n.children

/-- A node is its head and its children. -/
theorem ext_children (hhead : n.map (fun _ => ()) = n'.map (fun _ => ()))
    (hchildren : n.children = n'.children) : n = n' := by
  cases n <;> cases n' <;> simp_all [map, children]

namespace Rel

/-- Related children may be related otherwise, one by one. -/
theorem imp (h : m.Rel R n)
    (himp : ∀ a ∈ m.children, ∀ b ∈ n.children, R a b → S a b) :
    m.Rel S n := by
  refine ⟨h.1, ?_⟩
  have hall := h.2
  generalize m.children = l at himp hall
  generalize n.children = r at himp hall
  induction hall with
  | nil => exact .nil
  | cons hab _ ih =>
      refine .cons (himp _ List.mem_cons_self _ List.mem_cons_self hab) (ih ?_)
      intro a ha b hb
      exact himp a (List.mem_cons_of_mem _ ha) b (List.mem_cons_of_mem _ hb)

/-- Each child is related to some child of the other node. -/
theorem exists_right (h : m.Rel R n) {a : α} (ha : a ∈ m.children) :
    ∃ b ∈ n.children, R a b := by
  have hall := h.2
  generalize m.children = l at ha hall
  generalize n.children = r at hall
  induction hall with
  | nil => exact absurd ha List.not_mem_nil
  | cons hab _ ih =>
      rcases List.mem_cons.1 ha with rfl | ha
      · exact ⟨_, List.mem_cons_self, hab⟩
      · obtain ⟨b, hb, hr⟩ := ih ha
        exact ⟨b, List.mem_cons_of_mem _ hb, hr⟩

theorem flip (h : m.Rel R n) : n.Rel (fun b a => R a b) m := ⟨h.1.symm, h.2.flip⟩

theorem exists_left (h : m.Rel R n) {b : β} (hb : b ∈ n.children) :
    ∃ a ∈ m.children, R a b :=
  h.flip.exists_right hb

theorem key (h : m.Rel R n) : m.key.Rel R n.key := by
  obtain ⟨hhead, hall⟩ := h
  refine ⟨?_, by rwa [children_key, children_key]⟩
  rw [← key_map, ← key_map, hhead]

theorem map_right {f : γ → β} {k : Node γ} :
    m.Rel R (k.map f) ↔ m.Rel (fun a c => R a (f c)) k := by
  rw [Rel, Rel, map_map, children_map, List.forall₂_map_right_iff]

/-- Related by a function is mapped by it. -/
theorem iff_map_eq {f : α → β} : m.Rel (fun a b => f a = b) n ↔ m.map f = n := by
  constructor
  · intro h
    refine ext_children (by rw [map_map]; exact h.1) ?_
    rw [children_map]
    exact List.forall₂_eq_eq_eq ▸ List.forall₂_map_left_iff.2 h.2
  · rintro rfl
    exact map_right.2 ⟨rfl, List.forall₂_same.2 fun _ _ => rfl⟩

/-- If each child is related to at most one, so is the node. The two lists of
children are related to one list from left to right. -/
theorem unique (h : m.Rel R n) (h' : m.Rel R n')
    (huniq : ∀ a ∈ m.children, ∀ b ∈ n.children, ∀ b' ∈ n'.children, R a b →
      R a b' → b = b') :
    n = n' := by
  refine ext_children (h.1.symm.trans h'.1) ?_
  have hall := h.2
  have hall' := h'.2
  generalize m.children = l at huniq hall hall'
  generalize n.children = r at huniq hall
  generalize n'.children = r' at huniq hall'
  induction hall generalizing r' with
  | nil =>
      cases hall'
      rfl
  | cons hab _ ih =>
      cases hall' with
      | cons hab' hrest' =>
          rw [huniq _ List.mem_cons_self _ List.mem_cons_self _
            List.mem_cons_self hab hab']
          congr 1
          refine ih _ (fun a ha b hb b' hb' => ?_) hrest'
          exact huniq a (List.mem_cons_of_mem _ ha) b (List.mem_cons_of_mem _ hb) b'
            (List.mem_cons_of_mem _ hb')

end Rel

/-- A node whose children are replaced by the members of a list has these as its
children. -/
theorem children_withChildren {refs : List β}
    (hlen : m.children.length = refs.length) (b : β) :
    ((m.map fun _ => b).withChildren refs).children = refs ∧
      ((m.map fun _ => b).withChildren refs).map (fun _ => ()) =
        m.map fun _ => () := by
  cases m with
  | literal | sign | symbol =>
      obtain rfl := List.length_eq_zero_iff.1 hlen.symm
      exact ⟨rfl, rfl⟩
  | derived fn l r =>
      match refs, hlen with
      | [_, _], _ => exact ⟨rfl, rfl⟩
  | binary op w wa sa a wb sb b =>
      match refs, hlen with
      | [_, _, _, _, _, _, _], _ => exact ⟨rfl, rfl⟩

end Node

/-! ## Patterns as nodes -/

namespace Pattern

/-- The pattern with a given first layer. -/
def ofNode : Node Pattern → Pattern
  | .literal value => literal value
  | .sign s => sign s
  | .symbol name => symbol name
  | .derived fn left right => derived fn left right
  | .binary op w wa sa a wb sb b => binary op w wa sa a wb sb b

/-- A pattern is a variable or a layer over patterns. -/
@[elab_as_elim]
theorem layers {motive : Pattern → Prop} (var : ∀ name, motive (.var name))
    (node : ∀ n : Node Pattern, (∀ q ∈ n.children, motive q) → motive (ofNode n))
    (p : Pattern) : motive p := by
  induction p with
  | var name => exact var name
  | literal v => exact node (.literal v) (by simp [Node.children])
  | sign s => exact node (.sign s) (by simp [Node.children])
  | symbol name => exact node (.symbol name) (by simp [Node.children])
  | derived fn l r hl hr =>
      exact node (.derived fn l r) (by simp [Node.children, hl, hr])
  | binary op w wa sa a wb sb b hw hwa hsa ha hwb hsb hb =>
      exact node (.binary op w wa sa a wb sb b)
        (by simp [Node.children, hw, hwa, hsa, ha, hwb, hsb, hb])

/-- The variables of a layer are those of its slots, from left to right. -/
theorem occurrences_ofNode (n : Node Pattern) :
    (ofNode n).occurrences = n.children.flatMap occurrences := by
  cases n <;> simp [ofNode, occurrences, Node.children]

/-! ## Parts -/

/-- A pattern and its sub-patterns at every depth. -/
def parts : Pattern → List Pattern
  | var name => [var name]
  | literal value => [literal value]
  | sign s => [sign s]
  | symbol name => [symbol name]
  | derived fn left right => derived fn left right :: (left.parts ++ right.parts)
  | binary op w wa sa a wb sb b =>
    binary op w wa sa a wb sb b ::
      (w.parts ++ wa.parts ++ sa.parts ++ a.parts ++ wb.parts ++ sb.parts ++ b.parts)

theorem parts_ofNode (n : Node Pattern) :
    (ofNode n).parts = ofNode n :: n.children.flatMap parts := by
  cases n <;> simp [ofNode, parts, Node.children]

theorem mem_parts_self (p : Pattern) : p ∈ p.parts := by
  cases p <;> simp [parts]

/-- A part of a layer is the layer or a part of one of its slots. -/
theorem mem_parts_ofNode {n : Node Pattern} {q : Pattern} :
    q ∈ (ofNode n).parts ↔ q = ofNode n ∨ ∃ c ∈ n.children, q ∈ c.parts := by
  rw [parts_ofNode, List.mem_cons, List.mem_flatMap]

theorem mem_parts_child {n : Node Pattern} {q : Pattern} (hq : q ∈ n.children) :
    q ∈ (ofNode n).parts :=
  mem_parts_ofNode.2 (Or.inr ⟨q, hq, mem_parts_self q⟩)

/-- Parts of parts are parts. -/
theorem mem_parts_trans {p q r : Pattern} (hq : q ∈ p.parts) (hr : r ∈ q.parts) :
    r ∈ p.parts := by
  induction p using layers with
  | var name =>
      obtain rfl := List.mem_singleton.1 hq
      exact hr
  | node n ih =>
      rcases mem_parts_ofNode.1 hq with rfl | ⟨c, hc, hq⟩
      · exact hr
      · exact mem_parts_ofNode.2 (Or.inr ⟨c, hc, ih c hc hq⟩)

/-- The variables of a pattern are its parts that are variables. -/
theorem mem_occurrences {p : Pattern} {name : String} :
    name ∈ p.occurrences ↔ var name ∈ p.parts := by
  induction p using layers with
  | var x => simp [occurrences, parts]
  | node n ih =>
      rw [occurrences_ofNode, List.mem_flatMap, mem_parts_ofNode]
      have hne : var name ≠ ofNode n := by cases n <;> simp [ofNode]
      simp only [hne, false_or]
      exact exists_congr fun c => and_congr_right fun hc => ih c hc

/-! ## Occurrences -/

variable {κ : Type} {bound bound' : String → κ → Prop}
  {has has' : Node κ → κ → Prop} {k k' : κ}
  {p : Pattern}

/-- A pattern is found at `k` if its variables stand for what they are bound to, and
every other slot is a node that is where the slot is found. -/
def Occurs (bound : String → κ → Prop) (has : Node κ → κ → Prop) : Pattern → κ → Prop
  | var name, k => bound name k
  | literal value, k => has (.literal value) k
  | sign s, k => has (.sign s) k
  | symbol name, k => has (.symbol name) k
  | derived fn left right, k =>
    ∃ l r, left.Occurs bound has l ∧ right.Occurs bound has r ∧
      has (.derived fn l r) k
  | binary op w wa sa a wb sb b, k =>
    ∃ w' wa' sa' a' wb' sb' b', w.Occurs bound has w' ∧ wa.Occurs bound has wa' ∧
      sa.Occurs bound has sa' ∧ a.Occurs bound has a' ∧ wb.Occurs bound has wb' ∧
      sb.Occurs bound has sb' ∧ b.Occurs bound has b' ∧
      has (.binary op w' wa' sa' a' wb' sb' b') k

/-- A layer is found at `k` if a node is there whose children are where the slots are
found. All constructors are taken together here, so later proofs have one case for
layers. -/
theorem occurs_ofNode {n : Node Pattern} :
    (ofNode n).Occurs bound has k ↔ ∃ m, n.Rel (Occurs bound has) m ∧ has m k := by
  constructor
  · intro h
    cases n with
    | literal v => exact ⟨.literal v, ⟨rfl, .nil⟩, h⟩
    | sign s => exact ⟨.sign s, ⟨rfl, .nil⟩, h⟩
    | symbol name => exact ⟨.symbol name, ⟨rfl, .nil⟩, h⟩
    | derived fn l r =>
        obtain ⟨l', r', hl, hr, hk⟩ := h
        exact ⟨.derived fn l' r', ⟨rfl, .cons hl (.cons hr .nil)⟩, hk⟩
    | binary op w wa sa a wb sb b =>
        obtain ⟨w', wa', sa', a', wb', sb', b', hw, hwa, hsa, ha, hwb,
          hsb, hb, hk⟩ := h
        exact ⟨.binary op w' wa' sa' a' wb' sb' b', ⟨rfl,
          .cons hw (.cons hwa (.cons hsa (.cons ha
            (.cons hwb (.cons hsb (.cons hb .nil))))))⟩, hk⟩
  · rintro ⟨m, ⟨hhead, hall⟩, hk⟩
    cases n <;> cases m <;> cases hhead
    case literal.literal.refl | sign.sign.refl | symbol.symbol.refl => exact hk
    case derived.derived.refl =>
      simp only [Node.children, List.forall₂_cons, List.forall₂_nil_left_iff,
        and_true] at hall
      obtain ⟨hl, hr⟩ := hall
      exact ⟨_, _, hl, hr, hk⟩
    case binary.binary.refl =>
      simp only [Node.children, List.forall₂_cons, List.forall₂_nil_left_iff,
        and_true] at hall
      obtain ⟨hw, hwa, hsa, ha, hwb, hsb, hb⟩ := hall
      exact ⟨_, _, _, _, _, _, _, hw, hwa, hsa, ha, hwb, hsb, hb, hk⟩

/-- Where minus zero counts as zero, so it does in the first layer of a pattern. -/
theorem occurs_ofNode_key (hkey : ∀ {m k}, has m.key k ↔ has m k)
    {n : Node Pattern} :
    (ofNode n).Occurs bound has k ↔
      ∃ m, n.key.Rel (Occurs bound has) m ∧ has m k := by
  cases n with
  | literal v =>
      rw [Node.key, ← occurs_ofNode]
      exact hkey.symm
  | sign | symbol | derived | binary => exact occurs_ofNode

/-- What is found among certain places, which have their children among them, is
found again where a map takes these places. -/
theorem Occurs.map {κ' : Type} {bound' : String → κ' → Prop}
    {has' : Node κ' → κ' → Prop}
    (f : κ → κ') {A : κ → Prop} (hA : ∀ {m k}, A k → has m k → ∀ c ∈ m.children, A c)
    (hbound : ∀ {name k}, A k → bound name k → bound' name (f k))
    (hhas : ∀ {m k}, A k → has m k → has' (m.map f) (f k)) (hk : A k)
    (h : p.Occurs bound has k) : p.Occurs bound' has' (f k) := by
  induction p using layers generalizing k with
  | var name => exact hbound hk h
  | node n ih =>
      obtain ⟨m, hrel, hm⟩ := occurs_ofNode.1 h
      refine occurs_ofNode.2 ⟨m.map f, Node.Rel.map_right.2 ?_, hhas hk hm⟩
      exact hrel.imp fun q hq c hc => ih q hq (hA hk hm c hc)

/-- What is found among certain places is found by weaker conditions. -/
theorem Occurs.imp {A : κ → Prop}
    (hA : ∀ {m k}, A k → has m k → ∀ c ∈ m.children, A c)
    (hbound : ∀ {name k}, A k → bound name k → bound' name k)
    (hhas : ∀ {m k}, A k → has m k → has' m k) (hk : A k)
    (h : p.Occurs bound has k) : p.Occurs bound' has' k := by
  refine h.map (fun k => k) hA hbound (fun hk hm => ?_) hk
  rw [Node.map_id_of fun _ _ => rfl]
  exact hhas hk hm

/-- Every variable of a pattern that is found somewhere is bound. -/
theorem Occurs.exists_bound (h : p.Occurs bound has k) {name : String}
    (hname : name ∈ p.occurrences) : ∃ j, bound name j := by
  induction p using layers generalizing k with
  | var x =>
      obtain rfl := List.mem_singleton.1 hname
      exact ⟨k, h⟩
  | node n ih =>
      obtain ⟨m, hrel, -⟩ := occurs_ofNode.1 h
      rw [occurrences_ofNode] at hname
      obtain ⟨q, hq, hname⟩ := List.mem_flatMap.1 hname
      obtain ⟨c, -, hc⟩ := hrel.exists_right hq
      exact ih q hq hc hname

end Pattern

end Datapath

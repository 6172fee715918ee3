import Datapath.Proofs.Interpretation

/-!
# Datapath.Proofs.Completion

Every closed semantics is part of an interpretation.

A semantics may leave nodes without a value. Its *completion* gives each such node a
value of its own, and a computed width of numbers the value of their result. So a
graph that is sound for the semantics is sound for an interpretation
(`Sound.completed`), in which terms have a value although the semantics knows nothing
of them.
-/

namespace Datapath

variable {D : Type}

namespace Node

variable {α β : Type}

theorem map_injective {f : α → β} (hf : Function.Injective f) :
    Function.Injective (Node.map f) := by
  intro m n h
  refine ext_children (head_eq_of_map_eq h) (List.map_injective_iff.2 hf ?_)
  rw [← children_map, ← children_map, h]

/-- Whether a node is that of a computed width. -/
def IsDerived : Node α → Prop
  | .derived .. => True
  | _ => False

theorem isDerived_map (f : α → β) (n : Node α) :
    (n.map f).IsDerived ↔ n.IsDerived := by
  cases n <;> exact Iff.rfl

theorem isDerived_key (n : Node α) : n.key.IsDerived ↔ n.IsDerived := by
  cases n <;> exact Iff.rfl

end Node

/-- Given values, and nodes over values as values of their own. -/
inductive Completed (D : Type)
  | known (d : D)
  | free (node : Node (Completed D))

theorem Completed.known_injective : Function.Injective (known : D → Completed D) :=
  fun _ _ => known.inj

namespace Semantics

open Completed

variable {S : Semantics D} {d : D} {m : Node D} {n : Node (Completed D)}
  {v w : Binary64}

/-- Values do not show different numbers, and computed widths of numbers denote what
the literals of their results denote. -/
structure Closed (S : Semantics D) : Prop where
  shows_unique : ∀ {d v w}, S.Shows d v → S.Shows d w →
    v.withoutMinusZero = w.withoutMinusZero
  folded : ∀ {fn x y d a b}, S.Denotes (.derived fn x y) d → S.Shows x a →
    S.Shows y b → S.Denotes (Node.literal (fn.eval a b)).key d

/-- Closed semantics evaluate all computed widths. -/
theorem Closed.folds (h : S.Closed) (ok : Binary64 → Prop) : S.Folds ok :=
  fun hd hx hy _ _ _ he => S.unique (h.folded hd hx hy) he

theorem Shows.congr (h : S.Shows d v)
    (hvw : v.withoutMinusZero = w.withoutMinusZero) :
    S.Shows d w := by
  obtain ⟨m, u, hu, huv, hd⟩ := h
  exact ⟨m, u, hu, huv.trans hvw, hd⟩

/-! ## The completion -/

open Classical in
/-- What a node over given values denotes, or the node itself. -/
noncomputable def place (S : Semantics D) (n : Node (Completed D)) : Completed D :=
  if h : ∃ m d, n = Node.map known m ∧ S.Denotes m d then
    known h.choose_spec.choose
  else free n

open Classical in
/-- The number that a value shows. -/
noncomputable def number (S : Semantics D) : Completed D → Option Binary64
  | known d => if h : ∃ v, S.Shows d v then some h.choose.withoutMinusZero else none
  | free n => n.value?.map Binary64.withoutMinusZero

/-- The interpretation in which nodes denote what they do in the semantics, computed
widths of numbers their result, and all other nodes themselves. -/
noncomputable def completion (S : Semantics D) : Interpretation (Completed D) where
  literal v := S.place (.literal v)
  sign s := S.place (.sign s)
  symbol name := S.place (.symbol name)
  derived fn x y :=
    match S.number x, S.number y with
    | some a, some b => S.place (Node.literal (fn.eval a b)).key
    | _, _ => S.place (.derived fn x y)
  binary op w wa sa a wb sb b := S.place (.binary op w wa sa a wb sb b)

/-- A node is placed at what it denotes, or at itself. -/
theorem place_cases (S : Semantics D) (n : Node (Completed D)) :
    (∃ m d, n = m.map known ∧ S.Denotes m d ∧ S.place n = known d) ∨
    S.place n = free n := by
  unfold place
  split
  · next h =>
    obtain ⟨hn, hd⟩ := h.choose_spec.choose_spec
    exact Or.inl ⟨_, _, hn, hd, rfl⟩
  · exact Or.inr rfl

/-- A node that denotes something is placed there. What was chosen is the only value
that the node denotes, as nodes over given values are recovered from their images. -/
theorem place_known (h : S.Denotes m d) : S.place (m.map known) = known d := by
  rcases S.place_cases (m.map known) with ⟨m', d', hm, hd, hplace⟩ | hplace
  · obtain rfl := Node.map_injective known_injective hm
    rw [hplace, S.unique hd h]
  · have hex : ∃ m' d', m.map known = Node.map known m' ∧ S.Denotes m' d' :=
      ⟨m, d, rfl, h⟩
    rw [place, dif_pos hex] at hplace
    cases hplace

/-- Only nodes that denote something are placed at given values. -/
theorem exists_of_place (h : S.place n = known d) :
    ∃ m, n = m.map known ∧ S.Denotes m d := by
  rcases S.place_cases n with ⟨m, d', hm, hd, hplace⟩ | hplace
  · rw [hplace] at h
    cases h
    exact ⟨m, hm, hd⟩
  · rw [hplace] at h
    cases h

/-- Other nodes than computed widths are looked up. -/
theorem completion_node (hn : ¬ n.IsDerived) :
    S.completion.node n = S.place n.key := by
  cases n with
  | literal | sign | symbol | binary => rfl
  | derived => exact absurd trivial hn

/-- A node that has a given value is known to denote it. -/
theorem exists_of_completion (hn : ¬ n.IsDerived)
    (h : S.completion.node n = known d) :
    ∃ m, n.key = m.map known ∧ S.Denotes m d := by
  rw [completion_node hn] at h
  exact exists_of_place h

/-! ## Numbers -/

theorem Closed.number_known (h : S.Closed) (hv : S.Shows d v) :
    S.number (known d) = some v.withoutMinusZero := by
  have hex : ∃ v, S.Shows d v := ⟨v, hv⟩
  rw [number, dif_pos hex, h.shows_unique hex.choose_spec hv]

/-- A given value has no other number than those that it shows. -/
theorem shows_of_number (h : S.number (known d) = some v) : S.Shows d v := by
  by_cases hex : ∃ v, S.Shows d v
  · rw [number, dif_pos hex, Option.some.injEq] at h
    rw [← h]
    exact hex.choose_spec.congr (Binary64.withoutMinusZero_idem _).symm
  · rw [number, dif_neg hex] at h
    cases h

/-- A literal or a sign shows its number. -/
theorem Closed.number_place (h : S.Closed) (hkey : n.key = n)
    (hv : n.value? = some v) : S.number (S.place n) = some v.withoutMinusZero := by
  rcases S.place_cases n with ⟨m, d, rfl, hd, hplace⟩ | hplace
  · rw [hplace]
    refine h.number_known ⟨m, v, by rwa [Node.value?_map] at hv, rfl, ?_⟩
    rw [Node.key_map] at hkey
    rwa [Node.map_injective known_injective hkey]
  · rw [hplace, number, hv, Option.map_some]

/-- In the completion a value has the constant that its number is. -/
theorem Closed.number_of_hasConstant (h : S.Closed) {x : Completed D}
    (hx : S.completion.HasConstant x v) : S.number x = some v.withoutMinusZero := by
  rcases hx with rfl | ⟨s, rfl, hv⟩
  · rw [completion_node (n := .literal v) not_false,
      h.number_place (Node.key_key _) (show _ = some v.withoutMinusZero from rfl),
      Binary64.withoutMinusZero_idem]
  · rw [completion_node (n := .sign s) not_false,
      h.number_place (Node.key_key _) (show _ = some (.ofNat s.code) from rfl), hv,
      Binary64.withoutMinusZero_ofNat (by cases s <;> decide)]

/-- In the completion a computed width is evaluated by definition, so it folds. -/
theorem Closed.foldsOn (h : S.Closed) : S.completion.FoldsOn fun _ => True := by
  intro fn x y a b hx hy _ _ _
  have hresult : S.completion.derived fn x y =
      S.place (Node.literal
        (fn.eval a.withoutMinusZero b.withoutMinusZero)).key := by
    simp only [completion, h.number_of_hasConstant hx, h.number_of_hasConstant hy]
  rw [hresult, completion_node (n := .literal _) not_false, Node.key, Node.key,
    fn.eval_congr (Binary64.withoutMinusZero_idem a)
      (Binary64.withoutMinusZero_idem b)]

/-! ## Sound graphs -/

/-- The completion agrees with the semantics about nodes. For a computed width of
numbers, which is evaluated there, this is what being closed means. -/
theorem Closed.completion_of_denotes (h : S.Closed) (hd : S.Denotes m d)
    (hkey : m.key = m) : S.completion.node (m.map known) = known d := by
  have hplace := place_known hd
  by_cases hm : m.IsDerived
  · cases m with
    | literal | sign | symbol | binary => exact hm.elim
    | derived fn x y =>
      show S.completion.derived fn (known x) (known y) = known d
      simp only [completion]
      split
      · next a b hx hy =>
        exact place_known (h.folded hd (shows_of_number hx) (shows_of_number hy))
      · exact hplace
  · rw [completion_node (by rwa [Node.isDerived_map]), Node.key_map, hkey]
    exact hplace

/-- In the completion, given values show the numbers that they show in the
semantics. -/
theorem Closed.shows_completion (h : S.Closed) :
    S.completion.semantics.Shows (known d) v ↔ S.Shows d v := by
  constructor
  · intro hv
    have hnumber := h.number_of_hasConstant (Interpretation.shows_iff.1 hv)
    exact (shows_of_number hnumber).congr (Binary64.withoutMinusZero_idem v)
  · intro hv
    obtain ⟨m, w, hw, hwv, hd⟩ := hv
    refine ⟨m.map known, w, by rwa [Node.value?_map], hwv, ?_⟩
    have hnode := h.completion_of_denotes hd (Node.key_key m)
    rwa [← Node.key_map] at hnode

end Semantics

/-- A graph that is sound for a closed semantics is sound for its completion. -/
theorem EGraph.Sound.completed {S : Semantics D} (hS : S.Closed)
    {ν : ClassId → D} {g : EGraph}
    (h : Sound S ν g) : Sound S.completion.semantics (fun i => .known (ν i)) g where
  root x := by rw [h.root]
  stored {key e} he := by
    have hkey : key.key = key := by
      rw [← WellFormed.key_eq he, Entry.key, Node.key_key]
    have hnode := hS.completion_of_denotes (h.stored he) (by rw [Node.key_map, hkey])
    rwa [Node.map_map] at hnode
  constant hx hc := hS.shows_completion.2 (h.constant hx hc)

/-! ## Patterns -/

namespace Pattern

variable {S : Semantics D} {p q : Pattern} {d : D} {σ : String → D}

/-- Computed widths are those of variables. -/
def Shallow (p : Pattern) : Prop :=
  ∀ fn l r, derived fn l r ∈ p.parts → (∃ name, l = var name) ∧ ∃ name, r = var name

/-- If a pattern has a given value, so have its parts. Only a computed width could
have a given value without its slots having one, when it is evaluated; in the
patterns at hand its slots are variables. -/
theorem exists_value_of_part (hp : p.Shallow)
    (h : S.completion.value (fun name => .known (σ name)) p = .known d)
    (hq : q ∈ p.parts) :
    ∃ d', S.completion.value (fun name => .known (σ name)) q = .known d' := by
  induction p using layers generalizing d with
  | var name =>
      obtain rfl := List.mem_singleton.1 hq
      exact ⟨d, h⟩
  | node n ih =>
      rcases mem_parts_ofNode.1 hq with rfl | ⟨c, hc, hq⟩
      · exact ⟨d, h⟩
      · -- the slots of a computed width are variables, and any other node has a value
        -- only through known ones
        have hslot : ∃ d', S.completion.value (fun name => .known (σ name)) c =
            .known d' := by
          by_cases hn : n.IsDerived
          · cases n with
            | literal | sign | symbol | binary => exact hn.elim
            | derived fn l r =>
                obtain ⟨⟨x, rfl⟩, y, rfl⟩ := hp fn l r (mem_parts_self _)
                simp only [Node.children, List.mem_cons, List.not_mem_nil,
                  or_false] at hc
                rcases hc with rfl | rfl <;> exact ⟨_, rfl⟩
          · rw [Interpretation.value_ofNode] at h
            obtain ⟨m, hm, -⟩ :=
              Semantics.exists_of_completion (by rwa [Node.isDerived_map]) h
            have hchildren := congrArg Node.children hm
            rw [Node.children_key, Node.children_map, Node.children_map] at hchildren
            have hmem := List.mem_map_of_mem hc
              (f := S.completion.value fun name => .known (σ name))
            rw [hchildren] at hmem
            obtain ⟨d', -, hd'⟩ := List.mem_map.1 hmem
            exact ⟨d', hd'.symm⟩
        obtain ⟨d', hd'⟩ := hslot
        exact ih c hc (fun fn l r hpart =>
          hp fn l r (mem_parts_ofNode.2 (Or.inr ⟨c, hc, hpart⟩)))
          hd' hq

end Pattern

end Datapath

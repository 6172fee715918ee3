import Datapath.Proofs.Canonical
import Datapath.Proofs.Rounding
import Datapath.Proofs.Soundness

/-!
# Datapath.Proofs.Closure

A rebuild computes the congruence closure of what was said before.

A `Log` lists the nodes that a run has added, with their class numbers, and the
numbers it has united. Literals that the graph adds on its own, for the values of
computed widths, are in it too. `Congruent` is the least equivalence that the log
forces: it holds of united numbers, of nodes that agree up to congruent children, and
of a computed width and the literal of its value. After a rebuild two numbers are in
one class exactly if they are congruent (`find_eq_iff_congruent`).

* That congruent numbers are in one class holds because the graph is canonical
  after a rebuild and still represents every node of the log.
* That no others are follows from `Sound`, with numbers up to congruence as values:
  the log makes every step of the run true in them.
-/

namespace Datapath

variable {D : Type} {g g' : EGraph} {id x y : ClassId}

/-! ## Nodes up to their children -/

namespace Node

variable {α β : Type} {m n : Node α}

/-- Nodes with the same head whose children have the same images have the same
image. -/
theorem map_eq_map {f : α → β} (hhead : m.map (fun _ => ()) = n.map (fun _ => ()))
    (hchildren : ∀ p ∈ m.children.zip n.children, f p.1 = f p.2) :
    m.map f = n.map f := by
  cases m <;> cases n <;> simp_all [map, children]

theorem head_eq_of_map_eq {f : α → β} (h : m.map f = n.map f) :
    m.map (fun _ => ()) = n.map (fun _ => ()) := by
  have hmap := congrArg (map fun _ => ()) h
  rwa [map_map, map_map] at hmap

theorem children_eq_of_map_eq {f : α → β} (h : m.map f = n.map f) :
    ∀ p ∈ m.children.zip n.children, f p.1 = f p.2 := by
  cases m <;> cases n <;> simp_all [map, children]

theorem value?_map (f : α → β) (m : Node α) : (m.map f).value? = m.value? := by
  cases m <;> rfl

/-- The key of a number is the number up to the sign of a zero. -/
theorem value?_key {v : Binary64} (h : m.value? = some v) :
    ∃ w, m.key.value? = some w ∧ w.withoutMinusZero = v.withoutMinusZero := by
  cases m with
  | literal a =>
      refine ⟨a.withoutMinusZero, rfl, ?_⟩
      rw [Binary64.withoutMinusZero_idem, ← Option.some.inj h]
  | sign s => exact ⟨v, h, rfl⟩
  | symbol | derived | binary => cases h

theorem key_of_ne (h : m ≠ .literal (.zero true)) : m.key = m := by
  cases m with
  | literal v =>
      rw [key, Binary64.withoutMinusZero_of_ne fun hv => h (by rw [hv])]
  | sign | symbol | derived | binary => rfl

end Node

/-! ## Runs -/

/-- What a run has said about class numbers. -/
structure Log where
  /-- Nodes, each with the number of a class that it was put into. -/
  nodes : List (Node ClassId × ClassId)
  /-- Numbers that were united. -/
  unions : List (ClassId × ClassId)

/-- The numbers from `start` on as literals of their constants. -/
def EGraph.literalsFrom (g : EGraph) (start : Nat) : List (Node ClassId × ClassId) :=
  (List.range' start (g.issued - start)).filterMap fun n =>
    (g.constant? n).map fun c => (.literal c.withoutMinusZero, n)

namespace Log

/-- The log before anything was said. -/
def empty : Log := ⟨[], []⟩

/-- The log after a node was added and got the class of `id`. If it is new, it got
the first new number, and any other is that of a literal. -/
def add (log : Log) (node : Node ClassId) (id : ClassId) (g g' : EGraph) : Log :=
  { log with
    nodes := (node, id) :: (if g.issued < g'.issued then [(node, g.issued)] else [])
      ++ g'.literalsFrom (g.issued + 1) ++ log.nodes }

/-- The log after two numbers were united. -/
def merge (log : Log) (x y : ClassId) : Log :=
  { log with unions := (x, y) :: log.unions }

/-- The log after a rebuild, whose new numbers are those of literals. -/
def rebuild (log : Log) (g g' : EGraph) : Log :=
  { log with nodes := g'.literalsFrom g.issued ++ log.nodes }

end Log

/-- A run of requests on an empty graph, all of them successful, with what it has
said. No request adds the literal minus zero. -/
inductive Run : Log → EGraph → Prop
  | start : Run .empty .empty
  | add {log : Log} {g g' : EGraph} {node : Node Int}
      {id : ClassId} (run : Run log g)
      (plain : node ≠ .literal (.zero true)) (done : EGraph.add node g = .ok id g') :
      Run (log.add (node.map Int.toNat) id g g') g'
  | merge {log : Log} {g g' : EGraph} {a b : Int} {id : ClassId} (run : Run log g)
      (done : EGraph.merge a b g = .ok id g') : Run (log.merge a.toNat b.toNat) g'
  | rebuild {log : Log} {g g' : EGraph} (run : Run log g)
      (done : EGraph.rebuild g = .ok () g') :
      Run (log.rebuild g g') g'

/-- The least equivalence of class numbers that a log forces. -/
inductive Congruent (log : Log) : ClassId → ClassId → Prop
  | refl (x : ClassId) : Congruent log x x
  | symm {x y : ClassId} (h : Congruent log x y) : Congruent log y x
  | trans {x y z : ClassId} (h : Congruent log x y) (h' : Congruent log y z) :
      Congruent log x z
  /-- United numbers are congruent. -/
  | united {x y : ClassId} (h : (x, y) ∈ log.unions) : Congruent log x y
  /-- Nodes with the same head and congruent children are congruent. -/
  | congr {m n : Node ClassId} {x y : ClassId} (hm : (m, x) ∈ log.nodes)
      (hn : (n, y) ∈ log.nodes)
      (head : m.map (fun _ => ()) = n.map (fun _ => ()))
      (children : ∀ p ∈ m.children.zip n.children, Congruent log p.1 p.2) :
      Congruent log x y
  /-- A computed width of numbers is congruent to the literal of its value. -/
  | folded {fn : WidthFn} {l r x y p q : ClassId} {m n : Node ClassId}
      {a b : Binary64}
      (hnode : (.derived fn l r, x) ∈ log.nodes)
      (hm : (m, p) ∈ log.nodes) (left : m.value? = some a) (hl : Congruent log l p)
      (hn : (n, q) ∈ log.nodes) (right : n.value? = some b) (hr : Congruent log r q)
      (value : (.literal (fn.eval a b), y) ∈ log.nodes) : Congruent log x y

namespace EGraph

/-- The list has the numbers from `start` on whose classes know a number. -/
theorem mem_literalsFrom {start n : Nat} {m : Node ClassId} :
    (m, n) ∈ g.literalsFrom start ↔
      start ≤ n ∧ n < g.issued ∧ ∃ c, g.constant? n = some c ∧
        m = .literal c.withoutMinusZero := by
  simp only [literalsFrom, List.mem_filterMap, List.mem_range'_1,
    Option.map_eq_some_iff, Prod.mk.injEq]
  constructor
  · intro hmem
    obtain ⟨k, ⟨hle, hlt⟩, c, hc, rfl, rfl⟩ := hmem
    exact ⟨hle, by omega, c, hc, rfl⟩
  · intro hmem
    obtain ⟨hle, hlt, c, hc, rfl⟩ := hmem
    exact ⟨n, ⟨hle, by omega⟩, c, hc, rfl, rfl⟩

/-- The numbers that steps issue are those of literals. -/
theorem Steps.represents_new (h : g.WellFormed) (s : Steps g g') {n : Nat}
    (hn : g.issued ≤ n) (hlt : n < g'.issued) :
    ∃ c, g'.constant? n = some c ∧ g'.Represents (.literal c) n := by
  induction s with
  | refl => exact absurd hlt (Nat.not_lt.2 hn)
  | @tail t t' s₁ s₂ ih =>
      have ht := Steps.wellFormed h s₁
      have hext := s₂.extends ht
      by_cases hold : n < t.issued
      · obtain ⟨c, hc, hrep⟩ := ih hold
        obtain ⟨d, hd, hdc⟩ := hext.constant hold hc
        refine ⟨d, hd, (hext.represents hrep).congr ?_ rfl⟩
        rw [Node.key, Node.key, hdc]
      · rcases s₂.issued_cases ht with hissued | ⟨v, rfl, -⟩
        · rw [hissued] at hlt
          exact absurd hlt hold
        · rw [issued_issue] at hlt
          have hnew : n = t.issued := by omega
          subst hnew
          exact ⟨v, ht.constant?_issue_new (.literal v),
            represents_issue t (.literal v)⟩

end EGraph

open EGraph

variable {log : Log}

/-- A run is a sequence of calls, so all that is known of calls is known of it. -/
theorem Run.calls (run : Run log g) : Calls .empty g := by
  induction run with
  | start => exact .refl
  | add _ _ done ih =>
      exact ih.tail (add_call (Calls.wellFormed wellFormed_empty ih) done)
  | merge _ done ih =>
      exact ih.tail (merge_call (Calls.wellFormed wellFormed_empty ih) done)
  | rebuild _ done ih => exact ih.tail (.rebuild done)

theorem Run.wellFormed (run : Run log g) : g.WellFormed :=
  Calls.wellFormed wellFormed_empty run.calls

/-! ## Congruent numbers are in one class -/

/-- What a log says is so in a graph. -/
structure Recorded (log : Log) (g : EGraph) : Prop where
  nodes : ∀ {m x}, (m, x) ∈ log.nodes → g.Represents m x
  unions : ∀ {x y}, (x, y) ∈ log.unions → g.root x = g.root y

theorem Recorded.of_extends (h : Recorded log g) (hext : Extends g g') :
    Recorded log g' :=
  ⟨fun hm => hext.represents (h.nodes hm), fun hu => hext.root_eq (h.unions hu)⟩

/-- Numbers that steps have issued are represented as the log has them, as literals
of their constants. -/
theorem represents_literalsFrom (h : g.WellFormed) (s : Steps g g')
    {m : Node ClassId} (hmem : (m, x) ∈ g'.literalsFrom g.issued) :
    g'.Represents m x := by
  obtain ⟨hle, hlt, c, hc, rfl⟩ := mem_literalsFrom.1 hmem
  obtain ⟨d, hd, hrep⟩ := s.represents_new h hle hlt
  rw [hc] at hd
  cases hd
  refine hrep.congr ?_ rfl
  rw [Node.key, Node.key, Binary64.withoutMinusZero_idem]

/-- An added node is represented by the number that is returned and by the one it was
given. Further numbers that it was added with are those of literals. -/
theorem represents_add (h : g.WellFormed) {node : Node Int}
    (hadd : EGraph.add node g = .ok id g') :
    g'.Represents (node.map Int.toNat) id ∧
      (g.issued < g'.issued → g'.Represents (node.map Int.toNat) g.issued) ∧
      ∀ {m x}, (m, x) ∈ g'.literalsFrom (g.issued + 1) → g'.Represents m x := by
  obtain ⟨hc, hi⟩ := add_inv hadd
  have hcanon := canonical_children h (children_toNat_lt hc)
  rcases intern_steps h (fun c hmem => (hcanon c hmem).1) hi with
    ⟨e, he, rfl, rfl⟩ | ⟨hnew, steps, rfl⟩
  · refine ⟨?_, fun hlt => absurd hlt (Nat.lt_irrefl _), fun hmem => ?_⟩
    · refine (represents_of_get? he).congr ?_ (h.root_root _).symm
      rw [Node.key_key, canonical, Node.key_map, h.map_root fun heq => heq]
    · obtain ⟨hle, hlt, -⟩ := mem_literalsFrom.1 hmem
      omega
  · have hw := h.issue hnew fun c hmem => (hcanon c hmem).1
    have hext := (h.extends_issue hnew).trans (Steps.extends hw steps)
    have hnode : g'.Represents (node.map Int.toNat) g.issued := by
      have hrep := (Steps.extends hw steps).represents
        (represents_issue g (g.canonical (node.map Int.toNat)))
      refine hrep.congr ?_ rfl
      rw [canonical, Node.key_map, h.map_root hext.root_eq]
    refine ⟨hnode.congr rfl ?_, fun _ => hnode, fun hmem => ?_⟩
    · rw [(Steps.wellFormed hw steps).root_root]
    · refine represents_literalsFrom hw steps ?_
      rw [issued_issue]
      exact hmem

/-- Every request makes true what it says, and no later one takes it back. -/
theorem Run.recorded (run : Run log g) : Recorded log g := by
  induction run with
  | start =>
      exact ⟨fun hm => absurd hm List.not_mem_nil, fun hu =>
        absurd hu List.not_mem_nil⟩
  | @add log g g' node id run plain done ih =>
      have h := run.wellFormed
      have hold := ih.of_extends ((add_call h done).extends h)
      obtain ⟨hid, hnew, hlits⟩ := represents_add h done
      refine ⟨fun {m x} hm => ?_, hold.unions⟩
      simp only [Log.add, List.cons_append, List.mem_cons, List.mem_append] at hm
      -- the class that was answered, the new class of the node if it got one, and
      -- those of literals
      rcases hm with heq | (hm | hm) | hm
      · cases heq
        exact hid
      · split at hm
        · next hlt =>
          cases List.mem_singleton.1 hm
          exact hnew hlt
        · exact absurd hm List.not_mem_nil
      · exact hlits hm
      · exact hold.nodes hm
  | @merge log g g' a b id run done ih =>
      have h := run.wellFormed
      have hext := (merge_call h done).extends h
      have hold := ih.of_extends hext
      refine ⟨hold.nodes, fun {x y} hu => ?_⟩
      rcases List.mem_cons.1 hu with heq | hu
      · cases heq
        obtain ⟨⟨-, ha⟩, ⟨-, hb⟩, hunite⟩ := merge_inv done
        obtain ⟨-, hjoined, -⟩ := unite_joins h (h.root_lt ha) (h.root_lt hb) hunite
        -- the log has the numbers as they were given, while their roots were united
        rw [← hext.root_eq (h.root_root _), hjoined, hext.root_eq (h.root_root _)]
      · exact hold.unions hu
  | @rebuild log g g' run done ih =>
      have h := run.wellFormed
      have steps := rebuild_steps h done
      have hold := ih.of_extends (Steps.extends h steps)
      refine ⟨fun {m x} hm => ?_, hold.unions⟩
      rcases List.mem_append.1 hm with hm | hm
      · exact represents_literalsFrom h steps hm
      · exact hold.nodes hm

/-- A class that represents a number knows it. -/
theorem EGraph.Settled.constant?_of_represents (hw : g.WellFormed) (h : g.Settled)
    {m : Node ClassId} (hm : g.Represents m x) {a : Binary64}
    (ha : m.value? = some a) :
    ∃ c, g.constant? x = some c ∧ c.withoutMinusZero = a.withoutMinusZero := by
  obtain ⟨e, he, ho⟩ := h.get?_of_represents hm
  obtain ⟨w, hval, hwa⟩ := Node.value?_key ha
  rw [← Node.value?_map g.root] at hval
  obtain ⟨c, hc, hcw⟩ := hw.known he hval
  refine ⟨c, ?_, hcw.trans hwa⟩
  rw [constant?, ho] at hc
  exact hc

/-- A graph with nothing to repair. -/
structure Repaired (g : EGraph) : Prop where
  wellFormed : g.WellFormed
  tidy : Tidy [] [] g
  pending : g.pending = #[]

namespace Repaired

theorem settled (h : Repaired g) : g.Settled := fun _ _ he _ hc =>
  h.tidy.root_child h.pending he hc

theorem get?_of_represents (h : Repaired g) {m : Node ClassId}
    (hm : g.Represents m x) :
    ∃ e, g.table.get? (m.key.map g.root) = some e ∧ g.root e.owner = g.root x :=
  h.settled.get?_of_represents hm

theorem constant?_of_represents (h : Repaired g) {m : Node ClassId}
    (hm : g.Represents m x) {a : Binary64} (ha : m.value? = some a) :
    ∃ c, g.constant? x = some c ∧ c.withoutMinusZero = a.withoutMinusZero :=
  h.settled.constant?_of_represents h.wellFormed hm ha

/-- A represented computed width of numbers is in the class of its value. Tidiness
says so of stored nodes, and what is represented is stored under its canonical
form. -/
theorem literal_of_derived (h : Repaired g) {fn : WidthFn} {l r : ClassId}
    {a b c d : Binary64} (hnode : g.Represents (.derived fn l r) x)
    (hl : g.constant? l = some c)
    (hca : c.withoutMinusZero = a.withoutMinusZero) (hr : g.constant? r = some d)
    (hdb : d.withoutMinusZero = b.withoutMinusZero) :
    ∃ lit, g.table.get? (Node.literal (fn.eval a b)).key = some lit ∧
      g.root lit.owner = g.root x := by
  obtain ⟨e, he, ho⟩ := h.get?_of_represents hnode
  rw [← h.wellFormed.constant?_root] at hl hr
  rcases (h.tidy _ e he List.not_mem_nil).2 fn _ _ c d rfl hl hr with
    ⟨lit, hlit, hroot⟩ | hd | hd
  · refine ⟨lit, ?_, hroot.trans ho⟩
    rw [Node.key, ← fn.eval_congr hca hdb]
    exact hlit
  · exact absurd hd (not_due h.pending _)
  · exact absurd hd (not_due h.pending _)

/-- What a log forces to be congruent is in one class, by induction on the
congruence. Nodes with congruent children have the same canonical form by the
hypothesis of the induction, and a repaired graph has one class for each form. -/
theorem root_eq_of_congruent (h : Repaired g) (hrec : Recorded log g)
    (hc : Congruent log x y) : g.root x = g.root y := by
  induction hc with
  | refl x => rfl
  | symm _ ih => exact ih.symm
  | trans _ _ ih ih' => exact ih.trans ih'
  | united hu => exact hrec.unions hu
  | congr hm hn head _ ih =>
      refine h.settled.root_eq (hrec.nodes hm) (hrec.nodes hn) ?_
      rw [← Node.key_map, Node.map_eq_map head ih, Node.key_map]
  | folded hnode hm left _ hn right _ value ihl ihr =>
      obtain ⟨c, hc, hca⟩ := h.constant?_of_represents (hrec.nodes hm) left
      obtain ⟨d, hd, hdb⟩ := h.constant?_of_represents (hrec.nodes hn) right
      -- the arguments are in the classes of the numbers that they are congruent to
      rw [constant?, ← ihl] at hc
      rw [constant?, ← ihr] at hd
      obtain ⟨lit, hlit, hroot⟩ :=
        h.literal_of_derived (hrec.nodes hnode) hc hca hd hdb
      obtain ⟨e, he, ho⟩ := h.get?_of_represents (hrec.nodes value)
      rw [show (Node.literal _).key.map g.root = (Node.literal _).key from rfl,
        hlit] at he
      cases he
      exact hroot.symm.trans ho

end Repaired

theorem Run.repaired (run : Run log g) (done : EGraph.rebuild g = .ok () g') :
    Repaired g' where
  wellFormed := (run.rebuild done).wellFormed
  tidy := Calls.tidy wellFormed_empty tidy_empty (run.rebuild done).calls
  pending := rebuild_pending run.wellFormed done

/-! ## No others are -/

section

variable {S : Semantics D} {ν : ClassId → D} {node : Node ClassId}

/-- The literal that a new node is equated with denotes something. -/
theorem exists_denotes_of_equate (h : g.WellFormed) (hs : Sound S ν g) {v : Binary64}
    (hnew : g.table.get? node.key = none) (hc : ∀ c ∈ node.children, c < g.issued)
    (hne : (Node.literal v).key ≠ node.key)
    (heq : equate v g.issued (g.issue node) = .ok id g')
    (hlits : ∀ n c, g.issued + 1 ≤ n → n < g'.issued → g'.constant? n = some c →
      S.Denotes (Node.literal c).key (ν n)) :
      ∃ d, S.Denotes (Node.literal v).key d := by
  obtain ⟨z, g₁, henter, hunite⟩ := bind_inv heq
  rcases enter_cases henter with ⟨lit, hlit, -⟩ | ⟨hnone, rfl, rfl⟩
  · rw [get?_issue, if_neg hne] at hlit
    exact ⟨_, hs.stored hlit⟩
  · -- the literal is new, so the log has it under its constant
    have hw := h.issue hnew hc
    have hw' := hw.issue hnone (by simp [Node.children])
    have hlt : (g.issue node).issued <
        ((g.issue node).issue (.literal v)).issued := by
      rw [issued_issue (g.issue node)]
      exact Nat.lt_succ_self _
    have hy : g.issued < ((g.issue node).issue (.literal v)).issued := by
      rw [issued_issue, issued_issue]
      omega
    have hext := hw'.extends_unite hlt hy hunite
    obtain ⟨c, hcc, hcv⟩ := hext.constant hlt (hw.constant?_issue_new (.literal v))
    have hden :=
      hlits _ c (by rw [issued_issue]) (Nat.lt_of_lt_of_le hlt hext.issued_le) hcc
    exact ⟨_, by rwa [Node.key, hcv] at hden⟩

/-- A new node and the literal of its value, if it has one, keep a graph sound. If
the node is a computed width, the constant that its class gets must be shown by
something: its value was equated with a literal, which denotes something, and by
`hfold` this is what the width denotes. -/
theorem EGraph.Sound.intern (hfold : S.Folds fun _ => True) (h : g.WellFormed)
    (hs : Sound S ν g) (hc : ∀ c ∈ node.children, c < g.issued)
    (hi : EGraph.intern node g = .ok id g')
    (hden : g.issued < g'.issued → S.Denotes (node.key.map ν) (ν g.issued))
    (hlits : ∀ n c, g.issued + 1 ≤ n → n < g'.issued → g'.constant? n = some c →
      S.Denotes (Node.literal c).key (ν n)) : Sound S ν g' := by
  rcases intern_steps h hc hi with ⟨-, -, -, rfl⟩ | ⟨hnew, steps, -⟩
  · exact hs
  have hw := h.issue hnew hc
  have hlt : g.issued < g'.issued := by
    have hle := (Steps.extends hw steps).issued_le
    rw [issued_issue] at hle
    exact hle
  have hnode := hden hlt
  refine Steps.sound hw hfold (fun _ _ => trivial) (fun _ _ _ _ => trivial)
    (hs.issue h hnode fun c hfc => ?_) steps fun n c hn =>
      hlits n c (by rwa [issued_issue] at hn)
  cases node with
  | literal v => exact ⟨.literal v, v, rfl, by rw [Option.some.inj hfc], hnode⟩
  | sign s => exact ⟨.sign s, c, hfc, rfl, hnode⟩
  | symbol | binary => cases hfc
  | derived fn l r =>
      have hfd : g.foldDerived? (.derived fn l r) = some c := hfc
      obtain ⟨fn, l, r, a, b, heq, hl, hr, rfl⟩ := foldDerived?_inv hfd
      cases heq
      rcases intern_cases hi with ⟨e, he, -⟩ | ⟨-, ⟨hnone, -⟩ | ⟨v, hv, hequate⟩⟩
      · rw [hnew] at he
        cases he
      · rw [hfd] at hnone
        cases hnone
      · -- the value was equated with its literal, which has a class and so denotes
        -- something
        rw [hfd] at hv
        obtain rfl := Option.some.inj hv
        obtain ⟨d, hd⟩ :=
          exists_denotes_of_equate h hs hnew hc (by simp [Node.key]) hequate hlits
        have hval := hfold hnode (hs.constant (hc l (by simp [Node.children])) hl)
          (hs.constant (hc r (by simp [Node.children])) hr) trivial trivial trivial hd
        rw [hval]
        exact ⟨.literal (fn.eval a b), _, rfl, rfl, hd⟩

end

/-- Whatever a semantics makes of the class numbers, if it agrees with the log of a
run it agrees with the graph. By induction on the run, each request keeps the graph
sound as the log says enough about the numbers that it issues. -/
theorem Run.sound {S : Semantics D} {ν : ClassId → D} (hfold : S.Folds fun _ => True)
    (run : Run log g)
    (hnodes : ∀ {m x}, (m, x) ∈ log.nodes → S.Denotes (m.key.map ν) (ν x))
    (hunions : ∀ {x y}, (x, y) ∈ log.unions → ν x = ν y) : Sound S ν g := by
  have hz : ZeroBlind fun _ => True := fun _ _ => trivial
  induction run with
  | start => exact sound_empty S ν
  | @add log g g' node id run plain done ih =>
      have h := run.wellFormed
      have hold := ih (fun hm => hnodes (List.mem_append_right _ hm)) hunions
      obtain ⟨hc, hi⟩ := add_inv done
      have hcanon := canonical_children h (children_toNat_lt hc)
      -- what was added is the canonical form of the node in the log
      refine hold.intern hfold h (fun c hmem => (hcanon c hmem).1) hi
        (fun hlt => ?_) ?_
      · rw [hold.map_canonical]
        refine hnodes (List.mem_append_left _ (List.mem_append_left _ ?_))
        rw [if_pos hlt]
        exact List.mem_cons_of_mem _ List.mem_cons_self
      · intro n c hn hlt hcc
        have hmem := mem_literalsFrom.2 ⟨hn, hlt, c, hcc, rfl⟩
        have hden := hnodes (List.mem_append_left _ (List.mem_append_right _ hmem))
        rwa [Node.key, Binary64.withoutMinusZero_idem] at hden
  | @merge log g g' a b id run done ih =>
      have h := run.wellFormed
      have hold := ih hnodes fun hu => hunions (List.mem_cons_of_mem _ hu)
      obtain ⟨⟨-, ha⟩, ⟨-, hb⟩, hunite⟩ := merge_inv done
      refine hold.unite h (h.root_lt ha) (h.root_lt hb) ?_ hunite
      rw [hold.root, hold.root]
      exact hunions List.mem_cons_self
  | @rebuild log g g' run done ih =>
      have h := run.wellFormed
      have hold := ih (fun hm => hnodes (List.mem_append_right _ hm)) hunions
      refine Steps.sound h hfold hz (fun _ _ _ _ => trivial) hold
        (rebuild_steps h done) ?_
      intro n c hn hlt hc
      have hden :=
        hnodes (List.mem_append_left _ (mem_literalsFrom.2 ⟨hn, hlt, c, hc, rfl⟩))
      rwa [Node.key, Binary64.withoutMinusZero_idem] at hden

namespace Log

/-- Class numbers up to congruence. -/
def setoid (log : Log) : Setoid ClassId := ⟨Congruent log, .refl, .symm, .trans⟩

/-- The class of congruent numbers that a number is in. -/
def quotient (log : Log) : ClassId → Quotient log.setoid := Quotient.mk log.setoid

/-- Numbers are in one class of the quotient if and only if they are congruent. -/
theorem quotient_eq : log.quotient x = log.quotient y ↔ Congruent log x y :=
  Quotient.eq (r := log.setoid)

/-- Nodes denote what the log says of them. -/
def semantics (log : Log) : Semantics (Quotient log.setoid) where
  Denotes node d := ∃ m x, (m, x) ∈ log.nodes ∧ m.map log.quotient = node ∧
    log.quotient x = d
  unique := by
    intro _ _ _ hm hn
    obtain ⟨m, x, hm, rfl, rfl⟩ := hm
    obtain ⟨n, y, hn, hmap, rfl⟩ := hn
    refine quotient_eq.2
      (.congr hm hn (Node.head_eq_of_map_eq hmap.symm) fun p hp => ?_)
    exact quotient_eq.1 (Node.children_eq_of_map_eq hmap.symm p hp)

/-- No node of a log is the literal minus zero. -/
def Plain (log : Log) : Prop :=
  ∀ {m x}, (m, x) ∈ log.nodes → m ≠ .literal (.zero true)

/-- So minus zero is the value of no node either. -/
theorem Plain.value_ne (h : log.Plain) {m : Node ClassId} (hm : (m, x) ∈ log.nodes)
    {v : Binary64} (hv : m.value? = some v) : v ≠ .zero true := by
  cases m with
  | literal a =>
      rw [← Option.some.inj hv]
      exact fun ha => h hm (by rw [ha])
  | sign s =>
      rw [← Option.some.inj hv, Binary64.ofNat_eq (by cases s <;> decide)]
      simp [Binary64.zero]
  | symbol | derived | binary => cases hv

/-- A number that a class shows is that of a node in the log. -/
theorem exists_of_shows {a : Binary64}
    (ha : log.semantics.Shows (log.quotient x) a) :
    ∃ m p w, (m, p) ∈ log.nodes ∧ m.value? = some w ∧
      w.withoutMinusZero = a.withoutMinusZero ∧ Congruent log x p := by
  obtain ⟨n, v, hn, hva, m, p, hm, hmap, hp⟩ := ha
  obtain ⟨w, hw, hwv⟩ := Node.value?_key hn
  rw [← hmap, Node.value?_map] at hw
  exact ⟨m, p, w, hm, hw, hwv.trans hva, quotient_eq.1 hp.symm⟩

/-- The literal of a computed width is in the log if it denotes anything. -/
theorem exists_of_denotes_literal {d : Quotient log.setoid} {v : Binary64}
    (hd : log.semantics.Denotes (Node.literal v).key d) (hv : v ≠ .zero true) :
    ∃ y, (.literal v, y) ∈ log.nodes ∧ log.quotient y = d := by
  obtain ⟨m, y, hm, hmap, hy⟩ := hd
  rw [Node.key_of_ne fun h => hv (Node.literal.inj h)] at hmap
  cases m with
  | literal w =>
      cases hmap
      exact ⟨y, hm, hy⟩
  | sign | symbol | derived | binary => cases hmap

/-- The congruence makes a computed width equal to its value, as long as the literal
of the value denotes anything at all. -/
theorem folds (h : log.Plain) : log.semantics.Folds fun _ => True := by
  intro fn x y d e a b hd hx hy _ _ _ he
  obtain ⟨m, z, hm, hmap, rfl⟩ := hd
  cases m with
  | literal | sign | symbol | binary => cases hmap
  | derived fn' l r =>
      cases hmap
      obtain ⟨m₁, p, v, hm₁, hv, hva, hl⟩ := exists_of_shows hx
      obtain ⟨m₂, q, w, hm₂, hw, hwb, hr⟩ := exists_of_shows hy
      rw [Node.key, ← fn.eval_congr hva hwb] at he
      -- the value is not minus zero, so its key denotes what the literal itself is
      -- in
      obtain ⟨u, hu, rfl⟩ := exists_of_denotes_literal he
        (WidthFn.eval_ne_minusZero (h.value_ne hm₁ hv))
      exact quotient_eq.2 (.folded hm hm₁ hv hl hm₂ hw hr hu)

end Log

theorem withoutMinusZero_ne (v : Binary64) : v.withoutMinusZero ≠ .zero true := by
  unfold Binary64.withoutMinusZero
  split
  · simp [Binary64.zero]
  · next h => exact h

/-- The log has literals under numbers without a minus zero. -/
theorem plain_literalsFrom {start : Nat} {m : Node ClassId}
    (hm : (m, x) ∈ g.literalsFrom start) : m ≠ .literal (.zero true) := by
  obtain ⟨-, -, c, -, rfl⟩ := mem_literalsFrom.1 hm
  exact fun h => withoutMinusZero_ne c (Node.literal.inj h)

/-- A run says nothing of the literal minus zero, since no request adds it and the
graph adds no such literal on its own. -/
theorem Run.plain (run : Run log g) : log.Plain := by
  induction run with
  | start => exact fun hm => absurd hm List.not_mem_nil
  | @add log g g' node id run plain done ih =>
      intro m x hm
      have hnode : node.map Int.toNat ≠ .literal (.zero true) := by
        intro h
        cases node <;> simp_all [Node.map]
      simp only [Log.add, List.cons_append, List.mem_cons, List.mem_append] at hm
      rcases hm with heq | (hm | hm) | hm
      · cases heq
        exact hnode
      · split at hm
        · cases List.mem_singleton.1 hm
          exact hnode
        · exact absurd hm List.not_mem_nil
      · exact plain_literalsFrom hm
      · exact ih hm
  | merge _ _ ih => exact ih
  | @rebuild log g g' run done ih =>
      intro m x hm
      rcases List.mem_append.1 hm with hm | hm
      · exact plain_literalsFrom hm
      · exact ih hm

/-- The numbers of a run up to congruence make its graph true. -/
theorem Run.sound_quotient (run : Run log g) :
    Sound log.semantics log.quotient g := by
  refine run.sound (Log.folds run.plain) (fun {m x} hm => ?_) fun hu => ?_
  · exact ⟨m, x, hm, by rw [Node.key_of_ne (run.plain hm)], rfl⟩
  · exact Log.quotient_eq.2 (.united hu)

/-! ## Congruence closure -/

theorem find_natCast (hx : x < g.issued) : g.find (x : Int) = .ok (g.root x) :=
  if_pos hx

/-- After a run that ends with a rebuild, two numbers are in one class if and only if
they are congruent by what the run has said, and every computed width of numbers has
its literal. The second part keeps the first one from being empty where widths are
evaluated: the rule for computed widths asks for a literal in the log, and this is
always there. -/
theorem find_eq_iff_congruent (run : Run log g)
    (done : EGraph.rebuild g = .ok () g') :
    (∀ x < g'.issued, ∀ y < g'.issued,
      g'.find x = g'.find y ↔ Congruent (log.rebuild g g') x y) ∧
    ∀ {fn l r z p q m n a b}, (.derived fn l r, z) ∈ (log.rebuild g g').nodes →
      (m, p) ∈ (log.rebuild g g').nodes → m.value? = some a →
      Congruent (log.rebuild g g') l p →
      (n, q) ∈ (log.rebuild g g').nodes → n.value? = some b →
      Congruent (log.rebuild g g') r q →
      ∃ y, (.literal (fn.eval a b), y) ∈ (log.rebuild g g').nodes := by
  have run' := run.rebuild done
  have hrep := run.repaired done
  have hrec := run'.recorded
  have hsound := run'.sound_quotient
  constructor
  · intro x hx y hy
    rw [find_natCast hx, find_natCast hy]
    constructor
    · intro h
      exact Log.quotient_eq.1 (hsound.of_root_eq (Except.ok.inj h))
    · intro h
      rw [hrep.root_eq_of_congruent hrec h]
  · intro fn l r z p q m n a b hnode hm ha hl hn hb hr
    obtain ⟨c, hc, hca⟩ := hrep.constant?_of_represents (hrec.nodes hm) ha
    obtain ⟨d, hd, hdb⟩ := hrep.constant?_of_represents (hrec.nodes hn) hb
    rw [constant?, ← hrep.root_eq_of_congruent hrec hl] at hc
    rw [constant?, ← hrep.root_eq_of_congruent hrec hr] at hd
    obtain ⟨lit, hlit, -⟩ := hrep.literal_of_derived (hrec.nodes hnode) hc hca hd hdb
    obtain ⟨y, hy, -⟩ := Log.exists_of_denotes_literal (hsound.stored hlit)
      (WidthFn.eval_ne_minusZero (Log.Plain.value_ne run'.plain hm ha))
    exact ⟨y, hy⟩

/-- Uniting two symbols makes the sums over them congruent, and nothing else. -/
theorem find_eq_iff_congruent_merge :
    ∃ log g g', Run log g ∧ EGraph.rebuild g = .ok () g' ∧
    Congruent (log.rebuild g g') 2 3 ∧ ¬ Congruent (log.rebuild g g') 0 2 := by
  have hrun : (fromEmpty (ε := GraphError) do
      let _ ← EGraph.add (.symbol "a")
      let _ ← EGraph.add (.symbol "b")
      let _ ← EGraph.add (.derived .sum 0 0)
      let _ ← EGraph.add (.derived .sum 1 1)
      let _ ← EGraph.merge 0 1
      EGraph.rebuild
      let g ← get
      return (decide (3 < g.issued), decide (g.root 2 = g.root 3),
        decide (g.root 0 = g.root 2))
      ).toOption.map (·.1) = some (true, true, false) := by
    decide +kernel
  obtain ⟨⟨answers, g'⟩, hok, hanswers⟩ := Option.map_eq_some_iff.1 hrun
  obtain ⟨a₁, g₁, h₁, hok⟩ := bind_inv (fromEmpty_inv (toOption_inv hok))
  obtain ⟨a₂, g₂, h₂, hok⟩ := bind_inv hok
  obtain ⟨a₃, g₃, h₃, hok⟩ := bind_inv hok
  obtain ⟨a₄, g₄, h₄, hok⟩ := bind_inv hok
  obtain ⟨a₅, g₅, h₅, hok⟩ := bind_inv hok
  obtain ⟨⟨⟩, g₆, h₆, hok⟩ := bind_inv hok
  rw [get_bind] at hok
  obtain ⟨rfl, rfl⟩ := pure_inv hok
  simp only [Prod.mk.injEq, decide_eq_true_eq, decide_eq_false_iff_not] at hanswers
  obtain ⟨hlt, heq, hne⟩ := hanswers
  have run := ((((Run.start.add (by simp) h₁).add (by simp) h₂).add (by simp)
    h₃).add (by simp) h₄).merge h₅
  have hiff := (find_eq_iff_congruent run h₆).1
  have h0 : 0 < g₆.issued := by omega
  have h2 : 2 < g₆.issued := by omega
  refine ⟨_, g₅, g₆, run, h₆, (hiff 2 h2 3 hlt).1 ?_, fun hc => hne ?_⟩
  · rw [find_natCast h2, find_natCast hlt, heq]
  · have hfind := (hiff 0 h0 2 h2).2 hc
    rw [find_natCast h0, find_natCast h2] at hfind
    exact Except.ok.inj hfind

end Datapath

import Datapath.Proofs.Loading
import Datapath.Proofs.Matching
import Datapath.Proofs.Success

/-!
# Datapath.Proofs.Retrieval

What was added once is found again.

A repair stores nodes under new keys, drops those that have become equal to others,
and moves computed widths into the classes of their values. All this extends the
graph, so a node that was added stays represented, and in a graph without anything to
repair a represented node is the one stored under its canonical form. Adding the node
again, or a term made of such nodes, therefore changes nothing and answers with the
number that now stands for the class (`retrieved_of_rebuilds`).
-/

namespace Datapath

/-- Replacing the elements of a list one by one leaves a state that no single
replacement changes. -/
theorem exists_mapM_unchanged {ε σ α β γ : Type} {f : α → EStateM ε σ β}
    {R : α → γ → Prop} {S : β → γ → Prop} {s : σ} {l : List α} {cs : List γ}
    (h : List.Forall₂ R l cs)
    (hf : ∀ a ∈ l, ∀ c, R a c → ∃ b, f a s = .ok b s ∧ S b c) :
    ∃ bs, l.mapM f s = .ok bs s ∧ List.Forall₂ S bs cs := by
  induction h with
  | nil => exact ⟨[], rfl, .nil⟩
  | @cons a c rest cs hac _ ih =>
      obtain ⟨b, hb, hbc⟩ := hf a List.mem_cons_self c hac
      obtain ⟨bs, hbs, hall⟩ := ih fun a' ha' => hf a' (List.mem_cons_of_mem _ ha')
      refine ⟨b :: bs, ?_, .cons hbc hall⟩
      rw [List.mapM_cons, bind_ok hb, bind_ok hbs]
      rfl

/-- A ground term is not a variable. -/
theorem Pattern.exists_ofNode_of_vars {p : Pattern} (h : p.vars = []) :
    ∃ n, p = .ofNode n := by
  induction p using Pattern.layers with
  | var name =>
      have hname : name ∈ (Pattern.var name).vars :=
        Pattern.mem_vars.2 List.mem_cons_self
      rw [h] at hname
      exact absurd hname List.not_mem_nil
  | node n _ => exact ⟨n, rfl⟩

namespace EGraph

variable {g g₁ g₂ g₃ : EGraph} {x : ClassId} {node : Node Int} {s : Subst}
  {p : Pattern} {op : Operation}

/-! ## What a settled graph holds already -/

namespace Settled

theorem get?_canonical (h : g.Settled) {m : Node ClassId} (hm : g.Represents m x) :
    ∃ e, g.table.get? (g.canonical m).key = some e ∧ g.root e.owner = g.root x := by
  rw [canonical, Node.key_map]
  exact h.get?_of_represents hm

/-- A represented node is not added again. -/
theorem add_eq (h : g.Settled) (hc : ∀ c ∈ node.children, g.Issued c)
    (hm : g.Represents (node.map Int.toNat) x) : add node g = .ok (g.root x) g := by
  obtain ⟨e, he, ho⟩ := h.get?_canonical hm
  have hask : ask (·.resolve node) g = .ok (g.canonical (node.map Int.toNat)) g := by
    rw [ask, resolve_of_issued hc]
  rw [add, bind_ok hask, EGraph.intern, he]
  dsimp only
  rw [enter, he, ← ho]

/-- A represented node is looked up as the number that stands for its class. -/
theorem lookup_eq (h : g.Settled) (hc : ∀ c ∈ node.children, g.Issued c)
    (hm : g.Represents (node.map Int.toNat) x) :
    g.lookup node = .ok (some (g.root x)) := by
  obtain ⟨e, he, ho⟩ := h.get?_canonical hm
  rw [lookup, resolve_of_issued hc, ← ho]
  exact congrArg
    (fun found => Except.ok (found.map fun entry => g.root entry.owner)) he

/-- An instance that a class holds is not added again. -/
theorem instantiate_of_realizes (h : g.Settled) (hw : g.WellFormed)
    (hs : g.BoundIn s) (hp : g.Realizes s p x) :
    ∃ ref, EGraph.instantiate s p g = .ok ref g ∧ g.Issued ref ∧
      g.root ref.toNat = g.root x ∧ ∀ n, p = .ofNode n → ref = g.root x := by
  induction p using Pattern.layers generalizing x with
  | var name =>
      obtain ⟨ref, hget, hroot⟩ := hp
      refine ⟨ref, ?_, hs name ref hget, hroot, fun n hn => ?_⟩
      · rw [EGraph.instantiate, hget]
        rfl
      · cases n <;> cases hn
  | node n ih =>
      obtain ⟨m, ⟨hhead, hall⟩, hm⟩ := Pattern.occurs_ofNode.1 hp
      -- the slots are there already, in the classes of the children
      obtain ⟨refs, hrefs, hslots⟩ := exists_mapM_unchanged
        (S := fun ref c => g.Issued ref ∧ g.root ref.toNat = g.root c) hall
        fun q hq c hc => by
          obtain ⟨ref, hrun, hissued, hroot, -⟩ := ih q hq hc
          exact ⟨ref, hrun, hissued, hroot⟩
      obtain ⟨hchildren, hhead'⟩ := Node.children_withChildren
        (hall.length_eq.trans hslots.length_eq.symm) (0 : Int)
      generalize hlayer : (n.map fun _ => (0 : Int)).withChildren refs = layer
        at hchildren hhead'
      have hrel :
          layer.Rel (fun ref c => g.Issued ref ∧ g.root ref.toNat = g.root c) m :=
        ⟨hhead'.trans hhead, by rw [hchildren]; exact hslots⟩
      have hissued : ∀ c ∈ layer.children, g.Issued c := fun c hc => by
        obtain ⟨-, -, hissued, -⟩ := hrel.exists_right hc
        exact hissued
      -- so the layer over them has the canonical form of the node that is
      -- represented
      have hcanon : (layer.map Int.toNat).map g.root = m.map g.root := by
        rw [Node.map_map]
        exact Node.Rel.iff_map_eq.1
          (Node.Rel.map_right.2 (hrel.imp fun _ _ _ _ h => h.2))
      have hrep : g.Represents (layer.map Int.toNat) x := hm.congr
        (by rw [← Node.key_map, ← Node.key_map, hcanon]) rfl
      obtain ⟨e, he, ho⟩ := h.get?_canonical hrep
      have hlt : g.root x < g.issued := by
        rw [← ho]
        exact hw.root_lt (hw.owner_lt he)
      refine ⟨g.root x, ?_, ⟨Int.natCast_nonneg _, hlt⟩, hw.root_root x,
        fun _ _ => rfl⟩
      rw [instantiate_ofNode, bind_ok hrefs, hlayer]
      show EStateM.map Int.ofNat (add layer) g = _
      rw [EStateM.map, h.add_eq hissued hrep]
      rfl

/-- A ground term that a class holds is not added again. -/
theorem addGround_of_realizes (h : g.Settled) (hw : g.WellFormed)
    (hvars : p.vars = []) (hp : g.Realizes [] p x) :
    addGround p g = .ok (g.root x) g := by
  obtain ⟨ref, hrun, -, -, hroot⟩ := h.instantiate_of_realizes hw (boundIn_nil g) hp
  obtain ⟨n, rfl⟩ := Pattern.exists_ofNode_of_vars hvars
  rw [addGround, if_pos (List.isEmpty_iff.2 hvars), hrun, hroot n rfl]

end Settled

/-! ## Later graphs -/

/-- Operations without an error lead from the first graph to the second. -/
def Later : EGraph → EGraph → Prop :=
  Relation.ReflTransGen fun g g' => ∃ op : Operation, op.Runs g g'

theorem Later.calls (h : Later g g₁) (hw : g.WellFormed) : Calls g g₁ := by
  induction h with
  | refl => exact .refl
  | tail _ hrun ih =>
      obtain ⟨op, hrun⟩ := hrun
      exact ih.trans (op.calls (Calls.wellFormed hw ih) hrun)

theorem Operation.Rebuilds.rebuilt (hop : op.Rebuilds) (c : Calls empty g)
    (hrun : op.Runs g g₁) : g₁.Rebuilt := by
  obtain ⟨t, c', hlast⟩ := hop.last (Calls.wellFormed wellFormed_empty c) hrun
  exact ⟨t, c.trans c', hlast⟩

/-- A term that was added, or a node, is found again in every later graph that has
just been rebuilt. Nothing is added to the graph, in which nothing is pending, and
the answer is the number that stands for the class that was returned at first. -/
theorem retrieved_of_rebuilds (op : Operation) (hg : Reached g₂) (hop : op.Rebuilds)
    (hrun : op.Runs g₂ g₃) :
    g₃.pending = #[] ∧ ∀ g g₁, Reached g → Later g₁ g₂ →
      (∀ t ref, addGround t g = .ok ref g₁ →
        ∃ id, g₃.find ref = .ok id ∧ addGround t g₃ = .ok id g₃) ∧
      (∀ text ref, load text g = .ok ref g₁ →
        ∃ id, g₃.find ref = .ok id ∧ load text g₃ = .ok id g₃) ∧
      ∀ n id, add n g = .ok id g₁ →
        ∃ k, g₃.find id = .ok k ∧ g₃.lookup n = .ok (some k) ∧
          add n g₃ = .ok k g₃ := by
  have hrebuilt := hop.rebuilt hg.calls hrun
  have hw₃ := hrebuilt.wellFormed
  have hsettled := hrebuilt.repaired.settled
  refine ⟨hrebuilt.repaired.pending, fun g g₁ hstart hlater => ?_⟩
  have hw := Calls.wellFormed wellFormed_empty hstart.calls
  -- what the call has left behind is still there
  have hlast (c : Calls g g₁) : Extends g₁ g₃ := by
    have hw₁ := Calls.wellFormed hw c
    have hcalls := hlater.calls hw₁
    exact Calls.extends hw₁
      (hcalls.trans (op.calls (Calls.wellFormed hw₁ hcalls) hrun))
  have hterm {t : Pattern} {ref : Int} (ha : addGround t g = .ok ref g₁) :
      ∃ id, g₃.find ref = .ok id ∧ addGround t g₃ = .ok id g₃ := by
    obtain ⟨hvars, hi⟩ := addGround_inv ha
    have hext := hlast (addGround_calls hw ha)
    have hrefers := (refers_of_instantiate hw (boundIn_nil g) hi).of_extends hext
    exact ⟨_, find_of_issued hrefers.1,
      hsettled.addGround_of_realizes hw₃ hvars hrefers.2⟩
  refine ⟨fun t ref => hterm, fun text ref hload => ?_, fun n id ha => ?_⟩
  · obtain ⟨t, hparse, ha⟩ := load_inv hload
    obtain ⟨id, hfind, hagain⟩ := hterm ha
    refine ⟨id, hfind, ?_⟩
    rw [load, hparse]
    show loading (addGround t) g₃ = _
    rw [loading, hagain]
  · have hext := hlast (.single (add_call hw ha))
    have hc : ∀ c ∈ n.children, g₃.Issued c := fun c hmem =>
      Issued.of_extends ((add_inv ha).1 c hmem)
        (((add_call hw ha).extends hw).trans hext)
    have hrep := hext.represents (represents_add hw ha).1
    exact ⟨_, find_of_issued ((issued_of_add hw ha).of_extends hext),
      hsettled.lookup_eq hc hrep, hsettled.add_eq hc hrep⟩

/-- A repair stores `(max+1 a b)` under a new key, as `a` and `b` have become 3 and
4, and puts it into the class of 5, where the term is found again. -/
theorem retrieved_of_rebuilds_folded :
    ∃ (g₁ g₂ g₃ : EGraph) (ref : Int) (id : ClassId),
    addGround (.derived .sum (.symbol "a") (.symbol "b")) .empty =
      .ok ref g₁ ∧ Later g₁ g₂ ∧
      Operation.rebuild.Runs g₂ g₃ ∧ (id : Int) ≠ ref ∧ g₃.find ref = .ok id ∧
      addGround (.derived .sum (.symbol "a") (.symbol "b")) g₃ = .ok id g₃ := by
  have hrun : (fromEmpty (ε := GraphError) do
      let ref ← addGround (.derived .sum (.symbol "a") (.symbol "b"))
      let _ ← EGraph.add (.literal (.ofNat 3))
      let _ ← EGraph.add (.literal (.ofNat 4))
      let _ ← EGraph.merge 0 3
      let _ ← EGraph.merge 1 4
      EGraph.rebuild
      let g ← get
      return decide (g.root ref.toNat ≠ ref)).toOption.map (·.1) = some true := by
    decide +kernel
  obtain ⟨⟨moved, g⟩, hok, hmoved⟩ := Option.map_eq_some_iff.1 hrun
  obtain ⟨ref, g₁, h₁, hok⟩ := bind_inv (fromEmpty_inv (toOption_inv hok))
  obtain ⟨a₂, g₂, h₂, hok⟩ := bind_inv hok
  obtain ⟨a₃, g₃, h₃, hok⟩ := bind_inv hok
  obtain ⟨a₄, g₄, h₄, hok⟩ := bind_inv hok
  obtain ⟨a₅, g₅, h₅, hok⟩ := bind_inv hok
  obtain ⟨⟨⟩, g₆, h₆, hok⟩ := bind_inv hok
  rw [get_bind] at hok
  obtain ⟨rfl, rfl⟩ := pure_inv hok
  have hlater : Later g₁ g₅ :=
    (((Relation.ReflTransGen.refl.tail ⟨.add _, a₂, h₂⟩).tail ⟨.add _, a₃, h₃⟩).tail
      ⟨.merge 0 3, a₄, h₄⟩).tail ⟨.merge 1 4, a₅, h₅⟩
  have hterms : Reached g₃ :=
    .run (.add _) (.run (.add _) (.run (.addTerm _) .empty
      ⟨ref, h₁⟩) ⟨a₂, h₂⟩) ⟨a₃, h₃⟩
  have hreached : Reached g₅ :=
    .run (.merge 1 4) (.run (.merge 0 3) hterms ⟨a₄, h₄⟩) ⟨a₅, h₅⟩
  obtain ⟨hterm, -, -⟩ :=
    (retrieved_of_rebuilds .rebuild hreached trivial h₆).2 .empty g₁ .empty hlater
  obtain ⟨id, hfind, hagain⟩ := hterm _ ref h₁
  refine ⟨g₁, g₅, g₆, ref, id, h₁, hlater, h₆, ?_, hfind, hagain⟩
  rw [(find_inv hfind).2.2]
  exact of_decide_eq_true hmoved

end EGraph

end Datapath

import Datapath.Proofs.Retrieval
import Datapath.Proofs.Simulation
import Datapath.Proofs.Snapshot

/-!
# Datapath.Proofs.Inverse

Matching and adding instances undo each other.

Where a pattern matches in a graph that has just been rebuilt, its instance is there
already: adding it changes nothing, on the maps nothing but pointers, and answers
with the class of the match. Conversely, an instance that was added is found after
the next repair, by the substitution that binds every variable to the number that
stands for its class by then (`refresh`). Both are stated in
`matchesAt_inverse_instantiate`.

An instance is added bottom-up, under keys, and matched top-down, in the nodes of
classes. What the two have in common is that the class holds the instance
(`Realizes`), and this lasts while a repair stores nodes under new keys and moves
computed widths into the classes of their values.
-/

namespace Datapath

/-- A loop depends on what is done to the members of its list. -/
theorem mapM_congr {ε σ α β : Type} {f k : α → EStateM ε σ β} {l : List α}
    (h : ∀ a ∈ l, f a = k a) : l.mapM f = l.mapM k := by
  induction l with
  | nil => rfl
  | cons a rest ih =>
      rw [List.mapM_cons, List.mapM_cons, h a List.mem_cons_self, ih fun b hb =>
        h b (List.mem_cons_of_mem _ hb)]

/-- Bindings of some of the names are those of these names. -/
theorem Bindings.get?_filter {α : Type} (s : Bindings α) (keep : String → Bool)
    (name : String) :
    Bindings.get? (s.filter fun b => keep b.1) name = if keep name then s.get? name
    else none := by
  induction s with
  | nil => simp [get?]
  | cons b rest ih =>
      rw [List.filter_cons]
      by_cases hb : b.1 = name
      · subst hb
        cases hk : keep b.1 <;> simp [get?, ih, hk]
      · cases keep b.1 <;> simp [get?, ih, hb]

/-! ## Computations that leave the graph as it is -/

namespace Concrete

variable {α : Type} {c c' : Concrete} {g : EGraph}

/-- A computation that leaves the graph as it is leaves the maps as they are, up to
pointers. -/
theorem Agree.reads {x : ConcreteM α} {y : GraphM α} {a : α} (h : Agree x y c g)
    (hm : Models c g) (hy : y g = .ok a g) : Reads x c (.ok a) := by
  cases h with
  | ok concrete run models =>
      cases hy.symm.trans run
      obtain ⟨halike, hforest⟩ := hm.sameButPointers models
      exact ⟨_, halike, concrete.trans (congrArg (EStateM.Result.ok _) hforest)⟩
  | error concrete run _ => cases hy.symm.trans run

end Concrete

namespace EGraph

variable {g g' : EGraph} {s : Subst} {p : Pattern} {ref : Int} {x id : ClassId}
  {names : List String} {σ : String → ClassId}

/-! ## Substitutions that are out of date -/

/-- The bindings of some variables, each to the number that now stands for the class
it means. -/
def refresh (g : EGraph) (s : Subst) (names : List String) :
    Except GraphError Subst :=
  names.mapM fun name =>
    match s.get? name with
    | some ref => do return (name, Int.ofNat (← g.find ref))
    | none => throw (.unboundVariable name)

/-- The number that now stands for the class that a variable is bound to. -/
def boundTo (g : EGraph) (s : Subst) (name : String) : ClassId :=
  g.root ((s.get? name).getD 0).toNat

theorem boundTo_eq {name : String} (h : s.get? name = some ref) :
    g.boundTo s name = g.root ref.toNat := by
  rw [boundTo, h, Option.getD_some]

/-- Refreshing a substitution does not fail where the variables are bound, and
assigns the roots to them. -/
theorem refresh_eq
    (h : ∀ name ∈ names, ∃ ref, s.get? name = some ref ∧ g.Issued ref) :
    g.refresh s names.eraseDups = .ok (assign (g.boundTo s) names) := by
  refine mapM_eq_ok fun name hname => ?_
  obtain ⟨ref, hget, href⟩ := h name (List.mem_eraseDups.1 hname)
  rw [boundTo_eq hget, hget]
  dsimp only
  rw [find_of_issued href]
  rfl

/-! ## Adding instances -/

/-- What is bound beside the variables of a pattern does not matter for its instance.
The induction is on the pattern. -/
theorem instantiate_congr {s' : Subst}
    (h : ∀ name ∈ p.occurrences, s'.get? name = s.get? name) :
    instantiate s' p = instantiate s p := by
  induction p using Pattern.layers with
  | var name => rw [instantiate, instantiate, h name (by simp [Pattern.occurrences])]
  | node n ih =>
      have hslots : n.children.mapM (instantiate s') =
          n.children.mapM (instantiate s) :=
        mapM_congr fun q hq => ih q hq fun name hname => h name (by
          rw [Pattern.occurrences_ofNode]
          exact List.mem_flatMap.2 ⟨q, hq, hname⟩)
      rw [instantiate_ofNode, instantiate_ofNode, hslots]

/-- The class of an added instance holds it, whatever else the substitution binds.
Other variables may be bound to numbers that were never issued. -/
theorem refers_of_bound (hw : g.WellFormed)
    (hs : ∀ name ∈ p.occurrences, ∃ ref, s.get? name = some ref ∧ g.Issued ref)
    (hi : instantiate s p g = .ok ref g') : g'.Refers s p ref := by
  let kept : Subst := s.filter fun b => decide (b.1 ∈ p.occurrences)
  have hget (name : String) : kept.get? name = if name ∈ p.occurrences then
      s.get? name else none := by
    simpa using Bindings.get?_filter s
      (fun name => decide (name ∈ p.occurrences)) name
  have hkept {name : String} {ref : Int} (h : kept.get? name = some ref) :
      name ∈ p.occurrences ∧ s.get? name = some ref := by
    rw [hget] at h
    split at h
    · next hname => exact ⟨hname, h⟩
    · cases h
  -- what the instance does not use may be bound to anything, so it is left out
  have hbound : g.BoundIn kept := by
    intro name ref h
    obtain ⟨hname, hbind⟩ := hkept h
    obtain ⟨ref', hs', href'⟩ := hs name hname
    obtain rfl := Option.some.inj (hs'.symm.trans hbind)
    exact href'
  rw [← instantiate_congr fun name hname => (hget name).trans (if_pos hname)] at hi
  obtain ⟨hissued, hreal⟩ := refers_of_instantiate hw hbound hi
  refine ⟨hissued, hreal.imp (A := fun _ => True) (fun _ _ _ _ => trivial)
    (fun {name k} _ hat => ?_) (fun _ hm => hm) trivial⟩
  obtain ⟨ref', hbind, hroot⟩ := hat
  exact ⟨ref', (hkept hbind).2, hroot⟩

/-- Adding an instance comes down to adding nodes, so it leads to graphs that are
reached without it. -/
theorem Reached.of_instantiate (h : Reached g)
    (hi : instantiate s p g = .ok ref g') : Reached g' := by
  induction p using Pattern.layers generalizing g g' ref with
  | var name =>
      unfold instantiate at hi
      cases hs : s.get? name with
      | some bound =>
          rw [hs] at hi
          obtain ⟨-, rfl⟩ := pure_inv hi
          exact h
      | none => rw [hs] at hi; cases hi
  | node n ih =>
      rw [instantiate_ofNode] at hi
      obtain ⟨refs, t, hrefs, hlast⟩ := bind_inv hi
      obtain ⟨id, hadd, -⟩ := map_inv hlast
      obtain ⟨ht, -⟩ := mapM_inv (I := Reached) (P := fun _ _ _ => True)
        (fun q hq t r t' ht hrun => ⟨ih q hq ht hrun, trivial, fun hp => hp⟩) h hrefs
      exact .run (.add _) ht ⟨id, hadd⟩

/-- So does adding the terms of a text. -/
theorem Reached.of_loadAll (h : Reached g) {text : String} {refs : List Int}
    (hrun : loadAll text g = .ok refs g') : Reached g' := by
  obtain ⟨terms, t, hread, hterms⟩ := bind_inv hrun
  obtain rfl : t = g := by
    unfold reading at hread
    cases hparse : Pattern.parseAll text with
    | ok terms' => rw [hparse] at hread; exact (pure_inv hread).2.symm
    | error e => rw [hparse] at hread; cases hread
  exact (mapM_inv (I := Reached) (P := fun _ _ _ => True)
    (fun term _ t r t' ht hrun =>
      ⟨.run (.addTerm term) ht ⟨r, loading_inv hrun⟩, trivial, fun hp =>
        hp⟩) h hterms).1

/-! ## Matches -/

/-- Adding the instance of a match to a graph with nothing to repair answers with the
class of the match and changes nothing. The class holds the instance already, and in
a settled graph what is held is found under its key. -/
theorem Settled.instantiate_of_mem_matchIn (h : g.Settled) (hw : g.WellFormed)
    (hid : id < g.issued) (hs : s ∈ g.matchIn p id []) :
    EGraph.instantiate s p g = .ok (g.root id) g := by
  obtain ⟨hprolongs, hreal⟩ := realizes_of_mem_matchIn hw hid hs
  cases p using Pattern.layers with
  | var name =>
      -- a variable alone is answered with what it is bound to, which a match binds
      -- to a root
      obtain rfl := List.mem_singleton.1 hs
      rw [EGraph.instantiate, Bindings.get?_set, if_pos rfl]
      rfl
  | node n =>
      obtain ⟨ref, hrun, -, -, hroot⟩ :=
        h.instantiate_of_realizes hw (hprolongs.boundIn (boundIn_nil g)) hreal
      rw [hrun, hroot n rfl]

/-- An instance that a repaired graph holds is represented where its variables stand
for the roots of their classes. -/
theorem Rebuilt.representedBy (hg : g.Rebuilt) (hp : g.Realizes s p x) :
    g.RepresentedBy (g.boundTo s) p (g.root x) := by
  refine hp.map g.root (A := fun _ => True)
    (fun _ _ _ _ => trivial) (fun {name k} _ hbound => ?_)
    (fun _ hm => ?_) trivial
  · obtain ⟨ref, hget, hroot⟩ := hbound
    rw [boundTo_eq hget, hroot]
  · exact (hg.mem_of_snapshot (hg.repaired.settled.snapshot hm)).2

/-- The numbers in a pattern that was read are widths. -/
theorem isWidth_of_parse {text : String} (hp : Pattern.parse text = .ok p) :
    ∀ v, .literal v ∈ p.parts → Binary64.IsWidth v := by
  intro v hv
  obtain ⟨n, hn⟩ := (Pattern.atomic_of_parse hp).literal hv
  rw [hn]
  exact Binary64.isWidth_ofNat n

/-- A pattern that was read has no number that equals nothing. -/
theorem level_of_parse {text : String} (hp : Pattern.parse text = .ok p) :
    ∀ v, .literal v ∈ p.parts → v.level ≠ none :=
  fun v hv => (isWidth_of_parse hp v hv).level

/-- The search finds every instance that a repaired graph holds. -/
theorem Rebuilt.mem_matchIn_of_realizes (hg : g.Rebuilt)
    (hlit : ∀ v, .literal v ∈ p.parts → v.level ≠ none)
    (hx : x < g.issued) (hp : g.Realizes s p x) :
    assign (g.boundTo s) p.occurrences ∈ g.matchIn p (g.root x) [] := by
  have hw := hg.wellFormed
  have hexact := hg.canonical.exact hw hg.distinct hlit (hw.root_lt hx)
  refine (hexact.mem_iff (fun _ => 0) []).2 ⟨g.boundTo s, by simp, ?_, by simp⟩
  rw [hw.root_root]
  exact hg.representedBy hp

/-! ## Both ways -/

/-- Matching and adding instances undo each other, for every pattern that was read.

In a graph that has just been rebuilt, the instance of a match is not added anew: the
answer is the number that stands for the class of the match, and the graph, and but
for pointers the maps that stand for it, are what they were. An instance that was
added in any graph matches after the next rebuild, under the substitution that binds
the variables of the pattern to the numbers that stand for their classes then. -/
theorem matchesAt_inverse_instantiate {text : String}
    (hp : Pattern.parse text = .ok p) :
    (∀ (op : Operation) (g g' : EGraph), Reached g → op.Rebuilds → op.Runs g g' →
      ∀ ref k, g'.find ref = .ok k → ∃ ms, g'.matchesAt p ref = .ok ms ∧ ∀ s ∈ ms,
        instantiate s p g' = .ok (k : Int) g' ∧
        ∀ c, Concrete.Models c g' →
          Concrete.Reads (Concrete.instantiate s p) c (.ok (k : Int))) ∧
    ∀ (g : EGraph) (s : Subst), Reached g →
      (∀ name ∈ p.vars, ∃ ref k, s.get? name = some ref ∧ g.find ref = .ok k) →
      ∀ id g₁ g₂, instantiate s p g = .ok id g₁ → rebuild g₁ = .ok () g₂ →
        ∃ t ms, g₂.refresh s p.vars = .ok t ∧
          g₂.matchesAt p id = .ok ms ∧ t ∈ ms := by
  constructor
  · intro op g g' hg hop hrun ref k hk
    have hrebuilt := hop.rebuilt hg.calls hrun
    have hw := hrebuilt.wellFormed
    obtain ⟨-, hlt, rfl⟩ := find_inv hk
    refine ⟨g'.matchIn p (g'.root ref.toNat) [], by
      rw [matchesAt, hk]; rfl, fun s hs => ?_⟩
    have hsame := hrebuilt.repaired.settled.instantiate_of_mem_matchIn hw
      (hw.root_lt hlt) hs
    rw [hw.root_root] at hsame
    exact ⟨hsame, fun c hm => (Concrete.agree_instantiate hm s p).reads hm hsame⟩
  · intro g s hg hs id g₁ g₂ hi hlast
    have hw := Calls.wellFormed wellFormed_empty hg.calls
    have hcalls := instantiate_calls hw hi
    have hw₁ := Calls.wellFormed hw hcalls
    have hext : Extends g₁ g₂ := Steps.extends hw₁ (rebuild_steps hw₁ hlast)
    have hrebuilt : g₂.Rebuilt := ⟨g₁, hg.calls.trans hcalls, hlast⟩
    have hbound : ∀ name ∈ p.occurrences, ∃ ref, s.get? name = some ref ∧
        g.Issued ref := by
      intro name hname
      obtain ⟨ref, k, hget, hfind⟩ := hs name (Pattern.mem_vars.2 hname)
      exact ⟨ref, hget, (find_inv hfind).1, (find_inv hfind).2.1⟩
    obtain ⟨hissued, hreal⟩ := (refers_of_bound hw hbound hi).of_extends hext
    refine ⟨_, _, refresh_eq fun name hname => ?_, ?_,
      hrebuilt.mem_matchIn_of_realizes (level_of_parse hp) hissued.2 hreal⟩
    · obtain ⟨ref, hget, href⟩ := hbound name hname
      exact ⟨ref, hget, href.of_extends ((Calls.extends hw hcalls).trans hext)⟩
    · rw [matchesAt, find_of_issued hissued]
      rfl

/-- `a` and `b` have been united, and `(max+1 b b)` is stored under a key that is out
of date when `(max+1 ?x ?y)` is added for the numbers 1 and 0. The repair puts both
nodes into one class, where the pattern then matches with the number 0 for either
variable. -/
theorem matchesAt_inverse_instantiate_stale :
    ∃ (p : Pattern) (g g₁ g₂ : EGraph) (id : Int) (k : ClassId)
    (t : Subst) (ms : List Subst),
    Pattern.parse "(max+1 ?x ?y)" = .ok p ∧ Reached g ∧
      instantiate [("x", 1), ("y", 0)] p g = .ok id g₁ ∧
      Operation.rebuild.Runs g₁ g₂ ∧
      t = [("x", 0), ("y", 0)] ∧ g₂.refresh [("x", 1), ("y", 0)] p.vars = .ok t ∧
      g₂.matchesAt p id = .ok ms ∧ t ∈ ms ∧ (k : Int) ≠ id ∧
      instantiate t p g₂ = .ok (k : Int) g₂ := by
  have hp : Pattern.parse "(max+1 ?x ?y)" =
      .ok (.derived .sum (.var "x") (.var "y")) := by
    decide +kernel
  have hrun : (fromEmpty (ε := GraphError) do
      let _ ← EGraph.add (.symbol "a")
      let _ ← EGraph.add (.symbol "b")
      let _ ← EGraph.add (.derived .sum 1 1)
      let _ ← EGraph.merge 0 1
      let before ← get
      let id ← instantiate [("x", 1), ("y", 0)] (.derived .sum (.var "x") (.var "y"))
      EGraph.rebuild
      let g ← get
      return (decide (1 < before.issued), decide (g.root 0 = 0),
        decide (g.root 1 = 0), decide (g.root id.toNat ≠ id))).toOption.map (·.1) =
        some (true, true, true, true) := by
    decide +kernel
  obtain ⟨⟨answers, g₂⟩, hok, hanswers⟩ := Option.map_eq_some_iff.1 hrun
  obtain ⟨a₁, t₁, h₁, hok⟩ := bind_inv (fromEmpty_inv (toOption_inv hok))
  obtain ⟨a₂, t₂, h₂, hok⟩ := bind_inv hok
  obtain ⟨a₃, t₃, h₃, hok⟩ := bind_inv hok
  obtain ⟨a₄, g, h₄, hok⟩ := bind_inv hok
  rw [get_bind] at hok
  obtain ⟨id, g₁, hi, hok⟩ := bind_inv hok
  obtain ⟨⟨⟩, g₂, hlast, hok⟩ := bind_inv hok
  rw [get_bind] at hok
  obtain ⟨rfl, rfl⟩ := pure_inv hok
  simp only [Prod.mk.injEq, decide_eq_true_eq] at hanswers
  obtain ⟨hlt, hroot₀, hroot₁, hmoved⟩ := hanswers
  have hg : Reached g :=
    .run (.merge 0 1) (.run (.add _) (.run (.add _) (.run (.add _) .empty
      ⟨a₁, h₁⟩) ⟨a₂, h₂⟩) ⟨a₃, h₃⟩) ⟨a₄, h₄⟩
  have hg₁ := hg.of_instantiate hi
  obtain ⟨hadded, hmatched⟩ := matchesAt_inverse_instantiate hp
  have hlt₀ : 0 < g.issued := Nat.zero_lt_of_lt hlt
  have hbound : ∀ name ∈ ["x", "y"],
      ∃ ref, Bindings.get? [("x", 1), ("y", 0)] name = some ref ∧ g.Issued ref := by
    intro name hname
    rcases List.mem_pair.1 hname with rfl | rfl
    · exact ⟨1, rfl, Int.one_nonneg, hlt⟩
    · exact ⟨0, rfl, le_rfl, hlt₀⟩
  obtain ⟨t, ms, hrefresh, hms, hmem⟩ :=
    hmatched g [("x", 1), ("y", 0)] hg (fun name hname => by
      obtain ⟨ref, hget, href⟩ := hbound name (Pattern.mem_vars.1 hname)
      exact ⟨ref, _, hget, find_of_issued href⟩) id g₁ g₂ hi hlast
  obtain ⟨k, hk, -⟩ := except_bind_inv hms
  obtain ⟨ms', hms', hsame⟩ := hadded .rebuild g₁ g₂ hg₁ trivial hlast id k hk
  obtain rfl : ms = ms' := Except.ok.inj (hms.symm.trans hms')
  have hext : Extends g g₂ :=
    Calls.extends (Calls.wellFormed wellFormed_empty hg.calls)
      ((instantiate_calls (Calls.wellFormed wellFormed_empty hg.calls) hi).tail
        (.rebuild hlast))
  have ht : t = [("x", 0), ("y", 0)] := by
    have hnow : g₂.refresh [("x", 1), ("y", 0)] ["x", "y"].eraseDups =
        .ok (assign (g₂.boundTo [("x", 1), ("y", 0)]) ["x", "y"]) := by
      refine refresh_eq fun name hname => ?_
      obtain ⟨ref, hget, href⟩ := hbound name hname
      exact ⟨ref, hget, href.of_extends hext⟩
    rw [Except.ok.inj (hrefresh.symm.trans hnow), assign, show ["x", "y"].eraseDups =
      ["x", "y"] by decide]
    simp [boundTo, Bindings.get?, hroot₀, hroot₁]
  refine ⟨_, g, g₁, g₂, id, k, t, ms, hp, hg, hi, hlast, ht, hrefresh, hms, hmem, ?_,
    (hsame t hmem).1⟩
  rw [(find_inv hk).2.2]
  exact hmoved

end EGraph

end Datapath

import Datapath.Proofs.Atomicity

/-!
# Datapath.Proofs.Lookups

The two loops of a look-up.

A look-up follows pointers until one leads back to where it starts, and then goes the
same way again to redirect them. Neither loop counts its steps: `Climbs` and
`Redirects` are the loops as they stand, and `climbs_iff` and `redirects_compress`
show that they end, where `UnionFind.root` and `UnionFind.compress` say. That rests
on nothing but `Ranked`, which every forest of a session is.

What is known of a number never gets lost. `Coarsens` says that a graph has the
numbers of another one and keeps in one class what was in one class there. It is kept
even by operations that fail, which `Extends` is not, as a rebuild that fails may
lose a node. All requests of a session come down to operations, so what these keep is
kept by sessions (`Lasting`), which lead to no other graphs than operations do
(`visited_stateAfter`).
-/

namespace Datapath

namespace UnionFind

variable {u v : UnionFind} {i j r : Nat}

/-! ## Climbing without a bound -/

/-- Following pointers from one number comes to rest at another, whose pointer leads
back to it. -/
inductive Climbs (u : UnionFind) : Nat → Nat → Prop
  | root {i : Nat} (loop : u.parents[i]? = some i) : Climbs u i i
  | step {i j r : Nat} (pointer : u.parents[i]? = some j)
      (inner : j ≠ i) (rest : Climbs u j r) : Climbs u i r

theorem getElem?_parents : u.parents[i]? = some j ↔ i < u.size ∧ u.parent i = j := by
  rw [parent, Array.getD_eq_getD_getElem?, size]
  by_cases hi : i < u.parents.size
  · rw [Array.getElem?_eq_getElem hi, Option.some.injEq, Option.getD_some]
    exact ⟨fun h => ⟨hi, h⟩, fun h => h.2⟩
  · rw [Array.getElem?_eq_none (Nat.le_of_not_lt hi)]
    simp [hi]

theorem getElem?_ranks (h : u.Ranked) (hi : i < u.size) :
    u.ranks[i]? = some (u.rank i) := by
  have hlt : i < u.ranks.size := by rwa [h.ranks_size]
  rw [rank, Array.getD_eq_getD_getElem?, Array.getElem?_eq_getElem hlt,
    Option.getD_some]

theorem Climbs.loop (h : u.Climbs i r) : u.parents[r]? = some r := by
  induction h with
  | root loop => exact loop
  | step _ _ _ ih => exact ih

/-- The climb from a member ends, and the bounded one ends there too. -/
theorem climbs_iff (h : u.Ranked) : u.Climbs i r ↔ i < u.size ∧ r = u.root i := by
  constructor
  · intro hc
    -- a finished climb ends where the bounded one does, by induction on its steps
    induction hc with
    | root loop =>
        obtain ⟨hi, hp⟩ := getElem?_parents.1 loop
        exact ⟨hi, (root_of_parent_eq h hp).symm⟩
    | step pointer _ _ ih =>
        obtain ⟨hi, rfl⟩ := getElem?_parents.1 pointer
        exact ⟨hi, ih.2.trans (root_parent h _)⟩
  · rintro ⟨hi, rfl⟩
    -- conversely, the way to the root is walked along growing ranks
    revert hi
    refine root_induction h
      (motive := fun i => i < u.size → u.Climbs i (u.root i)) ?_ ?_ i
    · intro i hp hi
      rw [root_of_parent_eq h hp]
      exact .root (getElem?_parents.2 ⟨hi, hp⟩)
    · intro i hp ih hi
      rw [← root_parent h i]
      exact .step (getElem?_parents.2 ⟨hi, rfl⟩) hp (ih (h.parent_lt hi))

/-- Whatever pointers there are, the climb from a number ends at one root. -/
theorem Alike.climbs_iff (h : u.Alike v) (hv : v.Ranked) :
    u.Climbs i r ↔ v.Climbs i r := by
  rw [UnionFind.climbs_iff h.ranked, UnionFind.climbs_iff hv, h.size, h.root]

/-! ## Redirecting without a bound -/

/-- Redirecting the pointers on the way from a number to `r`, one after the other,
changes the first forest into the second. -/
inductive Redirects (r : Nat) : UnionFind → Nat → UnionFind → Prop
  | done {u : UnionFind} : Redirects r u r u
  | step {u v : UnionFind} {i j : Nat} (below : i ≠ r)
      (pointer : u.parents[i]? = some j)
      (rest : Redirects r (u.point i r) j v) : Redirects r u i v

/-- Redirecting ends if the number of steps is enough for a climb. -/
theorem redirects_redirect (h : u.Ranked) (hi : i < u.size)
    (hr : u.root i = r) {steps : Nat}
    (hs : u.higher i ≤ steps) : Redirects r u i (u.redirect r steps i) := by
  induction steps generalizing u i with
  | zero =>
      have hp : u.parent i = i := by
        by_contra hp
        have hlt := higher_parent_lt h hp
        omega
      obtain rfl : r = i := hr.symm.trans (root_of_parent_eq h hp)
      exact .done
  | succ steps ih =>
      rw [redirect]
      split
      · next hir =>
        rw [hir]
        exact .done
      · next hir =>
        have hp : u.parent i ≠ i :=
          fun hp => hir ((root_of_parent_eq h hp).symm.trans hr)
        have hpoint := alike_point h hp
        rw [hr] at hpoint
        refine .step hir (getElem?_parents.2 ⟨hi, rfl⟩) (ih hpoint.ranked ?_ ?_ ?_)
        · rw [size_point]
          exact h.parent_lt hi
        · rw [hpoint.root, root_parent h, hr]
        · -- the ranks are those of before, and so the steps that are left are enough
          have hhigher : (u.point i r).higher (u.parent i) =
              u.higher (u.parent i) := by
            simp only [higher, hpoint.rank, size_point]
          have hlt := higher_parent_lt h hp
          omega

/-- Path compression is the loop that redirects: it takes as many steps as are
enough for a climb from anywhere. -/
theorem redirects_compress (h : u.Ranked) (hi : i < u.size) :
    Redirects (u.root i) u i (u.compress i) :=
  redirects_redirect h hi rfl (higher_le_size u i)

end UnionFind

namespace EGraph

variable {g g' g'' : EGraph} {ref : Int}

/-! ## Classes are never taken apart -/

/-- The second graph has the numbers of the first, and what was in one class is in
one class. -/
structure Coarsens (g g' : EGraph) : Prop where
  issued_le : g.issued ≤ g'.issued
  root_eq : ∀ {x y}, g.root x = g.root y → g'.root x = g'.root y

namespace Coarsens

theorem refl (g : EGraph) : Coarsens g g := ⟨le_rfl, id⟩

theorem trans (h : Coarsens g g') (h' : Coarsens g' g'') : Coarsens g g'' :=
  ⟨h.issued_le.trans h'.issued_le, fun heq => h'.root_eq (h.root_eq heq)⟩

theorem issued (h : Coarsens g g') (href : g.Issued ref) : g'.Issued ref :=
  ⟨href.1, Nat.lt_of_lt_of_le href.2 h.issued_le⟩

end Coarsens

theorem Extends.coarsens (h : Extends g g') : Coarsens g g' :=
  ⟨h.issued_le, h.root_eq⟩

theorem coarsens_dropKey (g : EGraph) (key : Node ClassId) (owner : ClassId) :
    Coarsens g (g.dropKey key owner) := by
  have hframe := dropKey_sameFrame g key owner
  exact ⟨hframe.issued.ge, fun heq => by rw [hframe.root, hframe.root, heq]⟩

/-- An operation that breaks off has made calls and perhaps entered nodes, none of
which takes a class apart. -/
theorem Aborted.coarsens (hw : g.WellFormed) (h : Aborted g g') : Coarsens g g' := by
  cases h with
  | called calls => exact (Calls.extends hw calls).coarsens
  | @entered t node calls children fresh result =>
      have ht := Calls.wellFormed hw calls
      have hnode := (Calls.extends hw calls).trans (ht.extends_issue fresh)
      rcases result with rfl | ⟨v, hfresh, rfl⟩
      · exact hnode.coarsens
      · have hissued := ht.issue fresh fun c hc => (children c hc).1
        exact (hnode.trans (hissued.extends_issue hfresh)).coarsens

theorem Halted.coarsens (hw : g.WellFormed) (h : Halted g g') : Coarsens g g' := by
  cases h with
  | stepped steps => exact (Steps.extends hw steps).coarsens
  | dropped steps _ _ result =>
      rw [result]
      exact (Steps.extends hw steps).coarsens.trans (coarsens_dropKey _ _ _)

theorem Operation.Fails.coarsens (hw : g.WellFormed) {op : Operation}
    (h : op.Fails g g') : Coarsens g g' := by
  rcases Operation.outside_or_rebuilding hw h with h | ⟨t, err, calls, fails⟩
  · exact (h.aborted hw).coarsens hw
  · have ht := Calls.wellFormed hw calls
    exact (Calls.extends hw calls).coarsens.trans
      ((rebuild_error ht fails).coarsens ht)

/-! ## Sessions come down to operations -/

theorem Operation.runs_of_operate {op : Operation} {reply : Reply}
    (h : operate op g = .ok reply g') : op.Runs g g' := by
  cases op with
  | add | addTerm | merge | applyOnce | saturate =>
      obtain ⟨a, ha, -⟩ := map_inv (loading_inv h)
      exact ⟨a, ha⟩
  | addText =>
      obtain ⟨a, ha, -⟩ := map_inv h
      exact ⟨a, ha⟩
  | rebuild =>
      obtain ⟨⟨⟩, ha, -⟩ := map_inv (loading_inv h)
      exact ha

/-- A request that is an operation fails as the operation does. -/
theorem Operation.fails_of_operate {op : Operation} {e : LoadError}
    (h : operate op g = .error e g') : op.Fails g g' := by
  cases op with
  | add | addTerm | merge | rebuild | applyOnce | saturate =>
      obtain ⟨err, herr⟩ := loading_error_inv h
      exact ⟨err, map_error_inv herr⟩
  | addText => exact ⟨e, map_error_inv h⟩

/-- An invariant that every operation keeps, whether or not it fails. -/
structure Lasting (I : EGraph → Prop) : Prop where
  run : ∀ {g g' : EGraph} (op : Operation), I g → op.Runs g g' → I g'
  fail : ∀ {g g' : EGraph} (op : Operation), I g → op.Fails g g' → I g'

namespace Lasting

variable {I : EGraph → Prop}

theorem ends_add (h : Lasting I) (hg : I g) (node : Node Int) :
    Ends I (EGraph.add node) g := by
  cases hrun : EGraph.add node g with
  | ok id t => exact .ok hrun (h.run (.add node) hg ⟨id, hrun⟩)
  | error err t => exact .error hrun (h.fail (.add node) hg ⟨err, hrun⟩)

theorem ends_addGround (h : Lasting I) (hg : I g) (term : Pattern) :
    Ends I (EGraph.addGround term) g := by
  cases hrun : EGraph.addGround term g with
  | ok ref t => exact .ok hrun (h.run (.addTerm term) hg ⟨ref, hrun⟩)
  | error err t => exact .error hrun (h.fail (.addTerm term) hg ⟨err, hrun⟩)

theorem ends_operate (h : Lasting I) (hg : I g) (op : Operation) :
    Ends I (operate op) g := by
  cases hrun : operate op g with
  | ok reply t => exact .ok hrun (h.run op hg (Operation.runs_of_operate hrun))
  | error e t => exact .error hrun (h.fail op hg (Operation.fails_of_operate hrun))

/-- An instance of a pattern is added node by node, also under a substitution that
does not bind its variables. -/
theorem ends_instantiate (h : Lasting I) (hg : I g) (s : Subst) (p : Pattern) :
    Ends I (EGraph.instantiate s p) g := by
  induction p using Pattern.layers generalizing g with
  | var name =>
      unfold instantiate
      cases s.get? name with
      | some ref => exact .pure hg ref
      | none => exact .throw hg _
  | node n ih =>
      rw [instantiate_ofNode]
      exact (Ends.mapM hg fun q hq t ht => ih q hq ht).bind fun refs t _ ht =>
        (h.ends_add ht _).map

/-- A request comes down to operations, so it keeps what they keep. -/
theorem ends_perform (h : Lasting I) (hg : I g) (r : Request) :
    Ends I (perform r) g := by
  cases r with
  | operation op => exact h.ends_operate hg op
  | addTexts text =>
      refine ((ends_reading hg _).bind fun terms t _ ht => ?_).map
      exact .mapM ht fun term _ u hu => ends_loading (h.ends_addGround hu term)
  | instantiate s p => exact ends_loading (h.ends_instantiate hg s p).map
  | query q => exact ends_loading (ends_ask hg _)

theorem stateAfter (h : Lasting I) (hg : I g) (requests : List Request) :
    I (stateAfter perform g requests) :=
  Ends.stateAfter hg fun r _ _ ht => h.ends_perform ht r

end Lasting

/-- Sessions lead to the graphs that operations lead to. -/
theorem visited_stateAfter (requests : List Request) :
    Visited (stateAfter perform .empty requests) :=
  Lasting.stateAfter ⟨fun op hg hruns => .run op hg hruns, fun op hg hfails =>
    .fail op hg hfails⟩ .empty requests

/-- A request that succeeds leads to a graph that operations lead to without a
failure. -/
theorem Reached.of_perform (hg : Reached g) {r : Request} {reply : Reply}
    (h : perform r g = .ok reply g') : Reached g' := by
  cases r with
  | operation op => exact .run op hg (Operation.runs_of_operate h)
  | addTexts text =>
      obtain ⟨refs, hrun, -⟩ := map_inv h
      exact hg.of_loadAll hrun
  | instantiate s p =>
      obtain ⟨ref, hrun, -⟩ := map_inv (loading_inv h)
      exact hg.of_instantiate hrun
  | query q =>
      obtain ⟨-, rfl⟩ := ask_inv (loading_inv h)
      exact hg

/-- So does a session none of whose answers is an error. -/
theorem Reached.stateAfter (hg : Reached g) {requests : List Request}
    (h : ∀ e, Reply.failed e ∉ replies perform g requests) :
    Reached (stateAfter perform g requests) := by
  induction requests generalizing g with
  | nil => exact hg
  | cons r rest ih =>
      rw [replies] at h
      have hnext : Reached (respond perform g r).2 := by
        unfold respond at h ⊢
        cases hrun : perform r g with
        | ok reply t => exact hg.of_perform hrun
        | error e t =>
            rw [hrun] at h
            exact absurd List.mem_cons_self (h e)
      exact ih hnext fun e he => h e (List.mem_cons_of_mem _ he)

/-- The second graph is well-formed besides. -/
structure Continues (g g' : EGraph) : Prop extends Coarsens g g' where
  wellFormed : g'.WellFormed

theorem lasting_continues (g : EGraph) : Lasting (Continues g) where
  run op ht hruns :=
    have hcalls := op.calls ht.wellFormed hruns
    ⟨ht.toCoarsens.trans (Calls.extends ht.wellFormed hcalls).coarsens,
      Calls.wellFormed ht.wellFormed hcalls⟩
  fail _ ht hfails :=
  ⟨ht.toCoarsens.trans (hfails.coarsens ht.wellFormed),
    hfails.wellFormed ht.wellFormed⟩

/-- A session loses nothing that is known. -/
theorem coarsens_stateAfter (hw : g.WellFormed) (requests : List Request) :
    Coarsens g (stateAfter perform g requests) :=
  ((lasting_continues g).stateAfter ⟨.refl g, hw⟩ requests).toCoarsens

end EGraph

namespace Concrete

variable {c c' : Concrete} {g : EGraph} {node : Node ClassId} {ref a b : Int}
  {i r : ClassId}

/-! ## Look-ups on the maps -/

/-- Looking up one reference after the other gives one number. -/
def SameClass (c : Concrete) (a b : Int) : Prop :=
  ∃ r c₁ c₂, find a c = .ok r c₁ ∧ find b c₁ = .ok r c₂

/-- Every number that has been issued, and no other, leads along pointers of growing
rank to a root with a record. -/
structure Traceable (c : Concrete) : Prop where
  /-- The records bear the numbers that have been issued, and are counted in this
  order. -/
  id_eq : ∀ {k : ClassId} {e : EClass}, c.classes[k]? = some e → e.id = k
  known : ∀ ref : Int, (∃ r c', find ref c = .ok r c') ↔ ∃ e ∈ c.classes, ref = e.id
  /-- A look-up of another reference is refused and changes nothing. -/
  unknown : ∀ {ref err c'}, find ref c = .error err c' →
    err = .unknownClass ref ∧ c' = c
  rank_lt : ∀ {i j : Nat}, c.forest.parents[i]? = some j → j ≠ i →
    ∃ s t : Nat, c.forest.ranks[i]? = some s ∧ c.forest.ranks[j]? = some t ∧ s < t
  climbs : ∀ e ∈ c.classes, ∃ r, c.forest.Climbs e.id r ∧
    c.forest.parents[r]? = some r
  record : ∀ {r : Nat}, c.forest.parents[r]? = some r → ∃ e : EClass,
    c.classes[r]? = some e ∧ e.id = r
  /-- A look-up finds the root, and leaves the pointers as its second loop does. -/
  find_eq : ∀ {i r : Nat}, c.forest.Climbs i r →
    ∃ f, UnionFind.Redirects r c.forest i f ∧ find i c = .ok r { c with forest := f }

/-- The look-up of a member succeeds, and its way is shortened. -/
theorem find_of_knows (h : c.Knows ref) :
    find ref c = .ok (c.forest.root ref.toNat)
      { c with forest := c.forest.compress ref.toNat } := by
  obtain ⟨n, rfl⟩ := Int.eq_ofNat_of_zero_le h.1
  exact if_pos h.2

/-- The look-up of anything else fails and leaves the maps as they are. -/
theorem find_of_not_knows (h : ¬ c.Knows ref) :
    find ref c = .error (.unknownClass ref) c := by
  cases ref with
  | ofNat id => exact if_neg fun hlt => h ⟨Int.natCast_nonneg id, hlt⟩
  | negSucc n => rfl

/-- A look-up succeeds exactly for the numbers of members, and what it finds is a
root. -/
theorem find_ok_iff : find ref c = .ok r c' ↔
    c.Knows ref ∧ r = c.forest.root ref.toNat ∧
      c' = { c with forest := c.forest.compress ref.toNat } := by
  by_cases h : c.Knows ref
  · rw [find_of_knows h]
    simp only [EStateM.Result.ok.injEq, h, true_and, eq_comm]
  · rw [find_of_not_knows h]
    simp [h]

namespace Models

theorem climbs_iff (h : Models c g) :
    c.forest.Climbs i r ↔ i < c.forest.size ∧ r = c.forest.root i :=
  UnionFind.climbs_iff h.forest.ranked

theorem classes_size (h : Models c g) : c.classes.size = c.forest.size := by
  rw [h.classes, h.wellFormed.classes_size, h.forest.size]
  rfl

/-- The record of a member bears its number. -/
theorem id_eq (h : Models c g) {e : EClass} (he : c.classes[i]? = some e) :
    e.id = i := by
  have hi : i < g.issued := by
    rw [← h.wellFormed.classes_size, ← h.classes]
    exact (Array.getElem?_eq_some_iff.1 he).1
  rw [h.classes] at he
  have hid := h.wellFormed.id_eq hi
  rwa [EGraph.record, Array.getD_eq_getD_getElem?, he, Option.getD_some] at hid

theorem exists_record (h : Models c g) (hi : i < c.forest.size) :
    ∃ e, c.classes[i]? = some e ∧ e.id = i := by
  rw [← h.classes_size] at hi
  have he := Array.getElem?_eq_getElem hi
  exact ⟨_, he, h.id_eq he⟩

/-- The members are the numbers of the records. -/
theorem knows_iff_exists_record (h : Models c g) (ref : Int) :
    c.Knows ref ↔ ∃ e ∈ c.classes, ref = e.id := by
  constructor
  · rintro ⟨hnonneg, hlt⟩
    obtain ⟨e, he, hid⟩ := h.exists_record hlt
    exact ⟨e, Array.mem_of_getElem? he, by rw [hid, Int.toNat_of_nonneg hnonneg]⟩
  · rintro ⟨e, he, rfl⟩
    obtain ⟨i, hi⟩ := Array.getElem?_of_mem he
    have hlt : i < c.classes.size := (Array.getElem?_eq_some_iff.1 hi).1
    rw [h.id_eq hi, Knows, ← h.classes_size]
    exact ⟨Int.natCast_nonneg i, hlt⟩

/-- The maps of a graph are traceable. Each clause is read off the forest of the
graph: its ranks grow along pointers, its roots have records, and a look-up redirects
what lies on the way. -/
theorem traceable (h : Models c g) : Traceable c where
  id_eq := h.id_eq
  known ref := by
    rw [← h.knows_iff_exists_record]
    simp only [find_ok_iff]
    exact ⟨fun ⟨_, _, hk, _⟩ => hk, fun hk => ⟨_, _, hk, rfl, rfl⟩⟩
  unknown {ref err c'} hrun := by
    by_cases hk : c.Knows ref
    · rw [find_of_knows hk] at hrun
      cases hrun
    · rw [find_of_not_knows hk] at hrun
      cases hrun
      exact ⟨rfl, rfl⟩
  rank_lt {i j} hij hne := by
    have hranked := h.forest.ranked
    obtain ⟨hi, rfl⟩ := UnionFind.getElem?_parents.1 hij
    exact ⟨_, _, UnionFind.getElem?_ranks hranked hi,
      UnionFind.getElem?_ranks hranked (hranked.parent_lt hi), hranked.rank_lt hne⟩
  climbs e he := by
    obtain ⟨-, hlt⟩ := (h.knows_iff_exists_record e.id).2 ⟨e, he, rfl⟩
    have hclimb := h.climbs_iff.2 ⟨hlt, rfl⟩
    exact ⟨_, hclimb, hclimb.loop⟩
  record hr := h.exists_record (UnionFind.getElem?_parents.1 hr).1
  find_eq {i r} hclimb := by
    obtain ⟨hi, rfl⟩ := h.climbs_iff.1 hclimb
    exact ⟨_, UnionFind.redirects_compress h.forest.ranked hi, find_of_knows
      ⟨Int.natCast_nonneg i, hi⟩⟩

theorem of_find (h : Models c g) (hrun : find ref c = .ok r c') : Models c' g := by
  obtain ⟨-, -, rfl⟩ := find_ok_iff.1 hrun
  exact h.look (UnionFind.alike_compress h.forest.ranked _)

/-- What two look-ups find is one number if the references mean one class. -/
theorem sameClass_iff (h : Models c g) :
    c.SameClass a b ↔ g.Issued a ∧ g.Issued b ∧ g.root a.toNat = g.root b.toNat := by
  constructor
  · rintro ⟨r, c₁, c₂, ha, hb⟩
    have h₁ := h.of_find ha
    obtain ⟨hka, hra, -⟩ := find_ok_iff.1 ha
    obtain ⟨hkb, hrb, -⟩ := find_ok_iff.1 hb
    rw [h.knows_iff] at hka
    rw [h₁.knows_iff] at hkb
    rw [h.forest.root] at hra
    rw [h₁.forest.root] at hrb
    exact ⟨hka, hkb, hra.symm.trans hrb⟩
  · -- the second look-up runs after the first one, whose compression moves no root
    rintro ⟨hia, hib, hroot⟩
    have ha := find_of_knows ((h.knows_iff a).2 hia)
    have h₁ := h.of_find ha
    have hb := find_of_knows ((h₁.knows_iff b).2 hib)
    have heq : c.forest.root a.toNat = c.forest.root b.toNat := by
      rwa [h.forest.root, h.forest.root]
    rw [h₁.forest.root, ← h.forest.root, ← heq] at hb
    exact ⟨_, _, _, ha, hb⟩

end Models

/-- A class that is new has a number that was unknown, and no other number is known
from then on. -/
theorem knows_issue (h : Models c g) (hnew : g.table.get? node.key = none)
    (hc : ∀ d ∈ node.children, d < g.issued ∧ g.root d = d) :
    ∃ constant c', issue node c =
      .ok (c.forest.size, constant) c' ∧ ¬ c.Knows c.forest.size ∧
      ∀ ref, c'.Knows ref ↔ c.Knows ref ∨ ref = c.forest.size := by
  obtain ⟨c', hrun, h'⟩ := issue_eq h hnew hc
  have hsize : c.forest.size = g.issued := h.forest.size
  have hsize' : c'.forest.size = c.forest.size + 1 := by
    rw [hsize, ← EGraph.issued_issue]
    exact h'.forest.size
  refine ⟨_, c', by rw [hrun, hsize], fun hk => Nat.lt_irrefl _ hk.2, fun ref => ?_⟩
  rw [Knows, Knows, hsize']
  omega

/-- In every state that a session leads to, with failures or without, exactly the
numbers that have been issued are known. From each of them the pointers lead upwards,
as the rank grows along each, to a root that has a record with its number, and this
is what a look-up finds. A look-up may be made again and finds the same, it keeps all
of this, and no other climb ends elsewhere after it. Numbers for which the same has
once been found never come apart. -/
theorem traceable_after (before later : List Request) :
    let c := stateAfter perform empty before
    c.Traceable ∧
    (∀ ref r c', find ref c = .ok r c' →
      c'.Traceable ∧ (∀ i s, c'.forest.Climbs i s ↔ c.forest.Climbs i s) ∧
      (∃ c'', find ref c' = .ok r c'') ∧ ∃ c'', find r c' = .ok r c'') ∧
    ∀ a b, c.SameClass a b → (stateAfter perform c later).SameClass a b := by
  intro c
  have h : Models c (stateAfter EGraph.perform .empty before) := models_after before
  refine ⟨h.traceable, fun ref r c' hrun => ?_, fun a b hab => ?_⟩
  · have h' := h.of_find hrun
    obtain ⟨hk, rfl, -⟩ := find_ok_iff.1 hrun
    have halike : c'.forest.Alike c.forest := (h.sameButPointers h').1
    have hk' : c'.Knows ref := (h'.knows_iff ref).2 ((h.knows_iff ref).1 hk)
    have hr : c'.Knows (c.forest.root ref.toNat) := by
      refine ⟨Int.natCast_nonneg _, ?_⟩
      rw [← halike.root]
      exact UnionFind.root_lt h'.forest.ranked hk'.2
    have hagain := find_of_knows hk'
    have hup := find_of_knows hr
    rw [halike.root] at hagain
    rw [Int.toNat_natCast, halike.root, UnionFind.root_root h.forest.ranked] at hup
    exact ⟨h'.traceable, fun _ _ => halike.climbs_iff h.forest.ranked,
      ⟨_, hagain⟩, ⟨_, hup⟩⟩
  · obtain ⟨ha, hb, hroot⟩ := h.sameClass_iff.1 hab
    have hcoarsens := EGraph.coarsens_stateAfter h.wellFormed later
    exact (models_stateAfter h later).sameClass_iff.2
      ⟨hcoarsens.issued ha, hcoarsens.issued hb, hcoarsens.root_eq hroot⟩

/-- Requests that leave `D` two pointers away from its root, the last but one of
which fails. -/
def deepSession : List Request :=
  [.operation (.add (.symbol "A")), .operation (.add (.symbol "B")),
    .operation (.add (.symbol "C")),
    .operation (.add (.symbol "D")), .operation (.merge 0 1),
    .operation (.merge 2 3), .operation (.merge 0 4),
    .operation (.merge 0 2)]

/-- The look-up of `D` shortens its way, and it stays in one class with `B` when a
merge fails and the graph is repaired. -/
theorem traceable_after_deep :
    let c := stateAfter perform empty deepSession
    c.forest.Climbs 3 0 ∧ c.forest.parents[3]? = some 2 ∧
      (∃ c', find 3 c = .ok 0 c' ∧ c'.Traceable ∧ c'.forest.Climbs 3 0 ∧
        c'.forest.parents[3]? = some 0) ∧
      SameClass
        (stateAfter perform c [.operation (.merge 3 7), .operation .rebuild]) 1 3 := by
  obtain ⟨htraceable, hfind, hstay⟩ :=
    traceable_after deepSession [.operation (.merge 3 7), .operation .rebuild]
  dsimp only at htraceable hfind hstay ⊢
  have hparents : (stateAfter perform empty deepSession).forest.parents =
      #[0, 0, 0, 2] := by decide +kernel
  have hm := models_after deepSession
  generalize stateAfter perform empty deepSession = c at *
  have hpointer {i j : Nat} (h : #[0, 0, 0, 2][i]? = some j) :
      c.forest.parents[i]? = some j := hparents ▸ h
  have hroot : c.forest.Climbs 0 0 := .root (hpointer rfl)
  have hleft : c.forest.Climbs 1 0 := .step (hpointer rfl) (by decide) hroot
  have hright : c.forest.Climbs 3 0 :=
    .step (hpointer rfl) (by decide) (.step (hpointer rfl) (by decide) hroot)
  obtain ⟨f, -, hrun⟩ := htraceable.find_eq hright
  obtain ⟨htraceable', hclimbs', -⟩ := hfind _ _ _ hrun
  obtain ⟨f₁, -, hfirst⟩ := htraceable.find_eq hleft
  obtain ⟨htraceable₁, hclimbs₁, -⟩ := hfind _ _ _ hfirst
  obtain ⟨f₂, -, hsecond⟩ := htraceable₁.find_eq ((hclimbs₁ 3 0).2 hright)
  refine ⟨hright, hpointer rfl, ⟨_, hrun, htraceable', (hclimbs' 3 0).2 hright, ?_⟩,
    hstay 1 3 ⟨0, _, _, hfirst, hsecond⟩⟩
  -- the pointer of `D` is the first one that is redirected
  obtain ⟨⟨-, hlt⟩, -, hc⟩ := find_ok_iff.1 hrun
  obtain rfl : f = c.forest.compress 3 := congrArg Concrete.forest hc
  have halike := UnionFind.alike_compress hm.forest.ranked 3
  refine UnionFind.getElem?_parents.2 ⟨by rwa [halike.size], ?_⟩
  rw [UnionFind.parent_compress hm.forest.ranked, ← (hm.climbs_iff.1 hright).2]

end Concrete

end Datapath

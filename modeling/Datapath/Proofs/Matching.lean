import Datapath.Proofs.Instances
import Datapath.Proofs.Reading

/-!
# Datapath.Proofs.Matching

Matching finds every instance of a pattern, once.

`Represented g s p k` says, without running the matcher, that the class `k` holds the
instance of `p` under `s`. In a graph that has just been rebuilt the matcher finds
exactly the substitutions for which this holds, and none of them twice
(`matchesAt_iff_represented`).

A search goes on from the bindings made so far. To speak of those, of the ones a slot
adds and of the ones that come later by a single object, an assignment of classes to
all names is fixed, and a substitution is its restriction to the names met so far
(`assign`). That nothing is found twice is not a local matter: it holds because nodes
with equal children are in one class, so that an assignment leaves one node to choose
at every level.
-/

namespace Datapath

/-! ## Lists without repetitions -/

section

variable {α : Type} [DecidableEq α]

theorem nodup_eraseDups (l : List α) : l.eraseDups.Nodup := by
  cases l with
  | nil => simp
  | cons a rest =>
      rw [List.eraseDups_cons, List.nodup_cons]
      exact ⟨by simp, nodup_eraseDups _⟩
termination_by l.length
decreasing_by
  have hle := List.length_filter_le (fun b => !b == a) rest
  simp only [List.length_cons]
  omega

/-- An element that follows others comes last if it is new, and is left out
otherwise. -/
theorem eraseDups_concat (l : List α) (a : α) :
    (l ++ [a]).eraseDups = if a ∈ l then l.eraseDups else l.eraseDups ++ [a] := by
  rw [List.eraseDups_append]
  by_cases ha : a ∈ l
  · simp [List.removeAll, ha]
  · simp [List.removeAll, ha, List.eraseDups_cons]

end

namespace KeySet

variable {s t : KeySet} {key : Node ClassId}

theorem nodup_add (h : s.toList.Nodup) : (s.add key).toList.Nodup := by
  rw [toList_add]
  split
  · exact h
  · next hk =>
    rw [List.nodup_append]
    refine ⟨h, List.nodup_singleton _, ?_⟩
    intro a ha b hb
    obtain rfl := List.mem_singleton.1 hb
    exact fun heq => hk (heq ▸ ha)

theorem nodup_union (h : s.toList.Nodup) : (s.union t).toList.Nodup := by
  rw [union_eq_foldl]
  generalize t.toList = l
  induction l generalizing s with
  | nil => exact h
  | cons k rest ih => exact ih (nodup_add h)

theorem nodup_remove (h : s.toList.Nodup) : (s.remove key).toList.Nodup := by
  rw [toList_remove]
  exact h.filter _

end KeySet

namespace EGraph

variable {g g' : EGraph} {id k : ClassId} {node : Node ClassId} {p : Pattern}
  {w l : ClassId}

/-! ## Classes list no node twice -/

/-- The record of every class lists each of its nodes once. Records that have been
absorbed count, too, so that nothing has to be said about roots. -/
def Distinct (g : EGraph) : Prop := ∀ id, (g.record id).nodes.toList.Nodup

theorem distinct_empty : empty.Distinct := by
  intro id
  simp [empty, record, show (default : EClass).nodes = KeySet.empty from rfl]

/-- A new class has one node. -/
theorem Distinct.issue (hw : g.WellFormed) (h : g.Distinct) :
    (g.issue node).Distinct := by
  intro id
  rw [nodes_issue hw.classes_size]
  split
  · rw [KeySet.toList_single]
    exact List.nodup_singleton _
  · exact h id

/-- It is enough to look at the one record that a step changes. -/
theorem Distinct.of_classes (h : g.Distinct) {f : EClass → EClass}
    (hg' : g'.classes = g.classes.modify k f)
    (hf : (f (g.record k)).nodes.toList.Nodup) :
    g'.Distinct := by
  intro id
  have hrecord : g'.record id = (g.modifyRecord k f).record id := by
    rw [record, hg']
    rfl
  rw [hrecord, record_modifyRecord]
  split
  · next hid => rw [hid.1]; exact hf
  · exact h id

/-- The nodes of two classes are put together as a set, so none is listed twice. -/
theorem Distinct.unite (hw : g.WellFormed) (h : g.Distinct) {x y z : ClassId}
    (hx : x < g.issued) (hy : y < g.issued) (hu : EGraph.unite x y g = .ok z g') :
    g'.Distinct := by
  rcases unite_cases hw hx hy hu with ⟨-, rfl, -⟩ | ⟨w, l, hj, rfl, -⟩
  · exact h
  · intro id
    rw [record_absorb (hj.winner_lt_size hw)]
    split
    · exact KeySet.nodup_union (h w)
    · exact h id

/-- Every step of a repair keeps the nodes of a class apart: it replaces a key by
another one or takes one out, but adds none that is there. -/
theorem Step.distinct (hw : g.WellFormed) (h : g.Distinct) (s : Step g g') :
    g'.Distinct := by
  cases s with
  | literal => exact h.issue hw
  | fold stored _ _ value hx hy union =>
      exact h.unite hw (lt_of_root_eq hw (hw.owner_lt value) hx)
        (lt_of_root_eq hw (hw.owner_lt stored) hy) union
  -- the old key goes, and the new one is added unless it is there
  | @move e stored free =>
      unfold EGraph.restore
      split
      · split <;> exact h
      · exact h.of_classes
          (f := fun c =>
            { c with nodes := (c.nodes.remove e.key).add (g.canonical e.node).key })
          rfl (KeySet.nodup_add (KeySet.nodup_remove (h _)))
  | @fuse _ e _ _ stored congruent union =>
      have hdrop : (g.dropKey e.key (g.root e.owner)).Distinct :=
        h.of_classes (f := fun c => { c with nodes := c.nodes.remove e.key }) rfl
          (KeySet.nodup_remove (h _))
      exact hdrop.unite (hw.dropKey stored) (hw.root_lt (hw.owner_lt stored))
        (hw.owner_lt (congruent?_inv congruent).2) union
  | note same _ =>
      intro id
      rw [same.nodes]
      exact h id

theorem Steps.distinct (hw : g.WellFormed) (h : g.Distinct) (s : Steps g g') :
    g'.Distinct := by
  induction s with
  | refl => exact h
  | tail s₁ s₂ ih => exact s₂.distinct (Steps.wellFormed hw s₁) ih

/-- A call issues a class, unites two or makes steps of a repair. -/
theorem Call.distinct (hw : g.WellFormed) (h : g.Distinct) (c : Call g g') :
    g'.Distinct := by
  cases c with
  | intern children run =>
      have hc := fun c hc => (children c hc).1
      rcases intern_steps hw hc run with ⟨-, -, -, rfl⟩ | ⟨hnew, steps, -⟩
      · exact h
      · exact Steps.distinct (hw.issue hnew hc) (h.issue hw) steps
  | unite left right run => exact h.unite hw left right run
  | rebuild run => exact Steps.distinct hw h (rebuild_steps hw run)

theorem Calls.distinct (hw : g.WellFormed) (h : g.Distinct) (c : Calls g g') :
    g'.Distinct := by
  induction c with
  | refl => exact h
  | tail c₁ c₂ ih => exact c₂.distinct (Calls.wellFormed hw c₁) ih

/-! ## After a rebuild -/

/-- The last change of a graph was a rebuild. -/
def Rebuilt (g : EGraph) : Prop :=
  ∃ g₀, Calls empty g₀ ∧ EGraph.rebuild g₀ = .ok () g

namespace Rebuilt

theorem calls (h : g.Rebuilt) : Calls empty g := by
  obtain ⟨g₀, c, done⟩ := h
  exact c.tail (.rebuild done)

theorem wellFormed (h : g.Rebuilt) : g.WellFormed :=
  Calls.wellFormed wellFormed_empty h.calls

theorem distinct (h : g.Rebuilt) : g.Distinct :=
  Calls.distinct wellFormed_empty distinct_empty h.calls

/-- What is known of graphs that were reached without a failure and have nothing
pending. -/
theorem repaired (h : g.Rebuilt) : Repaired g where
  wellFormed := h.wellFormed
  tidy := Calls.tidy wellFormed_empty tidy_empty h.calls
  pending := by
    obtain ⟨g₀, c, done⟩ := h
    exact rebuild_pending (Calls.wellFormed wellFormed_empty c) done

theorem canonical (h : g.Rebuilt) : g.Canonical :=
  h.repaired.tidy.canonical h.wellFormed (Calls.populated wellFormed_empty
    (fun i hi => absurd hi (Nat.not_lt_zero i)) h.calls) h.repaired.pending

end Rebuilt

/-! ## Instances in a graph -/

/-- The class `k` has the instance of a pattern under a substitution: a variable in
the class that it is bound to, a leaf in the class that has it, and a compound in a
class with a node of the same operator whose children have the instances of the
slots.

This does not mention the matcher, nor the order in which it goes through nodes and
slots. -/
def Represented (g : EGraph) (s : Subst) : Pattern → ClassId → Prop :=
  Pattern.Occurs (fun name k => s.get? name = some (k : Int))
    fun node k => node.key ∈ (g.record k).nodes

/-! ## Assignments -/

/-- The substitution that binds the names of a list, in order of first appearance, by
an assignment of classes to all names. -/
def assign (σ : String → ClassId) (names : List String) : Subst :=
  names.eraseDups.map fun name => (name, (σ name : Int))

variable {σ τ : String → ClassId} {names more : List String}
  {name : String} {s : Subst}

theorem get?_assign (σ : String → ClassId) (names : List String) (name : String) :
    Bindings.get? (assign σ names) name =
      if name ∈ names then some (σ name : Int) else none := by
  -- by induction on the list, since what comes first counts for a name
  have hlist (l : List String) :
      Bindings.get? (l.map fun n => (n, (σ n : Int))) name =
        if name ∈ l then some (σ name : Int) else none := by
    induction l with
    | nil => simp [Bindings.get?]
    | cons n rest ih =>
        rw [List.map_cons, Bindings.get?, ih]
        by_cases hn : n = name
        · simp [hn]
        · simp [hn, Ne.symm hn]
  rw [assign, hlist]
  simp

theorem get?_assign_eq_some {ref : Int} :
    Bindings.get? (assign σ names) name = some ref ↔
      name ∈ names ∧ ref = σ name := by
  rw [get?_assign]
  split
  · next hname => simp only [hname, Option.some.injEq, true_and, eq_comm]
  · next hname => simp only [hname, reduceCtorEq, false_and]

theorem assign_congr (h : ∀ n ∈ names, σ n = τ n) :
    assign σ names = assign τ names := by
  refine List.map_congr_left fun n hn => ?_
  rw [h n (List.mem_eraseDups.1 hn)]

/-- The assignment can be read off the substitution, for the names that it binds. -/
theorem assign_inj (h : assign σ names = assign τ names) (hn : name ∈ names) :
    σ name = τ name := by
  have hget := congrArg (Bindings.get? · name) h
  simp only [get?_assign, if_pos hn, Option.some.injEq, Nat.cast_inj] at hget
  exact hget

/-- A name that has been met adds nothing, and another one comes last. -/
theorem assign_concat (σ : String → ClassId) (names : List String) (name : String) :
    assign σ (names ++ [name]) =
      if name ∈ names then assign σ names
      else assign σ names ++ [(name, (σ name : Int))] := by
  rw [assign, eraseDups_concat]
  split
  · rfl
  · rw [List.map_append]
    rfl

theorem set_of_get?_eq_none {v : Int} (h : Bindings.get? s name = none) :
    Bindings.set s name v = s ++ [(name, v)] := by
  induction s with
  | nil => rfl
  | cons pair rest ih =>
      rw [Bindings.get?] at h
      split at h
      · cases h
      · next hne => rw [Bindings.set, if_neg hne, ih h, List.cons_append]

/-- Under an assignment, a pattern is represented where its variables are assigned
to. -/
def RepresentedBy (g : EGraph) (σ : String → ClassId) : Pattern → ClassId → Prop :=
  Pattern.Occurs (fun name k => σ name = k) fun node k =>
    node.key ∈ (g.record k).nodes

/-- Only what the variables of the pattern are assigned to matters. -/
theorem RepresentedBy.congr (h : g.RepresentedBy σ p k)
    (heq : ∀ n ∈ p.occurrences, σ n = τ n) :
    g.RepresentedBy τ p k := by
  induction p using Pattern.layers generalizing k with
  | var name => exact (heq name (by simp [Pattern.occurrences])).symm.trans h
  | node n ih =>
      obtain ⟨m, hrel, hk⟩ := Pattern.occurs_ofNode.1 h
      refine Pattern.occurs_ofNode.2 ⟨m, hrel.imp fun q hq c _ hc => ?_, hk⟩
      -- a variable of a slot is a variable of the whole pattern
      refine ih q hq hc fun x hx => heq x ?_
      rw [Pattern.occurrences_ofNode]
      exact List.mem_flatMap.2 ⟨q, hq, hx⟩

/-- An assignment and the substitution that it makes of the variables of a pattern
say the same. -/
theorem represented_assign (hsub : ∀ n ∈ p.occurrences, n ∈ names) :
    g.Represented (assign σ names) p k ↔ g.RepresentedBy σ p k := by
  induction p using Pattern.layers generalizing k with
  | var name =>
      have hname : name ∈ names := hsub name (by simp [Pattern.occurrences])
      show Bindings.get? (assign σ names) name = some (k : Int) ↔ σ name = k
      rw [get?_assign, if_pos hname, Option.some.injEq, Nat.cast_inj]
  -- the same node represents the layer on either side, so only the slots are to be
  -- compared
  | node n ih =>
      have hchild : ∀ q ∈ n.children, ∀ x ∈ q.occurrences, x ∈ names := by
        intro q hq x hx
        refine hsub x ?_
        rw [Pattern.occurrences_ofNode]
        exact List.mem_flatMap.2 ⟨q, hq, hx⟩
      rw [Represented, RepresentedBy, Pattern.occurs_ofNode, Pattern.occurs_ofNode]
      refine exists_congr fun m => and_congr_left fun _ =>
        ⟨fun hrel => ?_, fun hrel => ?_⟩
      · exact hrel.imp fun q hq c _ => (ih q hq (hchild q hq)).1
      · exact hrel.imp fun q hq c _ => (ih q hq (hchild q hq)).2

/-! ## The nodes of a class -/

/-- In a canonical graph a class offers the nodes that its record lists. -/
theorem Canonical.map_key_nodes (hc : g.Canonical) (h : g.WellFormed)
    (hid : id < g.issued) :
    (g.nodes id).map Node.key = (g.record (g.root id)).nodes.toList ∧
      ∀ m ∈ g.nodes id, ∀ c ∈ m.children, c ∈ g.classIds := by
  have hroot := h.root_mem_classIds hid
  have hstored (key : Node ClassId)
      (hkey : key ∈ (g.record (g.root id)).nodes.toList) :
      ∃ e, g.table.get? key = some e ∧ e.node.key = key ∧
        g.canonical e.node = e.node ∧ ∀ c ∈ e.node.children, c ∈ g.classIds := by
    obtain ⟨e, he, hkey, hchild⟩ := hc.stored hroot hkey
    exact ⟨e, he, hkey, Node.map_id_of fun c hc =>
      ((mem_classIds h).1 (hchild c hc)).2, hchild⟩
  -- by induction on the keys that the record lists, each of which is stored and
  -- current
  unfold nodes
  generalize (g.record (g.root id)).nodes.toList = keys at hstored ⊢
  induction keys with
  | nil => exact ⟨rfl, by simp⟩
  | cons key rest ih =>
      obtain ⟨hmap, hchild⟩ := ih fun k hk => hstored k (List.mem_cons_of_mem _ hk)
      obtain ⟨e, he, hkey, hcanon, hc⟩ := hstored key List.mem_cons_self
      rw [List.filterMap_cons_some (b := e.node)
        (by rw [he, Option.map_some, hcanon]), List.map_cons, hmap, hkey]
      exact ⟨rfl, List.forall_mem_cons.2 ⟨hc, hchild⟩⟩

/-- A node that a class offers is listed in its record under its key. -/
theorem Canonical.key_mem_of_mem_nodes (hc : g.Canonical) (h : g.WellFormed)
    (hid : id < g.issued) (hm : node ∈ g.nodes id) :
    node.key ∈ (g.record (g.root id)).nodes := by
  rw [KeySet.mem_iff, ← (hc.map_key_nodes h hid).1]
  exact List.mem_map_of_mem hm

/-- Conversely, a key that the record lists is that of a node that the class
offers. -/
theorem Canonical.exists_of_key_mem (hc : g.Canonical) (h : g.WellFormed)
    (hid : id < g.issued) (hm : node.key ∈ (g.record (g.root id)).nodes) :
    ∃ m ∈ g.nodes id, m.key = node.key := by
  rw [KeySet.mem_iff, ← (hc.map_key_nodes h hid).1] at hm
  obtain ⟨m, hmem, hkey⟩ := List.mem_map.1 hm
  exact ⟨m, hmem, hkey⟩

/-- The children of a stored node are classes. -/
theorem Canonical.child_mem (hc : g.Canonical) (hk : k ∈ g.classIds)
    (hm : node.key ∈ (g.record k).nodes) : ∀ c ∈ node.children, c ∈ g.classIds := by
  obtain ⟨e, -, hkey, hchild⟩ := hc.stored hk hm
  rw [← Node.children_key, ← hkey, Node.children_key]
  exact hchild

/-- A stored node is in one class. -/
theorem Canonical.eq_of_key_mem (hc : g.Canonical) {k' : ClassId}
    (hk : k ∈ g.classIds) (hk' : k' ∈ g.classIds)
    (hm : node.key ∈ (g.record k).nodes)
    (hm' : node.key ∈ (g.record k').nodes) : k = k' := by
  obtain ⟨e, he, -⟩ := hc.stored hk hm
  obtain ⟨r, -, -, howner⟩ := hc.owner he
  exact ((howner k hk).1 hm).trans ((howner k' hk').1 hm').symm

/-- The variables of a pattern that is represented in a class are assigned to
classes. -/
theorem RepresentedBy.mem_classIds (hc : g.Canonical) (hk : k ∈ g.classIds)
    (h : g.RepresentedBy σ p k) (hn : name ∈ p.occurrences) :
    σ name ∈ g.classIds := by
  induction p using Pattern.layers generalizing k with
  | var x =>
      obtain rfl := List.mem_singleton.1 hn
      exact (show σ name = k from h) ▸ hk
  -- the variable occurs in one of the slots, which is represented in a child of the
  -- node
  | node n ih =>
      obtain ⟨m, hrel, hm⟩ := Pattern.occurs_ofNode.1 h
      rw [Pattern.occurrences_ofNode] at hn
      obtain ⟨q, hq, hn⟩ := List.mem_flatMap.1 hn
      obtain ⟨c, hcm, hqc⟩ := hrel.exists_right hq
      exact ih q hq (hc.child_mem hk hm c hcm) hqc hn

/-- An assignment puts a pattern into one class at most, and so leaves one node to
match. -/
theorem RepresentedBy.unique (hc : g.Canonical) {k' : ClassId} (hk : k ∈ g.classIds)
    (hk' : k' ∈ g.classIds) (h : g.RepresentedBy σ p k)
    (h' : g.RepresentedBy σ p k') : k = k' := by
  induction p using Pattern.layers generalizing k k' with
  | var name => exact (show σ name = k from h).symm.trans h'
  | node n ih =>
      obtain ⟨m, hrel, hm⟩ := Pattern.occurs_ofNode.1 h
      obtain ⟨m', hrel', hm'⟩ := Pattern.occurs_ofNode.1 h'
      -- by induction the children are the same, so the two nodes have one key, which
      -- is in one class
      obtain rfl := hrel.unique hrel' fun q hq c hcm c' hcm' hqc hqc' =>
        ih q hq (hc.child_mem hk hm c hcm) (hc.child_mem hk' hm' c' hcm') hqc hqc'
      exact hc.eq_of_key_mem hk hk' hm hm'

/-! ## The search -/

/-- The search for a pattern in the class of `id` finds what it should, and nothing
twice, whatever names have been met before. What it has met is given by an assignment
`σ` and the names it is restricted to; what it finds is the restriction of an
assignment `τ` that goes on from `σ`. -/
structure Exact (g : EGraph) (p : Pattern) (id : ClassId) : Prop where
  mem_iff : ∀ σ names {s}, s ∈ g.matchIn p id (assign σ names) ↔
    ∃ τ, (∀ n ∈ names, τ n = σ n) ∧ g.RepresentedBy τ p (g.root id) ∧
      s = assign τ (names ++ p.occurrences)
  nodup : ∀ σ names, (g.matchIn p id (assign σ names)).Nodup

/-- A variable that has been met is compared with the class, and another one is bound
to it. -/
theorem matchIn_var (g : EGraph) (name : String) (id : ClassId)
    (σ : String → ClassId) (names : List String) :
    g.matchIn (.var name) id (assign σ names) =
      if name ∈ names then (if σ name = g.root id then [assign σ names] else [])
      else [assign (Function.update σ name (g.root id)) (names ++ [name])] := by
  rw [matchIn, bindVar, get?_assign]
  by_cases hn : name ∈ names
  · simp [hn]
  · have hold : assign (Function.update σ name (g.root id)) names = assign σ names :=
      assign_congr fun n hmem =>
        Function.update_of_ne (ne_of_mem_of_not_mem hmem hn) _ _
    rw [if_neg hn, if_neg hn, assign_concat, if_neg hn, hold, Function.update_self,
      set_of_get?_eq_none (by rw [get?_assign, if_neg hn])]

/-- A variable is the only pattern that binds. Where it has been met, the search only
compares, and where it has not, exactly one assignment goes on from the given one. -/
theorem exact_var (g : EGraph) (name : String) (id : ClassId) :
    g.Exact (.var name) id := by
  constructor
  case mem_iff =>
    intro σ names s
    rw [matchIn_var, Pattern.occurrences]
    -- either the variable was met and must stand for this class, or it is bound to
    -- it now
    by_cases hn : name ∈ names
    · rw [if_pos hn]
      constructor
      · intro hs
        split at hs
        · next heq =>
          obtain rfl := List.mem_singleton.1 hs
          exact ⟨σ, fun _ _ => rfl, heq, by rw [assign_concat, if_pos hn]⟩
        · exact absurd hs List.not_mem_nil
      · rintro ⟨τ, hagree, hτ, rfl⟩
        rw [if_pos ((hagree name hn).symm.trans hτ), List.mem_singleton,
          assign_concat, if_pos hn]
        exact assign_congr hagree
    · rw [if_neg hn, List.mem_singleton]
      constructor
      · rintro rfl
        refine ⟨_, fun n hmem => ?_, Function.update_self _ _ _, rfl⟩
        exact Function.update_of_ne (ne_of_mem_of_not_mem hmem hn) _ _
      · rintro ⟨τ, hagree, hτ, rfl⟩
        refine assign_congr fun n hmem => ?_
        by_cases heq : n = name
        · rw [heq, Function.update_self]
          exact hτ
        · rw [Function.update_of_ne heq]
          exact hagree n ((List.mem_append.1 hmem).resolve_right
            (by simpa using heq))
  case nodup =>
    intro σ names
    rw [matchIn_var]
    split
    · split <;> simp
    · exact List.nodup_singleton _

section

variable {pairs : List (Pattern × ClassId)}

/-- The slots are searched from left to right, each under what the ones before it
have bound. -/
theorem mem_matchAll (hpairs : ∀ q ∈ pairs, g.Exact q.1 q.2) :
    s ∈ g.matchAll pairs (assign σ names) ↔
      ∃ τ, (∀ n ∈ names, τ n = σ n) ∧
        (∀ q ∈ pairs, g.RepresentedBy τ q.1 (g.root q.2)) ∧
        s = assign τ (names ++ pairs.flatMap (·.1.occurrences)) := by
  induction pairs generalizing σ names with
  | nil =>
      rw [matchAll, List.mem_singleton, List.flatMap_nil, List.append_nil]
      constructor
      · rintro rfl
        exact ⟨σ, fun _ _ => rfl, by simp, rfl⟩
      · rintro ⟨τ, hagree, -, rfl⟩
        exact assign_congr hagree
  | cons q rest ih =>
      obtain ⟨hq, hrest⟩ := List.forall_mem_cons.1 hpairs
      rw [matchAll, List.mem_flatMap, List.flatMap_cons, ← List.append_assoc]
      constructor
      · rintro ⟨s₁, h₁, h₂⟩
        obtain ⟨τ₁, hagree₁, hrep₁, rfl⟩ := (hq.mem_iff _ _).1 h₁
        obtain ⟨τ, hagree, hrep, rfl⟩ := (ih hrest).1 h₂
        -- the assignment of the last pair agrees with all earlier ones on what they
        -- have bound
        refine ⟨τ, fun n hn => ?_, List.forall_mem_cons.2 ⟨?_, hrep⟩, rfl⟩
        · exact (hagree n (List.mem_append_left _ hn)).trans (hagree₁ n hn)
        · exact hrep₁.congr fun n hn => (hagree n (List.mem_append_right _ hn)).symm
      · -- conversely the assignment of the whole list is restricted to what each
        -- slot binds
        rintro ⟨τ, hagree, hrep, rfl⟩
        obtain ⟨hrepq, hreprest⟩ := List.forall_mem_cons.1 hrep
        exact ⟨_, (hq.mem_iff _ _).2 ⟨τ, hagree, hrepq, rfl⟩,
          (ih hrest).2 ⟨τ, fun _ _ => rfl, hreprest, rfl⟩⟩

/-- No substitution is found twice for a list of slots either. -/
theorem nodup_matchAll (hpairs : ∀ q ∈ pairs, g.Exact q.1 q.2) :
    (g.matchAll pairs (assign σ names)).Nodup := by
  induction pairs generalizing σ names with
  | nil => exact List.nodup_singleton _
  | cons q rest ih =>
      obtain ⟨hq, hrest⟩ := List.forall_mem_cons.1 hpairs
      rw [matchAll, List.nodup_flatMap]
      constructor
      · intro s₁ h₁
        obtain ⟨τ₁, -, -, rfl⟩ := (hq.mem_iff _ _).1 h₁
        exact ih hrest
      · -- two substitutions of the first slot must not go on to a common end
        refine (hq.nodup σ names).imp_of_mem fun {s₁ s₂} h₁ h₂ hne => ?_
        obtain ⟨τ₁, -, -, rfl⟩ := (hq.mem_iff _ _).1 h₁
        obtain ⟨τ₂, -, -, rfl⟩ := (hq.mem_iff _ _).1 h₂
        intro s hs₁ hs₂
        obtain ⟨ρ₁, hagree₁, -, rfl⟩ := (mem_matchAll hrest).1 hs₁
        obtain ⟨ρ₂, hagree₂, -, heq⟩ := (mem_matchAll hrest).1 hs₂
        -- what the first slot has bound can be read off the end result
        refine hne (assign_congr fun n hn => ?_)
        rw [← hagree₁ n hn, ← hagree₂ n hn]
        exact assign_inj heq (List.mem_append_left _ hn)

end

/-- Matching the slots of a layer with the children of a node that has its head. The
children are classes, so it does not matter that the search starts from their
roots. -/
theorem mem_matchAll_zip (h : g.WellFormed) {n : Node Pattern} {m : Node ClassId}
    (hm : ∀ c ∈ m.children, c ∈ g.classIds)
    (hhead : n.key.map (fun _ => ()) = m.key.map (fun _ => ()))
    (hslots : ∀ q ∈ n.children, ∀ c < g.issued, g.Exact q c) :
    s ∈ g.matchAll (n.children.zip m.children) (assign σ names) ↔
      ∃ τ, (∀ x ∈ names, τ x = σ x) ∧ n.key.Rel (g.RepresentedBy τ) m.key ∧
        s = assign τ (names ++ (Pattern.ofNode n).occurrences) := by
  have hlen : n.children.length = m.children.length := by
    have hchildren := congrArg (fun n : Node Unit => n.children.length) hhead
    simpa using hchildren
  have hnames : (n.children.zip m.children).flatMap (·.1.occurrences) =
      (Pattern.ofNode n).occurrences := by
    rw [Pattern.occurrences_ofNode, ← List.flatMap_map, List.map_fst_zip hlen.le]
  have hroot : ∀ q ∈ n.children.zip m.children, q.2 < g.issued ∧
        g.root q.2 = q.2 := fun q hq =>
    (mem_classIds h).1 (hm q.2 (List.of_mem_zip hq).2)
  rw [mem_matchAll fun q hq =>
    hslots q.1 (List.of_mem_zip hq).1 q.2 (hroot q hq).1, hnames]
  refine exists_congr fun τ => and_congr_right fun _ => and_congr_left fun _ => ?_
  rw [Node.Rel, Node.children_key, Node.children_key, List.forall₂_iff_zip]
  constructor
  · intro hrep
    refine ⟨hhead, hlen, fun {q c} hq => ?_⟩
    have hqc := hrep (q, c) hq
    rwa [(hroot (q, c) hq).2] at hqc
  · rintro ⟨-, -, hrep⟩ q hq
    rw [(hroot q hq).2]
    exact hrep hq

/-- One node of a class yields the assignments that relate a layer to it. A node with
another head is skipped by the search, and no assignment relates the layer to it. -/
theorem mem_matchAll_of_mem_nodes (hc : g.Canonical) (h : g.WellFormed)
    {n : Node Pattern} {m : Node ClassId}
    (hslots : ∀ q ∈ n.children, ∀ c < g.issued, g.Exact q c) (hid : id < g.issued)
    (hm : m ∈ g.nodes id) :
    s ∈ (if n.key.map (fun _ => ()) = m.key.map (fun _ => ()) then
        g.matchAll (n.children.zip m.children) (assign σ names) else []) ↔
      ∃ τ, (∀ x ∈ names, τ x = σ x) ∧ n.key.Rel (g.RepresentedBy τ) m.key ∧
        s = assign τ (names ++ (Pattern.ofNode n).occurrences) := by
  split
  · next hhead =>
    exact mem_matchAll_zip h ((hc.map_key_nodes h hid).2 m hm) hhead hslots
  · next hhead =>
    refine iff_of_false List.not_mem_nil ?_
    rintro ⟨τ, -, hrel, -⟩
    exact hhead hrel.1

/-- Two nodes that one assignment relates a layer to have one key: slot by slot,
their children represent the same instance, and this is in one class only. -/
theorem key_eq_of_rel (hc : g.Canonical) (h : g.WellFormed) {n : Node Pattern}
    {m m' : Node ClassId} {τ τ' : String → ClassId} (hid : id < g.issued)
    (hm : m ∈ g.nodes id) (hm' : m' ∈ g.nodes id)
    (hrel : n.key.Rel (g.RepresentedBy τ) m.key)
    (hrel' : n.key.Rel (g.RepresentedBy τ') m'.key)
    (hagree : ∀ x ∈ (Pattern.ofNode n).occurrences, τ' x = τ x) :
    m.key = m'.key := by
  refine hrel.unique (hrel'.imp fun q hq c _ hqc => hqc.congr fun x hx => ?_)
    fun q _ c hcm c' hcm' hqc hqc' => ?_
  · refine hagree x ?_
    rw [Pattern.occurrences_ofNode, ← Node.children_key]
    exact List.mem_flatMap.2 ⟨q, hq, hx⟩
  · rw [Node.children_key] at hcm hcm'
    exact RepresentedBy.unique hc ((hc.map_key_nodes h hid).2 m hm c hcm)
      ((hc.map_key_nodes h hid).2 m' hm' c' hcm') hqc hqc'

/-- A layer is searched for in every node of the class, and what the nodes yield is
put together. This is exact because the class lists its nodes without repetition and
an assignment determines the node. -/
theorem exact_ofNode (hc : g.Canonical) (h : g.WellFormed) (hd : g.Distinct)
    {n : Node Pattern} (hn : ∀ v, n = .literal v → v.level ≠ none)
    (hslots : ∀ q ∈ n.children, ∀ c < g.issued, g.Exact q c) (hid : id < g.issued) :
    g.Exact (.ofNode n) id := by
  -- representation is about keys, and the search is about the nodes stored under
  -- them
  have hkey {τ : String → ClassId} : g.RepresentedBy τ (.ofNode n) (g.root id) ↔
      ∃ m, n.key.Rel (g.RepresentedBy τ) m ∧ m.key ∈ (g.record (g.root id)).nodes :=
    Pattern.occurs_ofNode_key (by simp)
  constructor
  case mem_iff =>
    intro σ names s
    rw [matchIn_ofNode g hn, List.mem_flatMap]
    constructor
    · rintro ⟨m, hm, hs⟩
      obtain ⟨τ, hagree, hrel, rfl⟩ :=
        (mem_matchAll_of_mem_nodes hc h hslots hid hm).1 hs
      refine ⟨τ, hagree, hkey.2 ⟨m.key, hrel, ?_⟩, rfl⟩
      rw [Node.key_key]
      exact hc.key_mem_of_mem_nodes h hid hm
    · -- the key that represents the layer is that of a node that the class offers
      rintro ⟨τ, hagree, hrep, rfl⟩
      obtain ⟨m', hrel, hmem⟩ := hkey.1 hrep
      obtain ⟨m, hm, hmm⟩ := hc.exists_of_key_mem h hid hmem
      refine ⟨m, hm, (mem_matchAll_of_mem_nodes hc h hslots hid hm).2
        ⟨τ, hagree, ?_, rfl⟩⟩
      rw [hmm, ← Node.key_key n]
      exact hrel.key
  case nodup =>
    intro σ names
    rw [matchIn_ofNode g hn, List.nodup_flatMap]
    constructor
    · intro m hm
      split
      · refine nodup_matchAll fun q hq => ?_
        obtain ⟨hq₁, hq₂⟩ := List.of_mem_zip hq
        exact hslots q.1 hq₁ q.2
          ((mem_classIds h).1 ((hc.map_key_nodes h hid).2 m hm q.2 hq₂)).1
      · exact List.nodup_nil
    · -- two different nodes of the class have different keys
      have hpair : (g.nodes id).Pairwise fun m m' => m.key ≠ m'.key := by
        rw [← List.pairwise_map, (hc.map_key_nodes h hid).1]
        exact hd (g.root id)
      refine hpair.imp_of_mem fun {m m'} hm hm' hne s hs hs' => hne ?_
      -- both searches end in one assignment, which determines the node
      obtain ⟨τ, -, hrel, rfl⟩ := (mem_matchAll_of_mem_nodes hc h hslots hid hm).1 hs
      obtain ⟨τ', -, hrel', heq⟩ :=
        (mem_matchAll_of_mem_nodes hc h hslots hid hm').1 hs'
      exact key_eq_of_rel hc h hid hm hm' hrel hrel' fun x hx =>
        (assign_inj heq (List.mem_append_right _ hx)).symm

/-- In a canonical graph the search for a pattern without NaN is exact. The induction
is on the layers of the pattern, for all classes at once, as the slots are matched
elsewhere. -/
theorem Canonical.exact (hc : g.Canonical) (h : g.WellFormed) (hd : g.Distinct)
    (hp : ∀ v, .literal v ∈ p.parts → v.level ≠ none) (hid : id < g.issued) :
    g.Exact p id := by
  induction p using Pattern.layers generalizing id with
  | var name => exact exact_var g name id
  | node n ih =>
      refine exact_ofNode hc h hd ?_
        (fun q hq c hlt => ih q hq (fun v hv => ?_) hlt) hid
      · rintro v rfl
        exact hp v (Pattern.mem_parts_self _)
      · exact hp v (Pattern.mem_parts_trans (Pattern.mem_parts_child hq) hv)

/-! ## Results -/

/-- Where names do not repeat, looking up a name finds its binding. -/
theorem get?_eq_some_of_mem (hkeys : (s.map Prod.fst).Nodup) {b : String × Int}
    (hb : b ∈ s) : Bindings.get? s b.1 = some b.2 := by
  induction s with
  | nil => exact absurd hb List.not_mem_nil
  | cons c rest ih =>
      rw [List.map_cons, List.nodup_cons] at hkeys
      rw [Bindings.get?]
      rcases List.mem_cons.1 hb with rfl | hb
      · exact if_pos rfl
      · have hne : c.1 ≠ b.1 := fun heq => hkeys.1 (heq ▸ List.mem_map_of_mem hb)
        rw [if_neg hne]
        exact ih hkeys.2 hb

theorem mem_of_get?_eq_some {v : Int} (h : Bindings.get? s name = some v) :
    (name, v) ∈ s := by
  induction s with
  | nil => cases h
  | cons c rest ih =>
      rw [Bindings.get?] at h
      split at h
      · next heq =>
        cases h
        subst heq
        exact List.mem_cons_self
      · exact List.mem_cons_of_mem _ (ih h)

/-- Every substitution over the names of a list is made by an assignment: that of
each name to what it is bound to. -/
theorem exists_assign {names : List String}
    (hkeys : s.map Prod.fst = names.eraseDups)
    (hvals : ∀ b ∈ s, 0 ≤ b.2) : ∃ σ, s = assign σ names := by
  have hnodup : (s.map Prod.fst).Nodup := hkeys ▸ nodup_eraseDups names
  refine ⟨fun name => ((Bindings.get? s name).getD 0).toNat, ?_⟩
  rw [assign, ← hkeys, List.map_map]
  conv_lhs => rw [← List.map_id s]
  refine List.map_congr_left fun b hb => ?_
  rw [Function.comp_apply, get?_eq_some_of_mem hnodup hb, Option.getD_some,
    Int.toNat_of_nonneg (hvals b hb)]
  rfl

/-- The substitutions found in the class of `id`: those that bind the variables of
the pattern to classes and under which the class represents it. -/
theorem Canonical.mem_matchIn (hc : g.Canonical) (h : g.WellFormed) (hd : g.Distinct)
    (hp : ∀ v, .literal v ∈ p.parts → v.level ≠ none) (hid : id < g.issued) :
    s ∈ g.matchIn p id [] ↔ s.map Prod.fst = p.vars ∧
      (∀ b ∈ s, ∃ k ∈ g.classIds, b.2 = (k : Int)) ∧
      g.Represented s p (g.root id) := by
  have hroot := h.root_mem_classIds hid
  -- with no names met before, the search is exact for any assignment at all
  have hmem : s ∈ g.matchIn p id [] ↔
      ∃ τ, g.RepresentedBy τ p (g.root id) ∧ s = assign τ p.occurrences := by
    refine ((hc.exact h hd hp hid).mem_iff (fun _ => 0) []).trans ?_
    simp
  rw [hmem]
  constructor
  · rintro ⟨τ, hrep, rfl⟩
    refine ⟨?_, ?_, (represented_assign fun _ hn => hn).2 hrep⟩
    · rw [assign, List.map_map]
      exact List.map_id _
    · intro b hb
      obtain ⟨n, hn, rfl⟩ := List.mem_map.1 hb
      exact ⟨τ n, hrep.mem_classIds hc hroot (List.mem_eraseDups.1 hn), rfl⟩
  · rintro ⟨hkeys, hvals, hrep⟩
    obtain ⟨σ, rfl⟩ := exists_assign hkeys fun b hb => by
      obtain ⟨k, -, hk⟩ := hvals b hb
      rw [hk]
      exact Int.natCast_nonneg k
    exact ⟨σ, (represented_assign fun _ hn => hn).1 hrep, rfl⟩

/-- A substitution of the variables of a pattern by classes under which the class
`id` represents it. -/
structure IsMatch (g : EGraph) (p : Pattern) (id : ClassId) (s : Subst) : Prop where
  mem : id ∈ g.classIds
  names : s.map Prod.fst = p.vars
  classes : ∀ b ∈ s, ∃ k ∈ g.classIds, b.2 = (k : Int)
  represented : g.Represented s p id

namespace IsMatch

/-- A match binds exactly the variables of the pattern, each to a class. -/
theorem get? (h : g.IsMatch p id s) (hn : name ∈ p.occurrences) :
    ∃ k ∈ g.classIds, Bindings.get? s name = some (k : Int) := by
  have hmem : name ∈ s.map Prod.fst := by
    rw [h.names]
    exact Pattern.mem_vars.2 hn
  obtain ⟨b, hb, rfl⟩ := List.mem_map.1 hmem
  obtain ⟨k, hk, hbk⟩ := h.classes b hb
  have hnodup : (s.map Prod.fst).Nodup := h.names ▸ nodup_eraseDups _
  exact ⟨k, hk, by rw [get?_eq_some_of_mem hnodup hb, hbk]⟩

theorem mem_occurrences (h : g.IsMatch p id s) {ref : Int}
    (hget : Bindings.get? s name = some ref) :
    name ∈ p.occurrences := by
  rw [← Pattern.mem_vars, ← h.names]
  exact List.mem_map_of_mem (f := Prod.fst) (mem_of_get?_eq_some hget)

/-- Where the match is an assignment, it assigns classes. -/
theorem assign_mem (h : g.IsMatch p id (assign σ p.occurrences))
    (hn : name ∈ p.occurrences) : σ name ∈ g.classIds := by
  obtain ⟨k, hk, hget⟩ := h.get? hn
  rwa [← Nat.cast_inj.1 (get?_assign_eq_some.1 hget).2]

theorem boundIn (hw : g.WellFormed) (h : g.IsMatch p id s) : g.BoundIn s := by
  intro name ref hget
  obtain ⟨k, hk, rfl⟩ := h.classes _ (mem_of_get?_eq_some hget)
  exact ⟨Int.natCast_nonneg k, by simpa using ((mem_classIds hw).1 hk).1⟩

/-- The instance of a pattern that was matched lasts when the graph changes. -/
theorem realizes (hc : g.Canonical) (hw : g.WellFormed) (h : g.IsMatch p id s) :
    g.Realizes s p id := by
  refine h.represented.imp (A := fun k => k ∈ g.classIds)
    (fun hk hm => hc.child_mem hk hm)
    (fun {name k} _ hbound => ⟨(k : Int), hbound, by simp⟩)
    (fun {m k} hk hm => ?_) h.mem
  obtain ⟨e, he, ho⟩ := hw.stored ((mem_classIds hw).1 hk).2 hm
  refine (represents_of_get? he).congr ?_ ?_
  · rw [Node.key_key]
  · rw [ho, ((mem_classIds hw).1 hk).2]

end IsMatch

/-- After a rebuild, the matcher finds exactly the matches. -/
theorem Rebuilt.mem_matchIn (hg : g.Rebuilt)
    (hp : ∀ v, .literal v ∈ p.parts → v.level ≠ none) :
    id ∈ g.classIds ∧ s ∈ g.matchIn p id [] ↔ g.IsMatch p id s := by
  constructor
  · rintro ⟨hid, hs⟩
    obtain ⟨hlt, hroot⟩ := (mem_classIds hg.wellFormed).1 hid
    obtain ⟨hnames, hvals, hrep⟩ :=
      (hg.canonical.mem_matchIn hg.wellFormed hg.distinct hp hlt).1 hs
    rw [hroot] at hrep
    exact ⟨hid, hnames, hvals, hrep⟩
  · intro hm
    obtain ⟨hlt, hroot⟩ := (mem_classIds hg.wellFormed).1 hm.mem
    refine ⟨hm.mem, (hg.canonical.mem_matchIn hg.wellFormed hg.distinct hp hlt).2
      ⟨hm.names, hm.classes, ?_⟩⟩
    rw [hroot]
    exact hm.represented

/-- In a graph that has just been rebuilt, the matches of a pattern in a class are
the substitutions of its variables by classes under which the class represents it,
each once; and a search lists the classes that have a match, each once. -/
theorem matchesAt_iff_represented (op : Operation) (hg : Reached g)
    (hop : op.Rebuilds) (hrun : op.Runs g g') {text : String}
    (hp : Pattern.parse text = .ok p) :
    (∀ ref k, g'.find ref = .ok k → ∃ ms, g'.matchesAt p ref = .ok ms ∧ ms.Nodup ∧
      ∀ s, s ∈ ms ↔ s.map Prod.fst = p.vars ∧
        (∀ b ∈ s, ∃ c ∈ g'.classIds, b.2 = (c : Int)) ∧
        g'.Represented s p k) ∧
      ((g'.search p).map Found.id).Nodup ∧
      ∀ found, found ∈ g'.search p ↔ found.id ∈ g'.classIds ∧ found.substs ≠ [] ∧
        g'.matchesAt p found.id = .ok found.substs := by
  obtain ⟨g₁, c, hlast⟩ := hop.last (Calls.wellFormed wellFormed_empty hg.calls) hrun
  have hrebuilt : g'.Rebuilt := ⟨g₁, hg.calls.trans c, hlast⟩
  have h := hrebuilt.wellFormed
  have hd := hrebuilt.distinct
  have hc := hrebuilt.canonical
  -- what was read has no NaN, so the search compares literals as the classes do
  have hlit : ∀ v, .literal v ∈ p.parts → v.level ≠ none := fun v hv => by
    obtain ⟨n, hn⟩ := (Pattern.atomic_of_parse hp).literal hv
    rw [hn]
    exact (Binary64.isWidth_ofNat n).level
  refine ⟨fun ref k hk => ?_, ?_, fun found => ?_⟩
  · obtain ⟨-, hlt, rfl⟩ := find_inv hk
    have hexact := hc.exact h hd hlit (h.root_lt hlt)
    refine ⟨g'.matchIn p (g'.root ref.toNat) [], ?_, ?_, fun s => ?_⟩
    · rw [matchesAt, hk]
      rfl
    · exact hexact.nodup (fun _ => 0) []
    · rw [hc.mem_matchIn h hd hlit (h.root_lt hlt), h.root_root]
  · -- the search goes through the roots, of which each is listed once
    have hids : ((g'.classIds.map fun id =>
        (⟨id, g'.matchIn p id []⟩ : Found)).map Found.id).Nodup := by
      rw [List.map_map, classIds, UnionFind.roots_eq_eraseDups]
      exact (List.map_id _).symm ▸ nodup_eraseDups _
    exact hids.sublist (List.filter_sublist.map _)
  · obtain ⟨id, substs⟩ := found
    have hat (hid : id ∈ g'.classIds) :
        g'.matchesAt p id = .ok (g'.matchIn p id []) := by
      obtain ⟨hlt, hroot⟩ := (mem_classIds h).1 hid
      rw [matchesAt, find_natCast hlt, hroot]
      rfl
    rw [search, List.mem_filter, List.mem_map]
    constructor
    · rintro ⟨⟨k, hk, heq⟩, hne⟩
      cases heq
      exact ⟨hk, by simpa using hne, hat hk⟩
    · rintro ⟨hid, hne, hsub⟩
      rw [hat hid] at hsub
      cases hsub
      exact ⟨⟨id, hid, rfl⟩, by simpa using hne⟩

/-- Once `a` and `b` are united, `(max+1 a a)` and `(max+1 b b)` are one node, which
the pattern `(max+1 ?x ?x)` matches once. -/
theorem matchesAt_iff_represented_merge :
    ∃ g g' p ms, Reached g ∧ Operation.rebuild.Runs g g' ∧
    Pattern.parse "(max+1 ?x ?x)" = .ok p ∧ g'.matchesAt p 3 = .ok ms ∧
    ms.length = 1 ∧ ms.Nodup ∧
    ∃ k, g'.find 3 = .ok k ∧ ∀ s ∈ ms, g'.Represented s p k := by
  have hp : Pattern.parse "(max+1 ?x ?x)" =
      .ok (.derived .sum (.var "x") (.var "x")) := by
    decide +kernel
  have hrun : (fromEmpty (ε := GraphError) do
      let _ ← EGraph.add (.symbol "a")
      let _ ← EGraph.add (.symbol "b")
      let _ ← EGraph.add (.derived .sum 0 0)
      let _ ← EGraph.add (.derived .sum 1 1)
      let _ ← EGraph.merge 0 1
      EGraph.rebuild
      let k ← ask (·.find 3)
      let ms ← ask (·.matchesAt (.derived .sum (.var "x") (.var "x")) 3)
      return ms.length).toOption.map (·.1) = some 1 := by
    decide +kernel
  obtain ⟨⟨n, g'⟩, hok, hn⟩ := Option.map_eq_some_iff.1 hrun
  obtain ⟨a₁, g₁, h₁, hok⟩ := bind_inv (fromEmpty_inv (toOption_inv hok))
  obtain ⟨a₂, g₂, h₂, hok⟩ := bind_inv hok
  obtain ⟨a₃, g₃, h₃, hok⟩ := bind_inv hok
  obtain ⟨a₄, g₄, h₄, hok⟩ := bind_inv hok
  obtain ⟨a₅, g₅, h₅, hok⟩ := bind_inv hok
  obtain ⟨⟨⟩, g₆, h₆, hok⟩ := bind_inv hok
  obtain ⟨k, g₇, h₇, hrest⟩ := bind_inv hok
  obtain ⟨hk, rfl⟩ := ask_inv h₇
  obtain ⟨ms, g₈, h₈, hlast⟩ := bind_inv hrest
  obtain ⟨hms, rfl⟩ := ask_inv h₈
  obtain ⟨rfl, rfl⟩ := pure_inv hlast
  have hreached : Reached g₅ :=
    .run (.merge 0 1)
      (.run (.add _) (.run (.add _) (.run (.add _) (.run (.add _) .empty
      ⟨a₁, h₁⟩) ⟨a₂, h₂⟩) ⟨a₃, h₃⟩) ⟨a₄, h₄⟩) ⟨a₅, h₅⟩
  obtain ⟨hmatches, -⟩ := matchesAt_iff_represented .rebuild hreached trivial h₆ hp
  obtain ⟨ms', hms', hnodup, hiff⟩ := hmatches 3 k hk
  cases hms.symm.trans hms'
  exact ⟨g₅, _, _, ms, hreached, h₆, hp, hms, hn, hnodup, k, hk, fun s hs =>
    ((hiff s).1 hs).2.2⟩

end EGraph

end Datapath

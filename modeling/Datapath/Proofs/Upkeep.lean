import Datapath.Proofs.Calls

/-!
# Datapath.Proofs.Upkeep

What a repair has to see to, and that it does.

A union can leave stored nodes with children that are no roots any more, and computed
widths whose arguments have become known. A graph is `Tidy` if none of them can be
overlooked: such a node is a listed parent of a class that is **due**, that is, of a
class with a member that waits for repair.

While a pass is under way there is more to say. Classes that were taken from the list
of pending ones and have not been repaired yet are due as well, so `Tidy` takes the
list `T` of them. A repair takes the keys out of a parent list and deals with one
after the other, so `Tidy` also takes the list `B` of keys that are in nobody's care
for the moment. A repair starts by moving a class from `T` to its parents in `B`
(`Tidy.clear`), brings the keys in `B` up to date (`Tidy.repairParent`), and ends
with `B` empty.

That a node is where a repair will find it does not depend on values, so this half
comes first (`Attended`). It allows for keys `L` that are in nobody's care from the
beginning and stay so.
-/

namespace Datapath.EGraph

variable {g g' : EGraph} {id w l x y : ClassId} {key k node : Node ClassId}
  {e e' : Entry} {B L : List (Node ClassId)} {T : List ClassId}

/-- The class of `c` has a member that waits for repair, in the list `T` of those
that the pass under way still has to repair or among those that are pending. -/
def Due (T : List ClassId) (g : EGraph) (c : ClassId) : Prop :=
  ∃ p, (p ∈ T ∨ p ∈ g.pending) ∧ g.root p = g.root c

/-- A key is a parent of its children, and a child that is no root any more is due.
So the repair that is due for the child meets the key, and stores its node under a
new one. -/
structure Placed (T : List ClassId) (g : EGraph) (key : Node ClassId) : Prop where
  listed : ∀ c ∈ key.children, key ∈ (g.record (g.root c)).parents
  current : ∀ c ∈ key.children, g.root c = c ∨ Due T g c

/-- A computed width with known arguments has its value as a node of its class, or an
argument is due. In the second case the repair of the argument meets the width and
sees to its value. -/
def Folded (T : List ClassId) (g : EGraph) (key : Node ClassId)
    (owner : ClassId) : Prop :=
  ∀ fn l r a b, key = .derived fn l r → g.constant? l = some a →
    g.constant? r = some b →
    (∃ lit, g.table.get? (Node.literal (fn.eval a b)).key = some lit ∧
      g.root lit.owner = g.root owner) ∨ Due T g l ∨ Due T g r

/-- Every stored key that is not in `B` is where a repair will find it. The keys in
`B` are in nobody's care: they have been taken out of a parent list and not been put
back. -/
def Attended (B : List (Node ClassId)) (T : List ClassId) (g : EGraph) : Prop :=
  ∀ key e, g.table.get? key = some e → key ∉ B → Placed T g key

/-- So is it with the values of computed widths. This is what every call of the
interface keeps; `Attended` is the half that is still of use after a repair that
failed, with the keys that it lost as `B`. -/
def Tidy (B : List (Node ClassId)) (T : List ClassId) (g : EGraph) : Prop :=
  ∀ key e, g.table.get? key = some e → key ∉ B → Placed T g key ∧
    Folded T g key e.owner

theorem Tidy.attended (h : Tidy B T g) : Attended B T g :=
  fun key e he hk => (h key e he hk).1

theorem Attended.mono {B' : List (Node ClassId)} (h : Attended B T g)
    (hsub : ∀ k ∈ B, k ∈ B') : Attended B' T g :=
  fun key e he hk => h key e he fun hmem => hk (hsub key hmem)

theorem Tidy.mono {B' : List (Node ClassId)} (h : Tidy B T g)
    (hsub : ∀ k ∈ B, k ∈ B') : Tidy B' T g :=
  fun key e he hk => h key e he fun hmem => hk (hsub key hmem)

theorem tidy_empty : Tidy [] [] empty := by
  intro key e he
  simp [empty] at he

/-- A key that is taken care of can be left out of `B`. -/
theorem Attended.release (h : Attended (k :: B) T g)
    (hk : ∀ {e}, g.table.get? k = some e → Placed T g k) : Attended B T g := by
  intro key e he hkey
  -- the key itself is looked after by now, and of any other one `h` still speaks
  by_cases heq : key = k
  · subst heq
    exact hk he
  · exact h key e he fun hmem => (List.mem_cons.1 hmem).elim heq hkey

/-- The same for a key whose value, if it is a computed width, is taken care of
too. -/
theorem Tidy.release (h : Tidy (k :: B) T g)
    (hk : ∀ {e}, g.table.get? k = some e → Placed T g k ∧ Folded T g k e.owner) :
    Tidy B T g := by
  intro key e he hkey
  by_cases heq : key = k
  · subst heq
    exact hk he
  · exact h key e he fun hmem => (List.mem_cons.1 hmem).elim heq hkey

/-! ## Longer parent lists -/

/-- Entering keys into parent lists joins no classes, so the same classes are due. -/
theorem Due.of_enlists (hs : Enlists g g') {c : ClassId} (h : Due T g c) :
    Due T g' c := by
  obtain ⟨p, hp, hroot⟩ := h
  exact ⟨p, by rw [hs.pending]; exact hp, by rw [hs.root, hs.root, hroot]⟩

/-- Parent lists only get longer, and no pointer changes. -/
theorem Placed.of_enlists (hs : Enlists g g') (h : Placed T g key) :
    Placed T g' key where
  listed c hc := by
    rw [hs.root]
    exact hs.parents (h.listed c hc)
  current c hc := by
    rw [hs.root]
    exact (h.current c hc).imp_right (Due.of_enlists hs)

theorem Folded.of_enlists (hs : Enlists g g') {owner : ClassId}
    (h : Folded T g key owner) : Folded T g' key owner := by
  intro fn l r a b hkey ha hb
  rw [hs.constant?] at ha hb
  rcases h fn l r a b hkey ha hb with ⟨lit, hlit, hroot⟩ | hl | hr
  · exact Or.inl ⟨lit, by rw [hs.table, hlit], by rw [hs.root, hs.root, hroot]⟩
  · exact Or.inr (Or.inl (hl.of_enlists hs))
  · exact Or.inr (Or.inr (hr.of_enlists hs))

theorem Attended.of_enlists (h : Attended B T g) (hs : Enlists g g') :
    Attended B T g' := by
  intro key e he hkey
  rw [hs.table] at he
  exact (h key e he hkey).of_enlists hs

theorem Tidy.of_enlists (h : Tidy B T g) (hs : Enlists g g') : Tidy B T g' := by
  intro key e he hkey
  rw [hs.table] at he
  exact ⟨(h key e he hkey).1.of_enlists hs, (h key e he hkey).2.of_enlists hs⟩

/-! ## A new class -/

/-- What was due before a new class was issued is due afterwards, as the new class
has no other members. -/
theorem Due.issue (h : g.WellFormed) {c : ClassId} (hd : Due T g c)
    (m : Node ClassId) : Due T (g.issue m) c := by
  obtain ⟨p, hp, hroot⟩ := hd
  exact ⟨p, by rw [pending_issue]; exact hp,
    by rw [root_issue h.ranked, root_issue h.ranked, hroot]⟩

/-- The children of a stored key have been issued, so none of them is the new class
and their parent lists are those of before. -/
theorem Placed.issue (h : g.WellFormed) (hchild : ∀ c ∈ key.children, c < g.issued)
    (hp : Placed T g key) (m : Node ClassId) : Placed T (g.issue m) key where
  listed c hc := by
    rw [root_issue h.ranked]
    exact mem_parents_issue h.classes_size m (h.root_ne_issued (hchild c hc))
      (hp.listed c hc)
  current c hc := by
    rw [root_issue h.ranked]
    exact (hp.current c hc).imp_right fun hd => hd.issue h m

/-- A new class changes no constant. It may change the table, but not at the key of
the literal, which was there before. -/
theorem Folded.issue (h : g.WellFormed) (hchild : ∀ c ∈ key.children, c < g.issued)
    {owner : ClassId} (hf : Folded T g key owner) {m : Node ClassId}
    (hnew : g.table.get? m.key = none) : Folded T (g.issue m) key owner := by
  intro fn l r a b hkey ha hb
  subst hkey
  rw [h.constant?_issue _ (hchild l (by simp [Node.children]))] at ha
  rw [h.constant?_issue _ (hchild r (by simp [Node.children]))] at hb
  rcases hf fn l r a b rfl ha hb with ⟨lit, hlit, hroot⟩ | hl | hr
  · have hne : (Node.literal (fn.eval a b)).key ≠ m.key := fun heq => by
      rw [heq, hnew] at hlit
      cases hlit
    refine Or.inl ⟨lit, by rw [get?_issue, if_neg hne, hlit], ?_⟩
    rw [root_issue h.ranked, root_issue h.ranked, hroot]
  · exact Or.inr (Or.inl (hl.issue h m))
  · exact Or.inr (Or.inr (hr.issue h m))

/-- A new key is listed at once, and its children are roots. -/
theorem placed_issue (h : g.WellFormed)
    (hc : ∀ c ∈ node.children, c < g.issued ∧ g.root c = c)
    (T : List ClassId) : Placed T (g.issue node) node.key where
  listed c hmem := by
    have hlt : g.root c < g.classes.size + 1 := by
      rw [h.classes_size]
      exact Nat.lt_succ_of_lt (h.root_lt (hc c (Node.children_key node ▸ hmem)).1)
    rw [(issue_enlists g node).root]
    refine mem_parents_enlist hmem ?_
    rw [Array.size_push]
    exact lt_of_eq_of_lt (UnionFind.root_push h.ranked c) hlt
  current c hmem := by
    rw [Node.children_key] at hmem
    rw [root_issue h.ranked]
    exact Or.inl (hc c hmem).2

theorem Attended.issue (h : g.WellFormed) (ha : Attended B T g)
    (hc : ∀ c ∈ node.children, c < g.issued ∧ g.root c = c) :
    Attended B T (g.issue node) := by
  intro key e he hkey
  rw [get?_issue] at he
  split at he
  · next hnode => exact hnode ▸ placed_issue h hc T
  · exact (ha key e he hkey).issue h (h.child_lt he) node

theorem Tidy.issue (h : g.WellFormed) (ht : Tidy B T g) {m : Node ClassId}
    (hnew : g.table.get? m.key = none) : Tidy (m.key :: B) T (g.issue m) := by
  intro key e he hkey
  rw [List.mem_cons, not_or] at hkey
  rw [get?_issue, if_neg hkey.1] at he
  have hchild := h.child_lt he
  exact ⟨(ht key e he hkey.2).1.issue h hchild m,
    (ht key e he hkey.2).2.issue h hchild hnew⟩

/-! ## A union -/

/-- A union leaves the list of pending classes as it was, but for the winner at its
end, and what had one root has one root afterwards. -/
theorem Due.absorb (h : g.WellFormed) (hj : Joinable g w l) {c : ClassId}
    (hd : Due T g c) : Due T (g.absorb w l) c := by
  obtain ⟨p, hp, hroot⟩ := hd
  refine ⟨p, ?_, by rw [hj.root h, hj.root h, hroot]⟩
  rw [pending_absorb]
  exact hp.imp_right (Array.mem_push_of_mem w)

/-- The classes that a union joins are due afterwards. -/
theorem due_absorb (h : g.WellFormed) (hj : Joinable g w l) {c : ClassId}
    (hc : g.root c = w ∨ g.root c = l) (T : List ClassId) :
    Due T (g.absorb w l) c := by
  refine ⟨w, Or.inr ?_, ?_⟩
  · rw [pending_absorb]
    exact Array.mem_push_self
  · rw [hj.root_winner h, hj.root h]
    rcases hc with hc | hc
    · rw [hc, if_neg hj.ne]
    · rw [if_pos hc]

/-- A union overlooks nothing: the lists of parents are put together, and the only
root that is lost is that of the loser, whose class is due from now on. -/
theorem Placed.absorb (h : g.WellFormed) (hj : Joinable g w l)
    (hp : Placed T g key) : Placed T (g.absorb w l) key where
  listed c hc := by
    have hmem := hp.listed c hc
    rw [hj.root h, record_absorb (hj.winner_lt_size h)]
    -- the parents of the loser are handed over to the winner, whose own ones stay
    by_cases hl : g.root c = l
    · rw [if_pos hl, if_pos rfl, KeySet.mem_union]
      exact Or.inr (by rw [← hl]; exact hmem)
    · rw [if_neg hl]
      by_cases hw : g.root c = w
      · rw [if_pos hw, KeySet.mem_union]
        exact Or.inl (by rw [← hw]; exact hmem)
      · rw [if_neg hw]
        exact hmem
  current c hc := by
    -- a child that was a root is one still, unless its class is the one that lost
    rcases hp.current c hc with hroot | hd
    · by_cases hl : g.root c = l
      · exact Or.inr (due_absorb h hj (Or.inr hl) T)
      · rw [hj.root_of_ne h hl]
        exact Or.inl hroot
    · exact Or.inr (hd.absorb h hj)

/-- A union overlooks no value either, since a class that learns its constant by the
union is one of the two that are joined, and these are due. -/
theorem Folded.absorb (h : g.WellFormed) (hj : Joinable g w l) {owner : ClassId}
    (hf : Folded T g key owner) : Folded T (g.absorb w l) key owner := by
  intro fn a b va vb hkey ha hb
  -- an argument that takes part in the union is due, and any other knows what it
  -- knew
  by_cases haj : g.root a = w ∨ g.root a = l
  · exact Or.inr (Or.inl (due_absorb h hj haj T))
  by_cases hbj : g.root b = w ∨ g.root b = l
  · exact Or.inr (Or.inr (due_absorb h hj hbj T))
  rw [not_or] at haj hbj
  rw [hj.constant?_of_ne h haj.1 haj.2] at ha
  rw [hj.constant?_of_ne h hbj.1 hbj.2] at hb
  rcases hf fn a b va vb hkey ha hb with ⟨lit, hlit, hroot⟩ | hd | hd
  · exact Or.inl ⟨lit, hlit, by rw [hj.root h, hj.root h, hroot]⟩
  · exact Or.inr (Or.inl (hd.absorb h hj))
  · exact Or.inr (Or.inr (hd.absorb h hj))

/-- Uniting two classes is either no change at all or a union of two roots. -/
theorem Attended.unite (h : g.WellFormed) (ha : Attended B T g) {r : ClassId}
    (hx : x < g.issued) (hy : y < g.issued) (hu : unite x y g = .ok r g') :
    Attended B T g' := by
  rcases unite_cases h hx hy hu with ⟨-, rfl, -⟩ | ⟨w, l, hj, rfl, -⟩
  · exact ha
  · exact fun key e he hkey => (ha key e he hkey).absorb h hj

theorem Tidy.unite (h : g.WellFormed) (ht : Tidy B T g) {r : ClassId}
    (hx : x < g.issued) (hy : y < g.issued) (hu : unite x y g = .ok r g') :
    Tidy B T g' := by
  rcases unite_cases h hx hy hu with ⟨-, rfl, -⟩ | ⟨w, l, hj, rfl, -⟩
  · exact ht
  · intro key e he hkey
    exact ⟨(ht key e he hkey).1.absorb h hj, (ht key e he hkey).2.absorb h hj⟩

/-! ## A stored node that goes or is stored anew -/

/-- What is due depends on the roots and on the pending classes only. -/
theorem Due.of_frame (hframe : SameFrame g g') {c : ClassId} (hd : Due T g c) :
    Due T g' c := by
  obtain ⟨p, hp, hpc⟩ := hd
  exact ⟨p, by rw [hframe.pending]; exact hp, by rw [hframe.root, hframe.root, hpc]⟩

/-- Keys can be taken from the table and put into it. -/
theorem Attended.of_table {B' : List (Node ClassId)} (h : Attended B T g)
    (hframe : SameFrame g g')
    (hold : ∀ {key e}, g'.table.get? key = some e → key ∉ B' →
      g.table.get? key = some e ∧ key ∉ B) : Attended B' T g' := by
  intro key e he hkey
  obtain ⟨he, hkeyB⟩ := hold he hkey
  have hp := h key e he hkeyB
  -- neither the parents nor the roots are changed by what is done to the table
  refine ⟨fun c hc => ?_, fun c hc => ?_⟩
  · rw [hframe.root, hframe.parents]
    exact hp.listed c hc
  · rw [hframe.root]
    exact (hp.current c hc).imp_right (Due.of_frame hframe)

/-- Values are not affected as long as literals stay with their classes. -/
theorem Tidy.of_table {B' : List (Node ClassId)} (h : Tidy B T g)
    (hframe : SameFrame g g')
    (hold : ∀ {key e}, g'.table.get? key = some e → key ∉ B' →
      g.table.get? key = some e ∧ key ∉ B)
    (hlit : ∀ {v lit}, g.table.get? (Node.literal v).key = some lit →
      ∃ lit', g'.table.get? (Node.literal v).key = some lit' ∧
        g.root lit'.owner = g.root lit.owner) : Tidy B' T g' := by
  intro key e he hkey
  refine ⟨h.attended.of_table hframe hold key e he hkey,
    fun fn l r a b hk ha hb => ?_⟩
  obtain ⟨he, hkeyB⟩ := hold he hkey
  rw [hframe.constant?] at ha hb
  -- the literal of a known value may have got another entry, but one of the same
  -- class
  rcases (h key e he hkeyB).2 fn l r a b hk ha hb with ⟨lit, hget, howner⟩ | hd | hd
  · obtain ⟨lit', hget', howner'⟩ := hlit hget
    exact Or.inl ⟨lit', hget', by rw [hframe.root, hframe.root, howner', howner]⟩
  · exact Or.inr (Or.inl (hd.of_frame hframe))
  · exact Or.inr (Or.inr (hd.of_frame hframe))

theorem canonical_key_of_literal {v : Binary64}
    (hkey : (Node.literal v).key = e.key) :
    (g.canonical e.node).key = e.key := by
  rw [canonical, Node.key_map, ← Entry.key, ← hkey]
  rfl

theorem stored_dropKey {owner : ClassId}
    (he' : (g.dropKey e.key owner).table.get? key = some e')
    (hkey : key ∉ B) : g.table.get? key = some e' ∧ key ∉ e.key :: B := by
  obtain ⟨hke, he'⟩ := get?_dropKey_inv he'
  exact ⟨he', fun hmem => (List.mem_cons.1 hmem).elim hke hkey⟩

/-- Dropping a key of which nobody takes care leaves everything else in care. -/
theorem Attended.dropKey (h : Attended (e.key :: B) T g) (owner : ClassId) :
    Attended B T (g.dropKey e.key owner) :=
  h.of_table (dropKey_sameFrame g e.key owner) stored_dropKey

/-- The key that is dropped is out of date. A literal never is, so no value of a
computed width is lost. -/
theorem Tidy.dropKey (h : Tidy (e.key :: B) T g)
    (hne : (g.canonical e.node).key ≠ e.key)
    (owner : ClassId) : Tidy B T (g.dropKey e.key owner) := by
  refine h.of_table (dropKey_sameFrame g e.key owner) stored_dropKey ?_
  intro v lit hlit
  refine ⟨lit, ?_, rfl⟩
  -- a literal is its own canonical form, so it is not what has been dropped
  rw [get?_dropKey, if_neg fun hkey => hne (canonical_key_of_literal hkey)]
  exact hlit

/-- A key that is stored anew hands its need for care over to the new key. -/
theorem stored_restore (he : g.table.get? e.key = some e) {owner : ClassId}
    (he' : (g.restore e node owner).table.get? key = some e')
    (hkey : key ∉ node.key :: B) :
    g.table.get? key = some e' ∧ key ∉ e.key :: B := by
  rw [List.mem_cons, not_or] at hkey
  rcases get?_restore_inv he he' with ⟨hnew, -⟩ | ⟨-, hke, he'⟩
  · exact absurd hnew hkey.1
  · exact ⟨he', fun hmem => (List.mem_cons.1 hmem).elim hke hkey.2⟩

/-- A node that is stored under its new key still has to be listed there. -/
theorem Attended.restore (h : Attended (e.key :: B) T g)
    (he : g.table.get? e.key = some e)
    (node : Node ClassId) (owner : ClassId) :
    Attended (node.key :: B) T (g.restore e node owner) :=
  h.of_table (restore_sameFrame g e _ _) (stored_restore he)

/-- The same for values, where no other node is stored under the new key: the only
literal that may have been there is the node itself. -/
theorem Tidy.restore (hw : g.WellFormed) (h : Tidy (e.key :: B) T g)
    (he : g.table.get? e.key = some e)
    (hfree : g.congruent? e (g.canonical e.node) = none) :
    Tidy ((g.canonical e.node).key :: B) T
      (g.restore e (g.canonical e.node) (g.root e.owner)) := by
  refine h.of_table (restore_sameFrame g e _ _) (stored_restore he) ?_
  intro v lit hlit
  rw [get?_restore he]
  split
  · next hkey =>
    refine ⟨_, rfl, (hw.root_root _).trans ?_⟩
    -- a literal with the new key is the stored node itself
    rcases congruent?_eq_none hfree with hsame | hnone
    · rw [hkey, hsame, he] at hlit
      cases hlit
      rfl
    · rw [hkey, hnone] at hlit
      cases hlit
  · next hkey =>
    refine ⟨lit, ?_, rfl⟩
    rw [if_neg fun hk => hkey (hk.trans (canonical_key_of_literal hk).symm)]
    exact hlit

/-! ## Values of computed widths -/

/-- A node without a computed value is in order. -/
theorem folded_of_foldDerived?_eq_none {owner : ClassId}
    (h : g.foldDerived? node = none) : Folded T g node.key owner := by
  intro fn l r a b hkey ha hb
  cases node with
  | literal | sign | symbol | binary => cases hkey
  -- with both arguments known, the node would have a value
  | derived =>
      cases hkey
      rw [foldDerived?, fold, ha, hb] at h
      cases h

theorem Attended.enter_literal (h : g.WellFormed) (ha : Attended B T g)
    {v : Binary64} (henter : enter (.literal v) g = .ok x g') : Attended B T g' := by
  rcases enter_cases henter with ⟨lit, -, -, rfl⟩ | ⟨-, -, rfl⟩
  · exact ha
  · exact ha.issue h (by simp [Node.children])

/-- A literal has no value to be computed. -/
theorem Tidy.enter_literal (h : g.WellFormed) (ht : Tidy B T g) {v : Binary64}
    (henter : enter (.literal v) g = .ok x g') : Tidy B T g' := by
  rcases enter_cases henter with ⟨lit, -, -, rfl⟩ | ⟨hnone, -, rfl⟩
  · exact ht
  · refine (ht.issue h hnone).release fun _ =>
      ⟨?_, folded_of_foldDerived?_eq_none rfl⟩
    exact placed_issue h (by simp [Node.children]) T

/-- The literal has a class of its own for the number it is entered by. -/
theorem enter_literal_stored (h : g.WellFormed) {v : Binary64}
    (henter : enter (.literal v) g = .ok x g') :
    g'.WellFormed ∧ x < g'.issued ∧
      ∃ lit, g'.table.get? (Node.literal v).key = some lit ∧
        g'.root lit.owner = g'.root x := by
  rcases enter_cases henter with ⟨lit, hlit, rfl, rfl⟩ | ⟨hnone, rfl, rfl⟩
  · exact ⟨h, h.root_lt (h.owner_lt hlit), lit, hlit, (h.root_root _).symm⟩
  · refine ⟨h.issue hnone (by simp [Node.children]), ?_,
      ⟨.literal v, g.issued⟩, ?_, rfl⟩
    · exact issued_lt_issue _ _
    · exact get?_issue_new g _

/-- Entering a node issues at most one number, so those issued before stay so. -/
theorem lt_of_enter (henter : enter node g = .ok x g') (hy : y < g.issued) :
    y < g'.issued := by
  rcases enter_cases henter with ⟨-, -, -, rfl⟩ | ⟨-, -, rfl⟩
  · exact hy
  · exact lt_issue hy _

/-- Equating a class with a value enters the literal and unites the two classes, and
neither step overlooks a key. -/
theorem Attended.equate (h : g.WellFormed) (ha : Attended B T g)
    {v : Binary64} {z : ClassId}
    (hy : y < g.issued) (heq : equate v y g = .ok z g') : Attended B T g' := by
  obtain ⟨x, g₁, henter, hunite⟩ := bind_inv heq
  obtain ⟨h₁, hx, -⟩ := enter_literal_stored h henter
  exact (ha.enter_literal h henter).unite h₁ hx (lt_of_enter henter hy) hunite

theorem Tidy.equate (h : g.WellFormed) (ht : Tidy B T g) {v : Binary64} {z : ClassId}
    (hy : y < g.issued) (heq : equate v y g = .ok z g') : Tidy B T g' := by
  obtain ⟨x, g₁, henter, hunite⟩ := bind_inv heq
  obtain ⟨h₁, hx, -⟩ := enter_literal_stored h henter
  exact (ht.enter_literal h henter).unite h₁ hx (lt_of_enter henter hy) hunite

/-- A computed width is in order once it has been united with its value. -/
theorem folded_unite (h : g.WellFormed) {z owner : ClassId} (hx : x < g.issued)
    (hy : y < g.issued) (howner : g.root y = g.root owner)
    (hu : unite x y g = .ok z g')
    (hvalue : ∀ fn l r a b, key = .derived fn l r → g.constant? l = some a →
      g.constant? r = some b →
      ∃ lit, g.table.get? (Node.literal (fn.eval a b)).key = some lit ∧
        g.root lit.owner = g.root x) : Folded T g' key owner := by
  intro fn l r a b hkey ha hb
  obtain ⟨htable, hjoined, -⟩ := unite_joins h hx hy hu
  have hext := h.extends_unite hx hy hu
  -- the literal of the value is in the class of the argument of the union, which is
  -- the owner's by now
  have hfound : g.constant? l = some a → g.constant? r = some b →
      ∃ lit, g'.table.get? (Node.literal (fn.eval a b)).key = some lit ∧
        g'.root lit.owner = g'.root owner := by
    intro ha hb
    obtain ⟨lit, hlit, hlx⟩ := hvalue fn l r a b hkey ha hb
    refine ⟨lit, by rw [htable, hlit], ?_⟩
    rw [hext.root_eq hlx, hjoined, hext.root_eq howner]
  rcases unite_cases h hx hy hu with ⟨-, rfl, -⟩ | ⟨w, s, hj, rfl, -⟩
  · exact Or.inl (hfound ha hb)
  · -- an argument whose class has just been united will be taken care of
    by_cases hl : g.root l = w ∨ g.root l = s
    · exact Or.inr (Or.inl (due_absorb h hj hl T))
    by_cases hr : g.root r = w ∨ g.root r = s
    · exact Or.inr (Or.inr (due_absorb h hj hr T))
    rw [not_or] at hl hr
    rw [hj.constant?_of_ne h hl.1 hl.2] at ha
    rw [hj.constant?_of_ne h hr.1 hr.2] at hb
    exact Or.inl (hfound ha hb)

/-- A listed key with current children is in order once its value has been looked
after. -/
theorem Tidy.settle (h : g.WellFormed) {fn : WidthFn} {l r z : ClassId}
    {a b : Binary64} (ht : Tidy (.derived fn l r :: B) T g)
    (stored : g.table.get? (.derived fn l r) = some e)
    (hp : Placed T g (.derived fn l r)) (left : g.constant? l = some a)
    (right : g.constant? r = some b) (hy : g.root y = g.root e.owner)
    (heq : EGraph.equate (fn.eval a b) y g = .ok z g') : Tidy B T g' := by
  have hylt := lt_of_root_eq h (h.owner_lt stored) hy
  have ht' := ht.equate h hylt heq
  obtain ⟨x, g₁, henter, hunite⟩ := bind_inv heq
  obtain ⟨h₁, hx, lit, hlit, hlx⟩ := enter_literal_stored h henter
  have hchild := h.child_lt stored
  -- the literal may be new; this changes nothing for the computed width
  have hsame : Placed T g₁ (.derived fn l r) ∧
      g₁.table.get? (.derived fn l r) = some e ∧
      g₁.constant? l = some a ∧ g₁.constant? r = some b ∧
      g₁.root y = g₁.root e.owner ∧ y < g₁.issued := by
    rcases enter_cases henter with ⟨-, -, -, rfl⟩ | ⟨-, -, rfl⟩
    · exact ⟨hp, stored, left, right, hy, hylt⟩
    · have hl := h.constant?_issue (.literal (fn.eval a b))
        (hchild l (by simp [Node.children]))
      have hr := h.constant?_issue (.literal (fn.eval a b))
        (hchild r (by simp [Node.children]))
      refine ⟨hp.issue h hchild _, ?_, hl.trans left, hr.trans right, ?_, ?_⟩
      · rw [get?_issue, if_neg (by simp [Node.key])]
        exact stored
      · rw [root_issue h.ranked, root_issue h.ranked, hy]
      · exact lt_issue hylt _
  obtain ⟨hp₁, stored₁, left₁, right₁, hy₁, hylt₁⟩ := hsame
  refine ht'.release fun {e'} he' => ⟨?_, ?_⟩
  · -- the union keeps the key where a repair finds it, be there one to make or not
    rcases unite_cases h₁ hx hylt₁ hunite with ⟨-, rfl, -⟩ | ⟨w, s, hj, rfl, -⟩
    · exact hp₁
    · exact hp₁.absorb h₁ hj
  · -- the literal that was entered is the value that the known arguments have
    rw [(unite_joins h₁ hx hylt₁ hunite).1, stored₁] at he'
    cases he'
    refine folded_unite h₁ hx hylt₁ hy₁ hunite ?_
    intro fn' l' r' a' b' hkey ha' hb'
    cases hkey
    rw [left₁] at ha'
    rw [right₁] at hb'
    cases ha'
    cases hb'
    exact ⟨lit, hlit, hlx⟩

/-- Where a node is to be folded, its class is equated with the value, and otherwise
nothing is done. -/
theorem Attended.refold (h : g.WellFormed) {u : Unit} (ha : Attended B T g)
    (hy : y < g.issued) (hr : EGraph.refold node y g = .ok u g') :
    Attended B T g' := by
  obtain ⟨v, z, -, hz⟩ | ⟨-, rfl⟩ := refold_cases hr
  · exact ha.equate h hy hz
  · exact ha

/-- After this the node is in order: it has been equated with its value or it has
none. -/
theorem Tidy.refold (h : g.WellFormed) {u : Unit} (ht : Tidy (node.key :: B) T g)
    (stored : g.table.get? node.key = some e) (hp : Placed T g node.key)
    (hy : g.root y = g.root e.owner) (hr : EGraph.refold node y g = .ok u g') :
    Tidy B T g' := by
  obtain ⟨v, z, hv, hz⟩ | ⟨hv, rfl⟩ := refold_cases hr
  · obtain ⟨fn, l, r, a, b, rfl, ha, hb, rfl⟩ := foldDerived?_inv hv
    exact ht.settle h stored hp ha hb hy hz
  · exact ht.release fun _ => ⟨hp, folded_of_foldDerived?_eq_none hv⟩

/-! ## Repairs -/

theorem canonical_children_of_stored (h : g.WellFormed)
    (he : g.table.get? e.key = some e) :
    ∀ c ∈ (g.canonical e.node).key.children, c < g.issued ∧ g.root c = c := by
  rw [Node.children_key]
  refine canonical_children h fun c hc => h.child_lt he c ?_
  rwa [Entry.key, Node.children_key]

/-- The care for a key goes over to its canonical form. -/
theorem Attended.rekey (h : g.WellFormed) (ha : Attended (e.key :: B) T g)
    (he : g.table.get? e.key = some e) {u : Unit}
    (hr : EGraph.rekey e (g.canonical e.node) (g.root e.owner) g = .ok u g') :
    Attended ((g.canonical e.node).key :: B) T g' := by
  obtain ⟨e', z, hc, hu⟩ | ⟨-, rfl⟩ := rekey_cases hr
  · -- a congruent node takes the place of this one, so its key is dropped and the
    -- classes are united
    obtain ⟨-, he'⟩ := congruent?_inv hc
    have hunited := (ha.dropKey (g.root e.owner)).unite (h.dropKey he)
      (h.root_lt (h.owner_lt he)) (h.owner_lt he') hu
    exact hunited.mono fun k hk => List.mem_cons_of_mem _ hk
  · exact ha.restore he _ _

/-- The same for values. Neither of the two ways to go on loses a literal. -/
theorem Tidy.rekey (h : g.WellFormed) (ht : Tidy (e.key :: B) T g)
    (he : g.table.get? e.key = some e)
    {u : Unit}
    (hr : EGraph.rekey e (g.canonical e.node) (g.root e.owner) g = .ok u g') :
    Tidy ((g.canonical e.node).key :: B) T g' := by
  obtain ⟨e', z, hc, hu⟩ | ⟨hfree, rfl⟩ := rekey_cases hr
  · obtain ⟨hne, he'⟩ := congruent?_inv hc
    have hunited := (ht.dropKey hne (g.root e.owner)).unite (h.dropKey he)
      (h.root_lt (h.owner_lt he)) (h.owner_lt he') hu
    exact hunited.mono fun k hk => List.mem_cons_of_mem _ hk
  · exact ht.restore h he hfree

/-- The children of the canonical form are roots, unless the class of one has just
been united. -/
theorem root_or_due_of_rekey (h : g.WellFormed)
    (he : g.table.get? e.key = some e) {u : Unit}
    (hr : EGraph.rekey e (g.canonical e.node) (g.root e.owner) g = .ok u g') :
    ∀ c ∈ (g.canonical e.node).key.children, g'.root c = c ∨ Due T g' c := by
  have hcanon := canonical_children_of_stored h he
  intro c hc
  obtain ⟨e', z, hcongr, hu⟩ | ⟨-, rfl⟩ := rekey_cases hr
  · obtain ⟨-, he'⟩ := congruent?_inv hcongr
    have hw := h.dropKey he
    -- dropping the key moves no pointer, so the canonical children are still roots
    -- here
    have hroot : (g.dropKey e.key (g.root e.owner)).root c = c := (hcanon c hc).2
    rcases unite_cases hw (h.root_lt (h.owner_lt he)) (h.owner_lt he') hu with
      ⟨-, rfl, -⟩ | ⟨w, l, hj, rfl, -⟩
    · exact Or.inl hroot
    · -- only the union of the two congruent nodes can take a root away, and it makes
      -- the class of the loser due
      by_cases hl : (g.dropKey e.key (g.root e.owner)).root c = l
      · exact Or.inr (due_absorb hw hj (Or.inr hl) T)
      · rw [hj.root_of_ne hw hl]
        exact Or.inl hroot
  · rw [(restore_sameFrame g e _ _).root]
    exact Or.inl (hcanon c hc).2

/-- Once it is listed, the canonical form is where a repair will find it. -/
theorem placed_of_rekey (h : g.WellFormed)
    (he : g.table.get? e.key = some e) {u : Unit}
    (hr : EGraph.rekey e (g.canonical e.node) (g.root e.owner) g = .ok u g')
    (T : List ClassId) :
    Placed T (g'.enlist (g.canonical e.node).key) (g.canonical e.node).key := by
  obtain ⟨step, -⟩ := rekey_steps h he hr
  have hlisted := enlist_enlists g' (g.canonical e.node).key
  refine ⟨fun c hc => ?_, fun c hc => ?_⟩
  · rw [hlisted.root]
    refine mem_parents_enlist hc ((step.wellFormed h).root_lt_size ?_)
    exact lt_of_rekey h he hr (canonical_children_of_stored h he c hc).1
  · rw [hlisted.root]
    exact (root_or_due_of_rekey h he hr c hc).imp_right (Due.of_enlists hlisted)

/-- Bringing a key up to date takes it off the list of those in nobody's care. -/
theorem Attended.repairParent (h : g.WellFormed)
    (ha : Attended (key :: B) T g) {u : Unit}
    (hr : EGraph.repairParent key g = .ok u g') : Attended B T g' := by
  obtain ⟨hnone, rfl⟩ | ⟨e, g₁, rfl, he, hrekey, hfold⟩ := repairParent_cases hr
  · exact ha.release fun he => absurd (hnone.symm.trans he) (by simp)
  · obtain ⟨step, -⟩ := rekey_steps h he hrekey
    have hlisted := enlist_enlists g₁ (g.canonical e.node).key
    have howner : g.root e.owner < (g₁.enlist (g.canonical e.node).key).issued := by
      rw [hlisted.issued]
      exact lt_of_rekey h he hrekey (h.root_lt (h.owner_lt he))
    -- the key is out of care while it is stored anew, and in care again as soon as
    -- it is listed
    have hfree := ((ha.rekey h he hrekey).of_enlists hlisted).release fun _ =>
      placed_of_rekey h he hrekey T
    exact hfree.refold ((step.wellFormed h).of_enlists hlisted) howner hfold

/-- The invariant of the loop of a repair: one key less is in nobody's care after
each round. -/
theorem Tidy.repairParent (h : g.WellFormed) (ht : Tidy (key :: B) T g) {u : Unit}
    (hr : EGraph.repairParent key g = .ok u g') : Tidy B T g' := by
  obtain ⟨hnone, rfl⟩ | ⟨e, g₁, rfl, he, hrekey, hfold⟩ := repairParent_cases hr
  · exact ht.release fun he => absurd (hnone.symm.trans he) (by simp)
  · obtain ⟨s₁, e₁, he₁, hroot₁⟩ := rekey_steps h he hrekey
    have hlisted := enlist_enlists g₁ (g.canonical e.node).key
    -- rekeying hands the care over to the new key, listing places it, and folding
    -- settles its value
    refine ((ht.rekey h he hrekey).of_enlists hlisted).refold
      ((s₁.wellFormed h).of_enlists hlisted)
      (e := e₁) ?_ (placed_of_rekey h he hrekey T) ?_ hfold
    · rw [hlisted.table]
      exact he₁
    · rw [hlisted.root, hlisted.root]
      exact hroot₁

/-- What is due although a class is under repair is so for another member. -/
theorem Due.clear {p c : ClassId} (hne : g.root c ≠ g.root p)
    (hd : Due (p :: T) g c) : Due T (g.cleared (g.root p)) c := by
  obtain ⟨q, hq, hroot⟩ := hd
  refine ⟨q, ?_, hroot⟩
  rcases hq with hq | hq
  · rcases List.mem_cons.1 hq with rfl | hq
    · exact absurd hroot.symm hne
    · exact Or.inl hq
  · exact Or.inr hq

/-- The children of a key that is not a parent of the class are in other classes. -/
theorem Placed.root_ne {p : ClassId} (hp : Placed T g key)
    (hkey : key ∉ (g.record (g.root p)).parents.toList) {c : ClassId}
    (hc : c ∈ key.children) : g.root c ≠ g.root p := by
  intro hroot
  have hmem := hp.listed c hc
  rw [hroot] at hmem
  exact hkey hmem

/-- A repair starts by taking the parents of a due class into its own care. -/
theorem Attended.clear {p : ClassId} (ha : Attended L (p :: T) g) :
    Attended ((g.record (g.root p)).parents.toList ++ L) T
      (g.cleared (g.root p)) := by
  intro key e he hkey
  rw [List.mem_append, not_or] at hkey
  have hp : Placed (p :: T) g key := ha key e he hkey.2
  refine ⟨fun c hc => ?_, fun c hc => ?_⟩
  · have hrecord := record_modifyRecord g (g.root p)
      (fun c => { c with parents := .empty }) (g.root c)
    rw [if_neg fun h => hp.root_ne hkey.1 hc h.1] at hrecord
    -- the list that is cleared is that of the class under repair, which no child of
    -- the key is in
    refine (iff_of_eq (congrArg (key ∈ EClass.parents ·) hrecord)).2 ?_
    exact hp.listed c hc
  · exact (hp.current c hc).imp_right (Due.clear (hp.root_ne hkey.1 hc))

/-- The parents of the class under repair are exactly the keys whose values may have
been waiting for it. -/
theorem Tidy.clear {p : ClassId} (ht : Tidy [] (p :: T) g) :
    Tidy (g.record (g.root p)).parents.toList T (g.cleared (g.root p)) := by
  have hs : SameContent g (g.cleared (g.root p)) := sameContent_cleared g (g.root p)
  intro key e he hkey
  have hplaced := ht.attended.clear key e he (by rwa [List.append_nil])
  refine ⟨hplaced, fun fn l r a b hk ha hb => ?_⟩
  rw [hs.table] at he
  obtain ⟨hp, hf⟩ := ht key e he List.not_mem_nil
  rw [hs.constant?] at ha hb
  -- an argument that is due is not in the class under repair, so it is due for
  -- another reason
  rcases hf fn l r a b hk ha hb with hlit | hd | hd
  · exact Or.inl hlit
  · exact Or.inr (Or.inl (hd.clear (hp.root_ne hkey (by simp [hk, Node.children]))))
  · exact Or.inr (Or.inr (hd.clear (hp.root_ne hkey (by simp [hk, Node.children]))))

/-- A property of the graph and of the keys that are left of a repair holds with no
key left in the end, if it holds of all parents of the class at the beginning and
bringing a key up to date takes it to the next one. -/
theorem repair_induction {P : List (Node ClassId) → EGraph → Prop} (h : g.WellFormed)
    (hclear : P (g.record id).parents.toList (g.cleared id))
    (hstep : ∀ key rest s t, s.WellFormed → P (key :: rest) s →
      EGraph.repairParent key s = .ok () t → P rest t)
    (hlist : ∀ s t, P [] s → Enlists s t → P [] t) {u : Unit}
    (hr : EGraph.repair id g = .ok u g') : P [] g' := by
  obtain ⟨g₁, hloop, hlast⟩ := repair_inv hr
  have hw : (g.cleared id).WellFormed := (steps_cleared g id).wellFormed h
  -- the loop runs over the list of keys, and what is left of the list is the first
  -- argument of the invariant
  have hdone := forM_induction (fun rest s => s.WellFormed ∧ P rest s) ?_
    ⟨hw, hclear⟩ hloop
  · exact hlist _ _ hdone.2 hlast
  · intro key rest s t hs hrun
    exact ⟨(repairParent_steps hs.1 hrun).wellFormed hs.1,
      hstep key rest s t hs.1 hs.2 hrun⟩

/-- A repair of a class that is to be done takes it off the list. -/
theorem Attended.repair (h : g.WellFormed) {p : ClassId}
    (ha : Attended L (p :: T) g) {u : Unit}
    (hr : EGraph.repair (g.root p) g = .ok u g') : Attended L T g' :=
  repair_induction (P := fun rest s => Attended (rest ++ L) T s) h ha.clear
    (fun _ _ _ _ hs ht hrun => ht.repairParent hs hrun)
    (fun _ _ ht hlast => ht.of_enlists hlast) hr

/-- What a repair takes into its own care it has seen to when it ends, so one class
less is to be done and no key is in nobody's care. -/
theorem Tidy.repair (h : g.WellFormed) {p : ClassId}
    (ht : Tidy [] (p :: T) g) {u : Unit}
    (hr : EGraph.repair (g.root p) g = .ok u g') : Tidy [] T g' :=
  repair_induction (P := fun rest s => Tidy rest T s) h ht.clear
    (fun _ _ _ _ hs ht hrun => ht.repairParent hs hrun)
    (fun _ _ ht hlast => ht.of_enlists hlast) hr

/-- A class that is due when a pass begins is among those that the pass repairs. -/
theorem Due.take_pending {c : ClassId} (hd : Due [] g c) :
    Due g.pending.toList { g with pending := #[] } c := by
  obtain ⟨q, hq, hroot⟩ := hd
  exact ⟨q, Or.inl (by simpa using hq), hroot⟩

/-- At the start of a pass, what is pending becomes what is to be done. -/
theorem Attended.take_pending (ha : Attended L [] g) :
    Attended L g.pending.toList { g with pending := #[] } := fun key e he hkey =>
  have hp := ha key e he hkey
  ⟨hp.listed, fun c hc => (hp.current c hc).imp_right Due.take_pending⟩

theorem Tidy.take_pending (ht : Tidy [] [] g) :
    Tidy [] g.pending.toList { g with pending := #[] } := fun key e he hkey =>
  ⟨ht.attended.take_pending key e he hkey, fun fn l r a b hk ha hb =>
    ((ht key e he hkey).2 fn l r a b hk ha hb).imp_right
      (Or.imp Due.take_pending Due.take_pending)⟩

/-- All passes together: each takes the pending classes as its list and repairs them
one by one, and what becomes pending meanwhile is left to the next pass. -/
theorem Attended.rebuildPasses (h : g.WellFormed) (ha : Attended L [] g)
    {passes : Nat} {u : Unit}
    (hr : EGraph.rebuildPasses passes g = .ok u g') : Attended L [] g' :=
  (rebuildPasses_induction (P := fun rest s => s.WellFormed ∧ Attended L rest s)
    (fun _ hs => ⟨(steps_take_pending _).wellFormed hs.1, hs.2.take_pending⟩)
    (fun _ _ _ _ hs hrun =>
      ⟨(repair_steps hs.1 hrun).wellFormed hs.1, hs.2.repair hs.1 hrun⟩)
    ⟨h, ha⟩ hr).2

/-- A rebuild that returns overlooks nothing, however many passes it took. -/
theorem Tidy.rebuildPasses (h : g.WellFormed) (ht : Tidy [] [] g)
    {passes : Nat} {u : Unit}
    (hr : EGraph.rebuildPasses passes g = .ok u g') : Tidy [] [] g' :=
  (rebuildPasses_induction (P := fun rest s => s.WellFormed ∧ Tidy [] rest s)
    (fun _ hs => ⟨(steps_take_pending _).wellFormed hs.1, hs.2.take_pending⟩)
    (fun _ _ _ _ hs hrun =>
      ⟨(repair_steps hs.1 hrun).wellFormed hs.1, hs.2.repair hs.1 hrun⟩)
    ⟨h, ht⟩ hr).2

/-! ## Calls -/

/-- A new node has roots as children and is listed at once. Its value may be equated
with a literal, which overlooks nothing. -/
theorem Attended.intern (h : g.WellFormed) (ha : Attended L [] g)
    (hc : ∀ c ∈ node.children, c < g.issued ∧ g.root c = c) {a : ClassId}
    (hi : EGraph.intern node g = .ok a g') : Attended L [] g' := by
  have hissue : Attended L [] (g.issue node) := ha.issue h hc
  rcases intern_cases hi with ⟨-, -, -, rfl⟩ | ⟨hnew, ⟨-, -, rfl⟩ | ⟨v, -, heq⟩⟩
  · exact ha
  · exact hissue
  · refine hissue.equate (h.issue hnew fun c hmem => (hc c hmem).1) ?_ heq
    exact issued_lt_issue _ _

/-- Every call keeps the keys in care, whichever of the three it is. -/
theorem Call.attended (h : g.WellFormed) (ha : Attended L [] g) (c : Call g g') :
    Attended L [] g' := by
  cases c with
  | intern children run => exact ha.intern h children run
  | unite left right run => exact ha.unite h left right run
  | rebuild run =>
      unfold EGraph.rebuild at run
      rw [get_bind] at run
      exact ha.rebuildPasses h run

theorem Calls.attended (h : g.WellFormed) (ha : Attended L [] g) (c : Calls g g') :
    Attended L [] g' := by
  induction c with
  | refl => exact ha
  | tail c₁ c₂ ih => exact c₂.attended (Calls.wellFormed h c₁) ih

/-- A computed width whose arguments are known is equated with its value as soon as
it is added, so a new node is in order, too. -/
theorem Tidy.intern (h : g.WellFormed) (ht : Tidy [] [] g)
    (hc : ∀ c ∈ node.children, c < g.issued ∧ g.root c = c) {a : ClassId}
    (hi : EGraph.intern node g = .ok a g') : Tidy [] [] g' := by
  rcases intern_cases hi with ⟨-, -, -, rfl⟩ | ⟨hnew, hissue | ⟨v, hv, heq⟩⟩
  · exact ht
  · -- no value is known, so there is nothing to settle
    obtain ⟨hv, -, rfl⟩ := hissue
    rw [← foldDerived?_issue h (fun c hmem => (hc c hmem).1) node] at hv
    exact (ht.issue h hnew).release fun _ =>
      ⟨placed_issue h hc [], folded_of_foldDerived?_eq_none hv⟩
  · -- the arguments are known, and the value is settled while the new node is in
    -- nobody's care
    have hchild := fun c hmem => (hc c hmem).1
    have hw := h.issue hnew hchild
    rw [← foldDerived?_issue h hchild node] at hv
    obtain ⟨fn, l, r, a, b, rfl, ha, hb, rfl⟩ := foldDerived?_inv hv
    exact (ht.issue h hnew).settle hw (get?_issue_new g _)
      (placed_issue h hc []) ha hb rfl heq

/-- Every call that returns keeps keys and values in care. -/
theorem Call.tidy (h : g.WellFormed) (ht : Tidy [] [] g) (c : Call g g') :
    Tidy [] [] g' := by
  cases c with
  | intern children run => exact ht.intern h children run
  | unite left right run => exact ht.unite h left right run
  | rebuild run =>
      unfold EGraph.rebuild at run
      rw [get_bind] at run
      exact ht.rebuildPasses h run

/-- No call overlooks anything. The empty graph is tidy, so every graph that is
reached without a failure is, and its rebuild finds all there is to repair. -/
theorem Calls.tidy (h : g.WellFormed) (ht : Tidy [] [] g) (c : Calls g g') :
    Tidy [] [] g' := by
  induction c with
  | refl => exact ht
  | tail c₁ c₂ ih => exact c₂.tidy (Calls.wellFormed h c₁) ih

end Datapath.EGraph

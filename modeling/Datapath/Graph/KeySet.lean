import Datapath.Graph.Node

/-!
# Datapath.Graph.KeySet

Sets of keys in order of insertion: a key keeps its place until it is removed, and
goes to the end when it is added again.

A set is read through `KeySet.toList`. Beside its keys stands a `KeyIndex`, in which
the same keys are filed by their code, to answer quickly whether a key is there.
-/

namespace Datapath

/-- The number of a class; a graph issues them in ascending order from zero. -/
abbrev ClassId := Nat

/-! ## Keys filed by their code -/

/-- Keys in buckets, each in the one that its code selects. -/
structure KeyIndex where
  buckets : Array (List (Node ClassId))
  nonempty : 0 < buckets.size

namespace KeyIndex

/-- An index without keys, with `n + 1` buckets. -/
def empty (n : Nat) : KeyIndex := ⟨Array.replicate (n + 1) [], by simp⟩

/-- The number of buckets. -/
def size (t : KeyIndex) : Nat := t.buckets.size

/-- The place of the bucket for a code. -/
def placeOf (t : KeyIndex) (code : Nat) : Nat := code % t.buckets.size

/-- The place of the bucket for a key. -/
def place (t : KeyIndex) (key : Node ClassId) : Nat := t.placeOf key.code

/-- Whether a key is filed under its code, which is given. -/
def containsAt (t : KeyIndex) (code : Nat) (key : Node ClassId) : Bool :=
  key.among (t.buckets.getD (t.placeOf code) [])

/-- Whether a key is filed. -/
def contains (t : KeyIndex) (key : Node ClassId) : Bool := t.containsAt key.code key

/-- Files a key. -/
def insert (t : KeyIndex) (key : Node ClassId) : KeyIndex :=
  ⟨t.buckets.modify (t.place key) (key :: ·), by simpa using t.nonempty⟩

/-- Takes a key out. -/
def erase (t : KeyIndex) (key : Node ClassId) : KeyIndex :=
  ⟨t.buckets.modify (t.place key) (·.filter (!key.same ·)), by
    simpa using t.nonempty⟩

/-- An index with `n + 1` buckets of the keys in an array. -/
def ofKeys (n : Nat) (keys : Array (Node ClassId)) : KeyIndex :=
  keys.foldl insert (empty n)

theorem contains_iff {t : KeyIndex} {key : Node ClassId} :
    t.contains key = true ↔ key ∈ t.buckets.getD (t.place key) [] := by
  simp [contains, containsAt, place]

/-- The bucket of `k` after a change of the bucket of `key`. -/
theorem getD_modify (t : KeyIndex) (key k : Node ClassId)
    (f : List (Node ClassId) → List (Node ClassId)) :
    (t.buckets.modify (t.place key) f).getD (t.place k) [] =
      if t.place k = t.place key then f (t.buckets.getD (t.place k) [])
      else t.buckets.getD (t.place k) [] := by
  have hk : t.place k < t.buckets.size := Nat.mod_lt _ t.nonempty
  simp only [Array.getD_eq_getD_getElem?, Array.getElem?_modify, eq_comm]
  split <;> simp [hk]

theorem contains_empty (n : Nat) (key : Node ClassId) :
    ¬ (empty n).contains key = true := by
  rw [contains_iff, empty, Array.getD_eq_getD_getElem?, Array.getElem?_replicate]
  split <;> simp

theorem contains_insert (t : KeyIndex) (key k : Node ClassId) :
    (t.insert key).contains k = true ↔ t.contains k = true ∨ k = key := by
  have hplace : (t.insert key).place k = t.place k := by
    simp [place, placeOf, insert]
  rw [contains_iff, contains_iff, hplace, insert, getD_modify]
  by_cases h : t.place k = t.place key
  · rw [if_pos h, List.mem_cons, or_comm]
  · have hne : k ≠ key := fun hk => h (hk ▸ rfl)
    simp [h, hne]

theorem contains_erase (t : KeyIndex) (key k : Node ClassId) :
    (t.erase key).contains k = true ↔ t.contains k = true ∧ k ≠ key := by
  have hplace : (t.erase key).place k = t.place k := by simp [place, placeOf, erase]
  rw [contains_iff, contains_iff, hplace, erase, getD_modify]
  by_cases h : t.place k = t.place key
  · rw [if_pos h, List.mem_filter, Bool.not_eq_true', ← Bool.not_eq_true,
      Node.same_iff]
    exact and_congr_right' (not_congr eq_comm)
  · have hne : k ≠ key := fun hk => h (hk ▸ rfl)
    simp [h, hne]

theorem contains_ofKeys (n : Nat) (keys : Array (Node ClassId)) (k : Node ClassId) :
    (ofKeys n keys).contains k = true ↔ k ∈ keys := by
  have h (l : List (Node ClassId)) (t : KeyIndex) :
      (l.foldl insert t).contains k = true ↔ t.contains k = true ∨ k ∈ l := by
    induction l generalizing t with
    | nil => simp
    | cons key rest ih =>
        rw [List.foldl_cons, ih, contains_insert, List.mem_cons, or_assoc]
  rw [ofKeys, ← Array.foldl_toList, h, ← Array.mem_toList_iff]
  simp [contains_empty]

end KeyIndex

/-! ## Sets -/

/-- A set of keys in order of insertion. -/
structure KeySet where
  keys : Array (Node ClassId)
  /-- The same keys, for look-up. -/
  index : KeyIndex
  indexed : ∀ key, index.contains key = true ↔ key ∈ keys

namespace KeySet

/-- The set without keys. -/
def empty : KeySet := ⟨#[], .empty 0, by simp [KeyIndex.contains_empty]⟩

/-- The keys in order of insertion. -/
def toList (s : KeySet) : List (Node ClassId) := s.keys.toList

instance : Membership (Node ClassId) KeySet := ⟨fun s key => key ∈ s.toList⟩

/-- Whether a key is in a set. -/
def contains (s : KeySet) (key : Node ClassId) : Bool := s.index.contains key

/-- Whether a key with the given code is in a set. -/
def containsAt (s : KeySet) (code : Nat) (key : Node ClassId) : Bool :=
  s.index.containsAt code key

@[simp] theorem containsAt_code (s : KeySet) (key : Node ClassId) :
    s.containsAt key.code key = s.contains key :=
  rfl

/-- The number of keys to a bucket beyond which the keys are filed anew. -/
def load : Nat := 4

/-- Adds a key that is not there at the end. When the buckets have become too full,
there are four times as many from then on. -/
def push (s : KeySet) (key : Node ClassId) : KeySet :=
  if s.keys.size < load * s.index.size then
    ⟨s.keys.push key, s.index.insert key, fun k => by
      rw [KeyIndex.contains_insert, s.indexed, Array.mem_push]⟩
  else
    ⟨s.keys.push key, .ofKeys (4 * s.index.size) (s.keys.push key), fun k => by
      rw [KeyIndex.contains_ofKeys]⟩

/-- Adds a key at the end, unless it is there already. -/
def add (s : KeySet) (key : Node ClassId) : KeySet :=
  if s.contains key then s else s.push key

/-- Takes a key out. -/
def remove (s : KeySet) (key : Node ClassId) : KeySet :=
  ⟨s.keys.filter (!key.same ·), s.index.erase key, fun k => by
    rw [KeyIndex.contains_erase, s.indexed, Array.mem_filter, Bool.not_eq_true',
      ← Bool.not_eq_true, Node.same_iff, ne_comm]⟩

/-- Adds the keys of `t` to those of `s`. -/
def union (s t : KeySet) : KeySet := t.keys.foldl add s

/-- The set with one key. -/
def single (key : Node ClassId) : KeySet := empty.add key

theorem mem_iff {s : KeySet} {key : Node ClassId} : key ∈ s ↔ key ∈ s.toList := .rfl

theorem contains_iff {s : KeySet} {key : Node ClassId} :
    s.contains key = true ↔ key ∈ s := by
  rw [contains, s.indexed, mem_iff, toList, Array.mem_toList_iff]

instance (s : KeySet) (key : Node ClassId) : Decidable (key ∈ s) :=
  decidable_of_iff _ contains_iff

@[simp] theorem toList_empty : empty.toList = [] := rfl

@[simp] theorem toList_push (s : KeySet) (key : Node ClassId) :
    (s.push key).toList = s.toList ++ [key] := by
  unfold push
  split <;> simp [toList]

theorem toList_add (s : KeySet) (key : Node ClassId) :
    (s.add key).toList = if key ∈ s then s.toList else s.toList ++ [key] := by
  by_cases h : key ∈ s
  · rw [add, if_pos (contains_iff.2 h), if_pos h]
  · rw [add, if_neg fun hc => h (contains_iff.1 hc), if_neg h, toList_push]

@[simp] theorem toList_remove (s : KeySet) (key : Node ClassId) :
    (s.remove key).toList = s.toList.filter (· ≠ key) := by
  rw [remove, toList, Array.toList_filter, toList]
  refine List.filter_congr fun k _ => ?_
  by_cases h : key = k <;> simp [h, Node.same, withPtrEq, eq_comm]

theorem union_eq_foldl (s t : KeySet) : s.union t = t.toList.foldl add s := by
  rw [union, toList, Array.foldl_toList]

@[simp] theorem toList_single (key : Node ClassId) :
    (single key).toList = [key] := by
  simp [single, toList_add, mem_iff]

@[simp] theorem mem_add {s : KeySet} {k key : Node ClassId} :
    k ∈ s.add key ↔ k ∈ s ∨ k = key := by
  rw [mem_iff, toList_add]
  split
  · next h => exact ⟨.inl, fun hk => hk.elim id (· ▸ h)⟩
  · simp [mem_iff]

@[simp] theorem mem_remove {s : KeySet} {k key : Node ClassId} :
    k ∈ s.remove key ↔ k ∈ s ∧ k ≠ key := by
  simp [mem_iff]

@[simp] theorem mem_union {s t : KeySet} {k : Node ClassId} :
    k ∈ s.union t ↔ k ∈ s ∨ k ∈ t := by
  have h (l : List (Node ClassId)) (s : KeySet) : k ∈ l.foldl add s ↔
      k ∈ s ∨ k ∈ l := by
    induction l generalizing s with
    | nil => simp
    | cons key rest ih => rw [List.foldl_cons, ih, mem_add, List.mem_cons, or_assoc]
  rw [union_eq_foldl]
  exact h t.toList s

end KeySet

end Datapath

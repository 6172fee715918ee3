import Datapath.Graph.KeySet
import Std.Data.TreeMap.Lemmas

/-!
# Datapath.Graph.NodeTable

The stored nodes of an e-graph: at most one entry per key, which is the node itself
and the class that owns it.

A table files its entries by the code of their key in a search tree, so that a
look-up is fast in large graphs and can still be evaluated in proofs. Entries whose
keys have the same code share a bucket, in which the key itself decides.
`NodeTable.get?_insert` and `NodeTable.get?_erase` say that all this is a map from
keys to entries, whatever the codes are.
-/

namespace Datapath

/-- A stored node and the class that owns it. -/
structure Entry where
  node : Node ClassId
  owner : ClassId

/-- The key of an entry. -/
def Entry.key (e : Entry) : Node ClassId := e.node.key

/-- Whether an entry has a given key. -/
def Entry.hasKey (e : Entry) (key : Node ClassId) : Bool := e.key.same key

@[simp] theorem Entry.hasKey_iff {e : Entry} {key : Node ClassId} :
    e.hasKey key = true ↔ e.key = key :=
  Node.same_iff

/-- Entries filed by their key, at most one to a key. -/
structure NodeTable where
  buckets : Std.TreeMap Nat (List Entry)

namespace NodeTable

/-- The table without entries. -/
def empty : NodeTable := ⟨∅⟩

/-- The entries whose key has a given code. -/
def bucket (t : NodeTable) (code : Nat) : List Entry := t.buckets.getD code []

/-- The entry with a given key. -/
def get? (t : NodeTable) (key : Node ClassId) : Option Entry :=
  (t.bucket key.code).find? (·.hasKey key)

/-- Whether there is an entry with a given key, whose code is given too. -/
def containsAt (t : NodeTable) (code : Nat) (key : Node ClassId) : Bool :=
  (t.bucket code).any (·.hasKey key)

@[simp] theorem containsAt_code (t : NodeTable) (key : Node ClassId) :
    t.containsAt key.code key = (t.get? key).isSome := by
  rw [Bool.eq_iff_iff, containsAt, get?, List.find?_isSome, List.any_eq_true]

/-- Takes the entry with a given key out. -/
def erase (t : NodeTable) (key : Node ClassId) : NodeTable :=
  let code := key.code
  ⟨t.buckets.insert code ((t.bucket code).filter (!·.hasKey key))⟩

/-- Puts an entry in, in place of the one with its key. -/
def insert (t : NodeTable) (e : Entry) : NodeTable :=
  let key := e.key
  let code := key.code
  ⟨t.buckets.insert code (e :: (t.bucket code).filter (!·.hasKey key))⟩

@[simp] theorem get?_empty (key : Node ClassId) : empty.get? key = none := by
  simp [get?, bucket, empty]

theorem key_of_get? {t : NodeTable} {key : Node ClassId} {e : Entry}
    (h : t.get? key = some e) : e.key = key := by
  simpa using List.find?_some h

/-- Dropping the entries with one key from a list leaves the first entry with any
other. -/
theorem find?_filter_hasKey (l : List Entry) (key k : Node ClassId) :
    (l.filter (!·.hasKey key)).find? (·.hasKey k) =
      if k = key then none else l.find? (·.hasKey k) := by
  induction l with
  | nil => simp
  | cons e rest ih =>
    cases he : e.hasKey key <;> cases hek : e.hasKey k
    · simp only [List.filter_cons, he, List.find?_cons, hek,
        Bool.not_false, if_true, ih]
    · have hk : k ≠ key := fun h => by simp [← h, hek] at he
      simp only [List.filter_cons, he, List.find?_cons, hek, Bool.not_false,
        if_true, if_neg hk]
    · simp only [List.filter_cons, he, List.find?_cons, hek, Bool.not_true,
        Bool.false_eq_true, if_false, ih]
    · have hk : k = key :=
        (Entry.hasKey_iff.1 hek).symm.trans (Entry.hasKey_iff.1 he)
      simp only [List.filter_cons, he, Bool.not_true, Bool.false_eq_true, if_false,
        ih, if_pos hk]

theorem get?_erase (t : NodeTable) (key k : Node ClassId) :
    (t.erase key).get? k = if k = key then none else t.get? k := by
  simp only [get?, bucket, erase, Std.TreeMap.getD_insert, Nat.compare_eq_eq]
  by_cases hc : key.code = k.code
  · rw [if_pos hc, find?_filter_hasKey, hc]
  · have hk : k ≠ key := fun h => hc (congrArg Node.code h.symm)
    rw [if_neg hc, if_neg hk]

theorem get?_insert (t : NodeTable) (e : Entry) (k : Node ClassId) :
    (t.insert e).get? k = if k = e.key then some e else t.get? k := by
  simp only [get?, bucket, insert, Std.TreeMap.getD_insert, Nat.compare_eq_eq]
  by_cases hc : e.key.code = k.code
  · rw [if_pos hc]
    by_cases hk : k = e.key
    · rw [List.find?_cons, Entry.hasKey_iff.2 hk.symm, if_pos hk]
    · have hek : e.hasKey k = false :=
        Bool.eq_false_iff.2 fun h => hk (Entry.hasKey_iff.1 h).symm
      simp only [List.find?_cons, hek, find?_filter_hasKey, hc, if_neg hk]
  · have hk : k ≠ e.key := fun h => hc (congrArg Node.code h.symm)
    rw [if_neg hc, if_neg hk]

end NodeTable

end Datapath

import Std.Data.TreeSet.Lemmas

/-!
# Datapath.Graph.UnionFind

Disjoint sets of the numbers `0, 1, …`, as a forest of parent pointers with union by
rank.

A root is its own parent. The rank grows along every other pointer, so a climb from
any member visits each member at most once, and as many steps as there are members
always reach the root.
-/

namespace Datapath

/-- A forest of parent pointers with the rank of each member. -/
structure UnionFind where
  parents : Array Nat
  ranks : Array Nat

namespace UnionFind

/-- No members. -/
def empty : UnionFind := ⟨#[], #[]⟩

/-- The number of members. -/
def size (u : UnionFind) : Nat := u.parents.size

/-- The parent of a member; any other number is its own. -/
def parent (u : UnionFind) (i : Nat) : Nat := u.parents.getD i i

/-- The rank of a member. -/
def rank (u : UnionFind) (i : Nat) : Nat := u.ranks.getD i 0

/-- Follows at most `steps` parent pointers from `i`. -/
def climb (u : UnionFind) : (steps i : Nat) → Nat
  | 0, i => i
  | steps + 1, i => if u.parent i = i then i else u.climb steps (u.parent i)

/-- The root of the set that holds `i`. -/
def root (u : UnionFind) (i : Nat) : Nat := u.climb u.size i

/-- Adds the next number as a set of its own. -/
def push (u : UnionFind) : UnionFind :=
  let i := u.size
  ⟨u.parents.push i, u.ranks.push 0⟩

/-- Which of two roots stays a root when their sets are united, and which does not:
the one with the higher rank stays, and of two with equal ranks the first. -/
def order (u : UnionFind) (r s : Nat) : Nat × Nat :=
  if u.rank r < u.rank s then (s, r) else (r, s)

/-- Hangs the root `loser` below the root `winner`, which grows in rank if the two
were equal. -/
def link (u : UnionFind) (winner loser : Nat) : UnionFind :=
  let rank := if u.rank winner = u.rank loser then u.rank winner + 1
    else u.rank winner
  ⟨u.parents.setIfInBounds loser winner, u.ranks.setIfInBounds winner rank⟩

/-- Appends to `found` the numbers of a list that are not among those seen, each
once. -/
def collect : List Nat → (seen : Std.TreeSet Nat) → (found : Array Nat) → Array Nat
  | [], _, found => found
  | i :: rest, seen, found =>
    if seen.contains i then collect rest seen found
    else collect rest (seen.insert i) (found.push i)

/-- The roots, in the order in which a member of their set first appears. -/
def roots (u : UnionFind) : List Nat :=
  (collect ((List.range u.size).map u.root) ∅ #[]).toList

theorem toList_collect (l : List Nat) (seen : Std.TreeSet Nat) (found : Array Nat) :
    (collect l seen found).toList =
      found.toList ++ (l.filter (!seen.contains ·)).eraseDups := by
  induction l generalizing seen found with
  | nil => simp [collect]
  | cons i rest ih =>
    rw [collect]
    split
    · next h => rw [ih, List.filter_cons_of_neg (by simp [h])]
    · next h =>
      have hrest : rest.filter (!(seen.insert i).contains ·) =
          (rest.filter (!seen.contains ·)).filter (fun j => !j == i) := by
        rw [List.filter_filter]
        refine List.filter_congr fun j _ => ?_
        rw [Std.TreeSet.contains_insert, Bool.not_or]
        congr 1
        by_cases hj : j = i
        · rw [hj, beq_self_eq_true, Nat.compare_eq_eq.2 rfl]
          rfl
        · rw [beq_eq_false_iff_ne.2 hj, beq_eq_false_iff_ne.2]
          exact fun h => hj (Nat.compare_eq_eq.1 h).symm
      rw [ih, hrest, List.filter_cons_of_pos (by simp [h]), List.eraseDups_cons,
        Array.toList_push, List.append_assoc, List.singleton_append]

/-- The roots are those of the members, without repetitions. -/
theorem roots_eq_eraseDups (u : UnionFind) :
    u.roots = ((List.range u.size).map u.root).eraseDups := by
  rw [roots, toList_collect, List.filter_eq_self.2 fun i _ => by simp]
  rfl

end UnionFind

end Datapath

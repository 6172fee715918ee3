import Datapath.Graph.UnionFind
import Mathlib.Data.Finset.Card
import Mathlib.Order.Interval.Finset.Nat

/-!
# Datapath.Proofs.Forest

Roots in a forest with union by rank.

`UnionFind.root` climbs as many parent pointers as there are members and returns
where it stands. That this is a root rests on `Ranked`: the rank grows along every
pointer that is not a loop, so each step leaves fewer members of a higher rank
(`higher`), and a climb from `i` comes to rest after at most `higher i` steps. With
enough steps the climb obeys the equation `root_eq`, which mentions no number of
steps, and everything after it is derived from that equation.

* `root_push` — a new member changes no root, since a number that is no member is
  its own root;
* `root_link` — hanging one root below another moves exactly the members of its
  set.
-/

namespace Datapath.UnionFind

variable {u : UnionFind} {i j w l : Nat}

/-- Every pointer stays inside the forest, and the rank grows along every pointer but
a root's. -/
structure Ranked (u : UnionFind) : Prop where
  ranks_size : u.ranks.size = u.parents.size
  parent_lt : ∀ {i}, i < u.size → u.parent i < u.size
  rank_lt : ∀ {i}, u.parent i ≠ i → u.rank i < u.rank (u.parent i)

theorem parent_of_size_le (h : u.size ≤ i) : u.parent i = i := by
  have hnone : u.parents[i]? = none := Array.getElem?_eq_none h
  rw [parent, Array.getD_eq_getD_getElem?, hnone, Option.getD_none]

theorem lt_size_of_parent_ne (h : u.parent i ≠ i) : i < u.size := by
  by_contra hi
  exact h (parent_of_size_le (Nat.le_of_not_lt hi))

/-! ## Climbing -/

/-- The number of members whose rank is higher than that of `i`. -/
def higher (u : UnionFind) (i : Nat) : Nat :=
  ((Finset.range u.size).filter fun j => u.rank i < u.rank j).card

/-- A pointer leads to a member above which there are fewer: at least the member
itself no longer counts. -/
theorem higher_parent_lt (h : u.Ranked) (hi : u.parent i ≠ i) :
    u.higher (u.parent i) < u.higher i := by
  have hrank := h.rank_lt hi
  refine Finset.card_lt_card
    ((Finset.ssubset_iff_of_subset ?_).2 ⟨u.parent i, ?_, ?_⟩)
  · intro j hj
    rw [Finset.mem_filter] at hj ⊢
    exact ⟨hj.1, hrank.trans hj.2⟩
  · rw [Finset.mem_filter, Finset.mem_range]
    exact ⟨h.parent_lt (lt_size_of_parent_ne hi), hrank⟩
  · simp

theorem higher_le_size (u : UnionFind) (i : Nat) : u.higher i ≤ u.size := by
  have hcard := Finset.card_filter_le (Finset.range u.size) fun j =>
    u.rank i < u.rank j
  rwa [Finset.card_range] at hcard

/-- A climb with enough steps ends at a root. The induction is on the steps; each of
them leads to a member above which there is one fewer. -/
theorem parent_climb (h : u.Ranked) {steps : Nat} (hs : u.higher i ≤ steps) :
    u.parent (u.climb steps i) = u.climb steps i := by
  induction steps generalizing i with
  | zero =>
      rw [climb]
      by_contra hi
      have hlt := higher_parent_lt h hi
      omega
  | succ steps ih =>
      rw [climb]
      by_cases hi : u.parent i = i
      · rw [if_pos hi, hi]
      · have hlt := higher_parent_lt h hi
        rw [if_neg hi]
        exact ih (by omega)

/-- More steps than enough change nothing. -/
theorem climb_succ (h : u.Ranked) {steps : Nat} (hs : u.higher i ≤ steps) :
    u.climb (steps + 1) i = u.climb steps i := by
  induction steps generalizing i with
  | zero =>
      have hi : u.parent i = i := by
        by_contra hi
        have hlt := higher_parent_lt h hi
        omega
      simp only [climb, if_pos hi]
  | succ steps ih =>
      by_cases hi : u.parent i = i
      · rw [climb, if_pos hi, climb, if_pos hi]
      · have hlt := higher_parent_lt h hi
        rw [climb, if_neg hi, ih (by omega), climb, if_neg hi]

/-! ## Roots -/

/-- A root is its own parent, as a climb of as many steps as there are members is
long enough. -/
theorem parent_root (h : u.Ranked) (i : Nat) : u.parent (u.root i) = u.root i :=
  parent_climb h (higher_le_size u i)

/-- The equation of roots. -/
theorem root_eq (h : u.Ranked) (i : Nat) :
    u.root i = if u.parent i = i then i else u.root (u.parent i) := by
  have hstep := climb_succ h (higher_le_size u i)
  rw [root, ← hstep, climb]
  rfl

theorem root_of_parent_eq (h : u.Ranked) (hi : u.parent i = i) : u.root i = i := by
  rw [root_eq h, if_pos hi]

theorem root_parent (h : u.Ranked) (i : Nat) : u.root (u.parent i) = u.root i := by
  by_cases hi : u.parent i = i
  · rw [hi]
  · rw [root_eq h i, if_neg hi]

theorem root_root (h : u.Ranked) (i : Nat) : u.root (u.root i) = u.root i :=
  root_of_parent_eq h (parent_root h i)

theorem root_of_size_le (h : u.Ranked) (hi : u.size ≤ i) : u.root i = i :=
  root_of_parent_eq h (parent_of_size_le hi)

theorem parent_of_root_eq (h : u.Ranked) (hi : u.root i = i) : u.parent i = i := by
  rw [← hi]
  exact parent_root h i

/-- What holds of every root, and of a member whenever it holds of its parent, holds
everywhere. -/
theorem root_induction (h : u.Ranked) {motive : Nat → Prop}
    (rooted : ∀ i, u.parent i = i → motive i)
    (below : ∀ i, u.parent i ≠ i → motive (u.parent i) → motive i) (i : Nat) :
    motive i := by
  induction hn : u.higher i using Nat.strongRecOn generalizing i with
  | ind n ih =>
      by_cases hi : u.parent i = i
      · exact rooted i hi
      · exact below i hi (ih _ (hn ▸ higher_parent_lt h hi) _ rfl)

/-- The root of a member is a member. -/
theorem root_lt (h : u.Ranked) (hi : i < u.size) : u.root i < u.size := by
  revert hi
  refine root_induction h (motive := fun i => i < u.size → u.root i < u.size) ?_ ?_ i
  · intro i hroot hi
    rwa [root_of_parent_eq h hroot]
  · intro i _ ih hi
    rw [← root_parent h i]
    exact ih (h.parent_lt hi)

theorem root_lt_iff (h : u.Ranked) : u.root i < u.size ↔ i < u.size := by
  refine ⟨fun hr => ?_, root_lt h⟩
  by_contra hi
  rw [root_of_size_le h (Nat.le_of_not_lt hi)] at hr
  exact hi hr

theorem ranked_empty : empty.Ranked where
  ranks_size := rfl
  parent_lt hi := absurd hi (Nat.not_lt_zero _)
  rank_lt hi := absurd (parent_of_size_le (Nat.zero_le _)) hi

/-! ## A new member -/

@[simp] theorem size_push (u : UnionFind) : u.push.size = u.size + 1 := by
  simp [push, size]

@[simp] theorem parent_push (u : UnionFind) (i : Nat) :
    u.push.parent i = u.parent i := by
  simp only [parent, push, size, Array.getD_eq_getD_getElem?, Array.getElem?_push]
  by_cases hi : i = u.parents.size
  · simp [hi]
  · rw [if_neg hi]

@[simp] theorem rank_push (u : UnionFind) (i : Nat) : u.push.rank i = u.rank i := by
  simp only [rank, push, Array.getD_eq_getD_getElem?, Array.getElem?_push]
  by_cases hi : i = u.ranks.size
  · simp [hi]
  · rw [if_neg hi]

/-- A new member points to itself, so no pointer has to be compared. -/
theorem ranked_push (h : u.Ranked) : u.push.Ranked where
  ranks_size := by simp [push, h.ranks_size]
  parent_lt := by
    intro i hi
    rw [parent_push]
    by_cases hlt : i < u.size
    · have hp := h.parent_lt hlt
      rw [size_push]
      omega
    · rwa [parent_of_size_le (Nat.le_of_not_lt hlt)]
  rank_lt := by
    intro i hi
    rw [parent_push] at hi ⊢
    rw [rank_push, rank_push]
    exact h.rank_lt hi

/-- A new member is its own root, and so was its number before. -/
theorem root_push (h : u.Ranked) (i : Nat) : u.push.root i = u.root i := by
  have hp := ranked_push h
  refine root_induction h (motive := fun i => u.push.root i = u.root i) ?_ ?_ i
  · intro i hi
    rw [root_of_parent_eq h hi, root_of_parent_eq hp (by rw [parent_push, hi])]
  · intro i _ ih
    rw [← root_parent hp, parent_push, ih, root_parent h]

/-! ## Linking two roots -/

@[simp] theorem size_link (u : UnionFind) (w l : Nat) :
    (u.link w l).size = u.size := by
  simp [link, size]

/-- Only the pointer of the root that is given up changes. -/
theorem parent_link (hl : l < u.size) (i : Nat) :
    (u.link w l).parent i = if i = l then w else u.parent i := by
  simp only [parent, link, Array.getD_eq_getD_getElem?, Array.getElem?_setIfInBounds]
  by_cases hi : i = l
  · have hsize : l < u.parents.size := hl
    simp [hi, hsize]
  · rw [if_neg (Ne.symm hi), if_neg hi]

/-- The rank of the root that stays is raised if the two were equal. -/
theorem rank_link (h : u.Ranked) (hw : w < u.size) (i : Nat) :
    (u.link w l).rank i =
      if i = w then (if u.rank w = u.rank l then u.rank w + 1 else u.rank w)
      else u.rank i := by
  simp only [rank, link, Array.getD_eq_getD_getElem?, Array.getElem?_setIfInBounds]
  by_cases hi : i = w
  · have hsize : w < u.ranks.size := by rw [h.ranks_size]; exact hw
    simp [hi, hsize]
  · rw [if_neg (Ne.symm hi), if_neg hi]

/-- Linking two roots keeps the ranks growing if the one that stays is not the lower
one. -/
theorem ranked_link (h : u.Ranked) (hw : w < u.size) (hl : l < u.size) (hne : w ≠ l)
    (hrw : u.parent w = w) (hrank : u.rank l ≤ u.rank w) : (u.link w l).Ranked where
  ranks_size := by simp [link, h.ranks_size]
  parent_lt := by
    intro i hi
    rw [size_link] at hi ⊢
    rw [parent_link hl]
    split
    · exact hw
    · exact h.parent_lt hi
  rank_lt := by
    intro i hi
    rw [parent_link hl] at hi ⊢
    rw [rank_link h hw, rank_link h hw]
    by_cases hil : i = l
    · -- the new pointer: either the rank was lower already or it has just been
      -- raised
      rw [if_pos hil, if_neg (by rw [hil]; exact hne.symm), if_pos rfl, hil]
      split <;> omega
    · rw [if_neg hil] at hi ⊢
      have hiw : i ≠ w := fun hiw => hi (by rw [hiw]; exact hrw)
      have hlt := h.rank_lt hi
      rw [if_neg hiw]
      split
      · next hpw =>
        rw [hpw] at hlt
        split <;> omega
      · exact hlt

/-- The members of the set that loses its root get the other root, and all others
keep theirs. -/
theorem root_link (h : u.Ranked) (hl : l < u.size) (hne : w ≠ l)
    (hrw : u.parent w = w) (hrl : u.parent l = l)
    (hlink : (u.link w l).Ranked) (i : Nat) :
    (u.link w l).root i = if u.root i = l then w else u.root i := by
  refine root_induction h
    (motive := fun i => (u.link w l).root i =
      if u.root i = l then w else u.root i) ?_ ?_ i
  · intro i hi
    rw [root_of_parent_eq h hi, root_eq hlink, parent_link hl]
    by_cases hil : i = l
    · have hroot : (u.link w l).root w = w :=
        root_of_parent_eq hlink (by rw [parent_link hl, if_neg hne, hrw])
      rw [if_pos hil, if_pos hil, if_neg (by rw [hil]; exact hne), hroot]
    · rw [if_neg hil, if_neg hil, if_pos hi]
  · -- a member that is no root is where its parent is, before and after
    intro i hi ih
    have hil : i ≠ l := fun hil => hi (by rw [hil]; exact hrl)
    rw [← root_parent h i, ← ih, ← root_parent hlink i, parent_link hl, if_neg hil]

/-- The two roots in the order in which `order` puts them. -/
theorem order_cases (u : UnionFind) (r s : Nat) :
    (u.order r s = (r, s) ∧ u.rank s ≤ u.rank r) ∨
    (u.order r s = (s, r) ∧ u.rank r ≤ u.rank s) := by
  unfold order
  split
  · next h => exact Or.inr ⟨rfl, Nat.le_of_lt h⟩
  · next h => exact Or.inl ⟨rfl, Nat.le_of_not_lt h⟩

end Datapath.UnionFind

import Datapath.Proofs.Forest

/-!
# Datapath.Proofs.Compression

Path compression.

A forest may be kept flat by redirecting every pointer that leads from a member to
its root. That moves no member to another set: two forests are `Alike` if they have
the same members, ranks and roots, and whatever pointers they have, they stay alike
when both are compressed, get a new member, or have two roots linked.
-/

namespace Datapath.UnionFind

variable {u v t : UnionFind} {i j r w l : Nat}

/-- Redirects the pointer of one member. -/
def point (u : UnionFind) (i r : Nat) : UnionFind :=
  ⟨u.parents.setIfInBounds i r, u.ranks⟩

/-- Redirects to `r` the first pointers on the way up from `i`, at most `steps` of
them. -/
def redirect (u : UnionFind) (r : Nat) : (steps i : Nat) → UnionFind
  | 0, _ => u
  | steps + 1, i => if i = r then u else (u.point i r).redirect r steps (u.parent i)

/-- Redirects every pointer on the way from `i` to its root. -/
def compress (u : UnionFind) (i : Nat) : UnionFind := u.redirect (u.root i) u.size i

/-- The same members with the same ranks and roots. -/
structure Alike (u v : UnionFind) : Prop where
  ranked : u.Ranked
  size : u.size = v.size
  ranks : u.ranks = v.ranks
  root : ∀ i, u.root i = v.root i

namespace Alike

theorem refl (h : u.Ranked) : Alike u u := ⟨h, rfl, rfl, fun _ => rfl⟩

theorem of_common (h : Alike u t) (h' : Alike v t) : Alike u v :=
  ⟨h.ranked, h.size.trans h'.size.symm, h.ranks.trans h'.ranks.symm,
    fun i => (h.root i).trans (h'.root i).symm⟩

theorem trans (h : Alike u v) (h' : Alike v t) : Alike u t :=
  ⟨h.ranked, h.size.trans h'.size, h.ranks.trans h'.ranks, fun i =>
    (h.root i).trans (h'.root i)⟩

theorem rank (h : Alike u v) (i : Nat) : u.rank i = v.rank i := by
  rw [UnionFind.rank, UnionFind.rank, h.ranks]

/-- Forests that are alike choose the same winner of a union. -/
theorem order (h : Alike u v) (r s : Nat) : u.order r s = v.order r s := by
  rw [UnionFind.order, UnionFind.order, h.rank, h.rank]

end Alike

/-! ## Compression -/

/-- On the way up from a member that is no root the rank grows, so it is below that
of the root. -/
theorem rank_lt_root (h : u.Ranked) (hi : u.parent i ≠ i) :
    u.rank i < u.rank (u.root i) := by
  revert hi
  refine root_induction h
    (motive := fun i => u.parent i ≠ i → u.rank i < u.rank (u.root i)) ?_ ?_ i
  · exact fun i hroot hi => absurd hroot hi
  · intro i hi ih _
    have hstep := h.rank_lt hi
    rw [← root_parent h i]
    by_cases hp : u.parent (u.parent i) = u.parent i
    · rwa [root_of_parent_eq h hp]
    · exact hstep.trans (ih hp)

/-- Only the pointer of the one member changes. -/
theorem parent_point (hi : i < u.size) (r j : Nat) :
    (u.point i r).parent j = if j = i then r else u.parent j := by
  simp only [parent, point, Array.getD_eq_getD_getElem?,
    Array.getElem?_setIfInBounds]
  by_cases hj : j = i
  · have hsize : i < u.parents.size := hi
    simp [hj, hsize]
  · rw [if_neg (Ne.symm hj), if_neg hj]

theorem size_point (u : UnionFind) (i r : Nat) : (u.point i r).size = u.size := by
  simp [point, size]

/-- A pointer may lead straight to the root. Ranks still grow along it, and the roots
are found again by induction on the old way up, which ends where the new one does. -/
theorem alike_point (h : u.Ranked) (hi : u.parent i ≠ i) :
    Alike (u.point i (u.root i)) u := by
  have hlt := lt_size_of_parent_ne hi
  have hranked : (u.point i (u.root i)).Ranked := by
    constructor
    case ranks_size => simpa [point] using h.ranks_size
    case parent_lt =>
      intro j hj
      rw [size_point] at hj ⊢
      rw [parent_point hlt]
      split
      · exact root_lt h hlt
      · exact h.parent_lt hj
    case rank_lt =>
      intro j hj
      rw [parent_point hlt] at hj ⊢
      split at hj
      · next hji =>
        rw [if_pos hji, hji]
        exact rank_lt_root h hi
      · next hji =>
        rw [if_neg hji]
        exact h.rank_lt hj
  refine ⟨hranked, size_point u i _, rfl, fun j => ?_⟩
  -- the number is no root, so all roots stay what they are
  have hroot {k : Nat} (hk : u.parent k = k) :
      (u.point i (u.root i)).root k = k := by
    have hki : k ≠ i := fun heq => hi (heq ▸ hk)
    exact root_of_parent_eq hranked (by rw [parent_point hlt, if_neg hki, hk])
  refine root_induction h
    (motive := fun j => (u.point i (u.root i)).root j = u.root j) ?_ ?_ j
  · intro j hj
    rw [hroot hj, root_of_parent_eq h hj]
  · intro j hj ih
    rw [← root_parent hranked j, parent_point hlt]
    split
    · next hji => rw [hroot (parent_root h i), hji]
    · rw [ih, root_parent h]

/-- Redirecting some of the pointers, first to last, is a sequence of such
changes. -/
theorem alike_redirect (h : u.Ranked) (hr : u.root i = r) (steps : Nat) :
    Alike (u.redirect r steps i) u := by
  induction steps generalizing u i with
  | zero => exact .refl h
  | succ steps ih =>
      rw [redirect]
      split
      · exact .refl h
      · next hir =>
        have hi : u.parent i ≠ i :=
          fun heq => hir ((root_of_parent_eq h heq).symm.trans hr)
        have hpoint := alike_point h hi
        rw [hr] at hpoint
        refine (ih hpoint.ranked ?_).trans hpoint
        rw [hpoint.root, root_parent h, hr]

/-- Compression changes nothing but pointers, which lead to the same roots as
before. -/
theorem alike_compress (h : u.Ranked) (i : Nat) : Alike (u.compress i) u :=
  alike_redirect h rfl _

/-- Redirecting pointers of members of higher ranks leaves the pointer of `i` alone:
on the way up ranks only grow, so `i` is not met. -/
theorem parent_redirect_of_rank_lt (h : u.Ranked) (hr : u.root j = r)
    (hij : u.rank i < u.rank j)
    (steps : Nat) : (u.redirect r steps j).parent i = u.parent i := by
  induction steps generalizing u j with
  | zero => rfl
  | succ steps ih =>
      rw [redirect]
      split
      · rfl
      · next hjr =>
        have hj : u.parent j ≠ j :=
          fun heq => hjr ((root_of_parent_eq h heq).symm.trans hr)
        have hpoint := alike_point h hj
        rw [hr] at hpoint
        have hne : i ≠ j := fun heq => Nat.ne_of_lt hij (by rw [heq])
        rw [ih hpoint.ranked, parent_point (lt_size_of_parent_ne hj), if_neg hne]
        · rw [hpoint.root, root_parent h, hr]
        · rw [hpoint.rank, hpoint.rank]
          exact hij.trans (h.rank_lt hj)

/-- After compression, a member points to its root. -/
theorem parent_compress (h : u.Ranked) (i : Nat) :
    (u.compress i).parent i = u.root i := by
  by_cases hi : u.parent i = i
  · have hroot := root_of_parent_eq h hi
    have hkeep : (u.compress i).root i = i := by
      rw [(alike_compress h i).root, hroot]
    rw [parent_of_root_eq (alike_compress h i).ranked hkeep, hroot]
  · -- the first step redirects the pointer of `i`, and the later ones those of
    -- members above it
    have hlt := lt_size_of_parent_ne hi
    have hpoint := alike_point h hi
    obtain ⟨steps, hsteps⟩ :=
      Nat.exists_eq_succ_of_ne_zero (Nat.ne_of_gt (Nat.zero_lt_of_lt hlt))
    have hne : i ≠ u.root i := fun heq => hi (parent_of_root_eq h heq.symm)
    rw [compress, hsteps, redirect, if_neg hne,
      parent_redirect_of_rank_lt hpoint.ranked,
      parent_point hlt, if_pos rfl]
    · rw [hpoint.root, root_parent h]
    · rw [hpoint.rank, hpoint.rank]
      exact h.rank_lt hi

/-! ## Growth -/

namespace Alike

theorem push (h : Alike u v) (hv : v.Ranked) : Alike u.push v.push where
  ranked := ranked_push h.ranked
  size := by rw [size_push, size_push, h.size]
  ranks := by rw [UnionFind.push, UnionFind.push, h.ranks]
  root i := by rw [root_push h.ranked, root_push hv, h.root]

/-- Two roots that are linked in both forests. -/
theorem link (h : Alike u v) (hv : v.Ranked) (hw : w < v.size)
    (hl : l < v.size) (hne : w ≠ l)
    (hrw : v.root w = w) (hrl : v.root l = l) (hrank : v.rank l ≤ v.rank w) :
    Alike (u.link w l) (v.link w l) := by
  have huw : u.parent w = w := parent_of_root_eq h.ranked (by rw [h.root, hrw])
  have hul : u.parent l = l := parent_of_root_eq h.ranked (by rw [h.root, hrl])
  have hvw := parent_of_root_eq hv hrw
  have hvl := parent_of_root_eq hv hrl
  rw [← h.size] at hw hl
  have hu := ranked_link h.ranked hw hl hne huw (by rwa [h.rank, h.rank])
  refine ⟨hu, by rw [size_link, size_link, h.size], ?_, fun i => ?_⟩
  · simp only [UnionFind.link, h.rank, h.ranks]
  · rw [root_link h.ranked hl hne huw hul hu, h.root]
    rw [h.size] at hw hl
    rw [root_link hv hl hne hvw hvl (ranked_link hv hw hl hne hvw hrank)]

end Alike

end Datapath.UnionFind

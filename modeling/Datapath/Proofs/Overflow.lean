import Datapath.Proofs.Rounding

/-!
# Datapath.Proofs.Overflow

The width tests are exact tests of overflow.

A test compares an output width with a width that was computed from two others, and
sums and powers of two may have been rounded on the way, up to infinity. Whatever was
rounded stands for a number that is not below `2 ^ 53`, and so above the output
width, so the test decides the comparison of the whole numbers (`sumFits_iff`,
`productFits_iff`, `shiftFits_iff`).

The comparison in turn is the best possible. If it holds, the results for all
operands fit (`Contains`). If it fails, the result for the greatest operands does not
(`Exceeds`), provided that the operands have enough bits: with an operand of no bits
a sum is no wider than the other operand, and with one of a single bit neither is a
product.

The main result is `fits_exact`.
-/

namespace Datapath

variable {f : ℕ → ℕ → ℕ} {o m n : ℕ} {wo wa wb : Binary64}

/-! ## Widths that are compared -/

namespace Binary64

/-- The value is the whole number `n`, which is below `2 ^ 53`. -/
def IsWhole (x : Binary64) (n : ℕ) : Prop := n < 2 ^ 53 ∧ x.toInt? = some (n : ℤ)

theorem IsWhole.reads {x : Binary64} (h : x.IsWhole n) : Reads x n :=
  reads_of_toInt? h.2 h.1

theorem isWhole_ofNat (h : n < 2 ^ 53) : (ofNat n).IsWhole n :=
  ⟨h, toInt?_ofNat h.le⟩

/-- A number below the bound is compared as it should be with anything that was
computed. -/
theorem ge_iff {x y : Binary64} (hx : x.IsWhole m) (hy : Reads y n) :
    ge x y = true ↔ n ≤ m := by
  constructor
  · intro h
    exact le_of_ge hx.reads hx.1 hy h
  · intro hnm
    obtain ⟨u, hu, hlow, -⟩ := hx.reads
    obtain ⟨v, hv, hvlow, -⟩ := hy
    have hle : v ≤ u := by
      rw [hlow hx.1, hvlow (hnm.trans_lt hx.1)]
      exact Nat.mul_le_mul_right _ hnm
    simp [ge, compares, hu, hv, hle]

end Binary64

open Binary64 (IsWhole)

/-- The test of a sum compares with the wider operand and one bit for the carry. -/
theorem sumFits_iff (ho : wo.IsWhole o) (hm : wa.IsWhole m) (hn : wb.IsWhole n) :
    sumFits wo wa wb = true ↔ max m n + 1 ≤ o :=
  Binary64.ge_iff ho (reads_sumWidth hm.reads hn.reads)

/-- The test of a product compares with the sum of the widths. -/
theorem productFits_iff (ho : wo.IsWhole o) (hm : wa.IsWhole m) (hn : wb.IsWhole n) :
    productFits wo wa wb = true ↔ m + n ≤ o :=
  Binary64.ge_iff ho (hm.reads.add hn.reads)

/-- The test of a shift compares with the width that the greatest shift leads to,
although the power of two may be infinite. -/
theorem shiftFits_iff (ho : wo.IsWhole o) (hm : wa.IsWhole m) (hn : wb.IsWhole n) :
    shiftFits wo wa wb = true ↔ m + (2 ^ n - 1) ≤ o :=
  Binary64.ge_iff ho (reads_shiftWidth hm.reads hn.reads)

/-! ## Results of all operands -/

/-- For all numbers of `m` and `n` bits, the result of `f` is a number of `o`
bits. -/
def Contains (f : ℕ → ℕ → ℕ) (o m n : ℕ) : Prop :=
  ∀ x < 2 ^ m, ∀ y < 2 ^ n, f x y < 2 ^ o

instance (f : ℕ → ℕ → ℕ) (o m n : ℕ) : Decidable (Contains f o m n) :=
  inferInstanceAs (Decidable (∀ x < 2 ^ m, ∀ y < 2 ^ n, f x y < 2 ^ o))

/-- For some numbers of `m` and `n` bits, the result of `f` is not a number of `o`
bits. -/
def Exceeds (f : ℕ → ℕ → ℕ) (o m n : ℕ) : Prop :=
  ∃ x < 2 ^ m, ∃ y < 2 ^ n, 2 ^ o ≤ f x y

/-- A sum is less than twice the power for the wider operand. -/
theorem contains_add (h : max m n + 1 ≤ o) : Contains (· + ·) o m n := by
  intro x hx y hy
  have hmax : 2 ^ m ≤ 2 ^ max m n ∧ 2 ^ n ≤ 2 ^ max m n :=
    ⟨Nat.pow_le_pow_right two_pos (le_max_left m n),
      Nat.pow_le_pow_right two_pos (le_max_right m n)⟩
  calc x + y < 2 ^ max m n + 2 ^ max m n := by omega
    _ = 2 ^ (max m n + 1) := by ring
    _ ≤ 2 ^ o := Nat.pow_le_pow_right two_pos h

/-- The sum of the greatest number of the wider operand and one, which the other
operand can be as it has a bit, is the power of two itself. -/
theorem exceeds_add (hm : 1 ≤ m) (hn : 1 ≤ n) (h : o < max m n + 1) :
    Exceeds (· + ·) o m n := by
  have hm1 : 1 < 2 ^ m := Nat.one_lt_two_pow (by omega)
  have hn1 : 1 < 2 ^ n := Nat.one_lt_two_pow (by omega)
  have hpow : 2 ^ o ≤ 2 ^ max m n := Nat.pow_le_pow_right two_pos (by omega)
  rcases le_total n m with hle | hle
  · rw [max_eq_left hle] at hpow
    exact ⟨2 ^ m - 1, by omega, 1, hn1, by dsimp only; omega⟩
  · rw [max_eq_right hle] at hpow
    exact ⟨1, hm1, 2 ^ n - 1, by omega, by dsimp only; omega⟩

/-- A product of two numbers is below the product of their bounds. -/
theorem contains_mul (h : m + n ≤ o) : Contains (· * ·) o m n := by
  intro x hx y hy
  calc x * y < 2 ^ m * 2 ^ n := Nat.mul_lt_mul'' hx hy
    _ = 2 ^ (m + n) := (pow_add 2 m n).symm
    _ ≤ 2 ^ o := Nat.pow_le_pow_right two_pos h

/-- The product of the greatest numbers. As they have their two highest bits set, it
is at least the half of the product of the bounds. -/
theorem exceeds_mul (hm : 2 ≤ m) (hn : 2 ≤ n) (h : o < m + n) :
    Exceeds (· * ·) o m n := by
  have hgreatest {k : ℕ} (hk : 2 ≤ k) : 3 * 2 ^ (k - 2) ≤ 2 ^ k - 1 := by
    obtain ⟨i, rfl⟩ := Nat.exists_eq_add_of_le hk
    have hpos : 1 ≤ 2 ^ i := Nat.one_le_two_pow
    rw [pow_add, Nat.add_sub_cancel_left]
    omega
  refine ⟨2 ^ m - 1, by simp, 2 ^ n - 1, by simp, ?_⟩
  calc 2 ^ o ≤ 2 ^ (3 + (m - 2) + (n - 2)) := Nat.pow_le_pow_right two_pos (by omega)
    _ = 8 * (2 ^ (m - 2) * 2 ^ (n - 2)) := by ring
    _ ≤ 9 * (2 ^ (m - 2) * 2 ^ (n - 2)) := Nat.mul_le_mul_right _ (by decide)
    _ = 3 * 2 ^ (m - 2) * (3 * 2 ^ (n - 2)) := by ring
    _ ≤ (2 ^ m - 1) * (2 ^ n - 1) := Nat.mul_le_mul (hgreatest hm) (hgreatest hn)

/-- The greatest shift of `n` bits moves a number up by `2 ^ n - 1` places. -/
theorem contains_shift (h : m + (2 ^ n - 1) ≤ o) :
    Contains (fun v s => v * 2 ^ s) o m n := by
  intro v hv s hs
  calc v * 2 ^ s < 2 ^ m * 2 ^ s :=
        Nat.mul_lt_mul_of_pos_right hv (Nat.two_pow_pos s)
    _ = 2 ^ (m + s) := (pow_add 2 m s).symm
    _ ≤ 2 ^ o := Nat.pow_le_pow_right two_pos (by omega)

/-- The top bit, shifted by the greatest amount. -/
theorem exceeds_shift (hm : 1 ≤ m) (h : o < m + (2 ^ n - 1)) :
    Exceeds (fun v s => v * 2 ^ s) o m n := by
  refine ⟨2 ^ (m - 1), Nat.pow_lt_pow_right one_lt_two (by omega),
    2 ^ n - 1, by simp, ?_⟩
  calc 2 ^ o ≤ 2 ^ (m - 1 + (2 ^ n - 1)) := Nat.pow_le_pow_right two_pos (by omega)
    _ = 2 ^ (m - 1) * 2 ^ (2 ^ n - 1) := pow_add 2 _ _

/-! ## The tests -/

/-- The tests compare the widths as whole numbers, although they are computed with
rounding. A test that is true says that the results for all operands fit into the
output width. A test that is false says that the result for some operands does not,
if the operands have enough bits. -/
theorem fits_exact (ho : wo.IsWhole o) (hm : wa.IsWhole m) (hn : wb.IsWhole n) :
    ((sumFits wo wa wb = true ↔ max m n + 1 ≤ o) ∧
      (productFits wo wa wb = true ↔ m + n ≤ o) ∧
      (shiftFits wo wa wb = true ↔ m + (2 ^ n - 1) ≤ o)) ∧
    ((sumFits wo wa wb = true → Contains (· + ·) o m n) ∧
      (productFits wo wa wb = true → Contains (· * ·) o m n) ∧
      (shiftFits wo wa wb = true → Contains (fun v s => v * 2 ^ s) o m n)) ∧
    ((sumFits wo wa wb = false → 1 ≤ m → 1 ≤ n → Exceeds (· + ·) o m n) ∧
      (productFits wo wa wb = false → 2 ≤ m → 2 ≤ n → Exceeds (· * ·) o m n) ∧
      (shiftFits wo wa wb = false → 1 ≤ m →
        Exceeds (fun v s => v * 2 ^ s) o m n)) := by
  have hsum := sumFits_iff ho hm hn
  have hproduct := productFits_iff ho hm hn
  have hshift := shiftFits_iff ho hm hn
  -- a test that is false refutes the comparison of the whole numbers, which is what
  -- the counterexamples of the second half need
  refine ⟨⟨hsum, hproduct, hshift⟩, ⟨?_, ?_, ?_⟩, ?_, ?_, ?_⟩
  · intro h
    exact contains_add (hsum.1 h)
  · intro h
    exact contains_mul (hproduct.1 h)
  · intro h
    exact contains_shift (hshift.1 h)
  · intro h hm1 hn1
    refine exceeds_add hm1 hn1 ?_
    by_contra hle
    simp [hsum.2 (not_lt.1 hle)] at h
  · intro h hm2 hn2
    refine exceeds_mul hm2 hn2 ?_
    by_contra hle
    simp [hproduct.2 (not_lt.1 hle)] at h
  · intro h hm1
    refine exceeds_shift hm1 ?_
    by_contra hle
    simp [hshift.2 (not_lt.1 hle)] at h

-- a product of numbers of one bit is never cut off, although the test for it is
-- false
example : productFits 1 1 1 = false ∧ Contains (· * ·) 1 1 1 := by decide +kernel

/-- The greatest output width holds sums and products whose widths come close to it,
but not shifts whose width is infinite. -/
theorem fits_exact_greatest :
    (sumFits (.ofNat (2 ^ 53 - 1)) (.ofNat (2 ^ 53 - 2001)) (.ofNat 2000) = true ∧
      Contains (· + ·) (2 ^ 53 - 1) (2 ^ 53 - 2001) 2000) ∧
    (productFits (.ofNat (2 ^ 53 - 1)) (.ofNat (2 ^ 53 - 2001)) (.ofNat 2000) =
      true ∧ Contains (· * ·) (2 ^ 53 - 1) (2 ^ 53 - 2001) 2000) ∧
    (shiftFits (.ofNat (2 ^ 53 - 1)) (.ofNat (2 ^ 53 - 2001)) (.ofNat 2000) = false ∧
      Exceeds (fun v s => v * 2 ^ s) (2 ^ 53 - 1) (2 ^ 53 - 2001) 2000) := by
  obtain ⟨-, ⟨hsum, hproduct, -⟩, -, -, hshift⟩ :=
    fits_exact (Binary64.isWhole_ofNat (by decide : 2 ^ 53 - 1 < 2 ^ 53))
      (Binary64.isWhole_ofNat (by decide : 2 ^ 53 - 2001 < 2 ^ 53))
      (Binary64.isWhole_ofNat (by decide : 2000 < 2 ^ 53))
  have hsumFits : sumFits (.ofNat (2 ^ 53 - 1)) (.ofNat (2 ^ 53 - 2001))
      (.ofNat 2000) = true := by
    decide +kernel
  have hproductFits : productFits (.ofNat (2 ^ 53 - 1)) (.ofNat (2 ^ 53 - 2001))
      (.ofNat 2000) = true := by
    decide +kernel
  have hshiftFits : shiftFits (.ofNat (2 ^ 53 - 1)) (.ofNat (2 ^ 53 - 2001))
      (.ofNat 2000) = false := by
    decide +kernel
  exact ⟨⟨hsumFits, hsum hsumFits⟩, ⟨hproductFits, hproduct hproductFits⟩,
    hshiftFits, hshift hshiftFits (by decide)⟩

end Datapath

import Mathlib
import Datapath.Proofs.Content

/-!
# Datapath.Proofs.Rounding

Where binary64 arithmetic on widths is exact.

Whole numbers below `2 ^ 53` are values of the format, and a result that would be one
is not rounded. Beyond this bound results are rounded, but never to below it.
`Reads x n` says that `x` is what a computation gives whose exact result is `n`: the
number itself below the bound, and anything not below the bound otherwise. The width
functions respect this relation, and a comparison with a number below the bound
decides correctly whatever was rounded on the way.
-/

namespace Datapath.Binary64

variable {a b k m n : ℕ} {x y : Binary64}

/-! ## Rounding -/

theorem le_roundDiv (a b : ℕ) : a / b ≤ roundDiv a b := by
  unfold roundDiv
  split
  · exact le_rfl
  · exact Nat.le_succ _

theorem nearest_one (a : ℕ) :
    nearest a 1 = roundDiv a (2 ^ surplus a) * 2 ^ surplus a := by
  simp only [nearest, Nat.div_one, Nat.one_mul, Nat.pow_eq]

/-- Rounding does not cross a power of two downwards. -/
theorem pow_le_nearest (h : 2 ^ k ≤ a) : 2 ^ k ≤ nearest a 1 := by
  have ha : a ≠ 0 := (lt_of_lt_of_le (Nat.two_pow_pos k) h).ne'
  have hk : k ≤ a.log2 := (Nat.le_log2 ha).2 h
  have hsplit : 2 ^ a.log2 = 2 ^ (a.log2 - surplus a) * 2 ^ surplus a := by
    rw [← pow_add]
    congr 1
    unfold surplus
    omega
  -- the significand of `a` has its full length, and rounding does not shorten it
  have hquot : 2 ^ (a.log2 - surplus a) ≤ a / 2 ^ surplus a := by
    rw [Nat.le_div_iff_mul_le (Nat.two_pow_pos _), ← hsplit]
    exact Nat.log2_self_le ha
  calc 2 ^ k ≤ 2 ^ a.log2 := Nat.pow_le_pow_right (by decide) hk
    _ = 2 ^ (a.log2 - surplus a) * 2 ^ surplus a := hsplit
    _ ≤ a / 2 ^ surplus a * 2 ^ surplus a := Nat.mul_le_mul_right _ hquot
    _ ≤ roundDiv a (2 ^ surplus a) * 2 ^ surplus a :=
      Nat.mul_le_mul_right _ (le_roundDiv _ _)
    _ = nearest a 1 := (nearest_one a).symm

theorem nearest_pos (h : a ≠ 0) : 0 < nearest a 1 :=
  lt_of_lt_of_le Nat.one_pos (pow_le_nearest (k := 0) (by omega))

/-- What the format holds is not rounded. -/
theorem nearest_of_fits (h : Fits a) : nearest a 1 = a := by
  have hdvd : 2 ^ surplus a ∣ a := h.2
  have hround : roundDiv a (2 ^ surplus a) = a / 2 ^ surplus a := by
    unfold roundDiv
    rw [Nat.mod_eq_zero_of_dvd hdvd]
    exact if_pos (Or.inl (Nat.two_pow_pos _))
  rw [nearest_one, hround, Nat.div_mul_cancel hdvd]

/-! ## Whole numbers -/

theorem unitsPerOne_eq : unitsPerOne = 2 ^ 1074 := by
  unfold unitsPerOne
  generalize 1074 = k
  rfl

theorem limit_eq : limit = 2 ^ 2098 := by
  unfold limit
  generalize 2098 = k
  rfl

theorem unitsPerOne_pos : 0 < unitsPerOne := by
  rw [unitsPerOne_eq]
  exact pow_pos two_pos _

theorem bound_lt_limit : 2 ^ 53 * unitsPerOne < limit := by
  rw [unitsPerOne_eq, limit_eq, ← pow_add]
  exact pow_lt_pow_right₀ one_lt_two (by decide)

theorem fits_whole (hn : n ≤ 2 ^ 53) : Fits (n * unitsPerOne) := by
  have hlt : n * unitsPerOne < limit :=
    lt_of_le_of_lt (Nat.mul_le_mul_right _ hn) bound_lt_limit
  unfold unitsPerOne at hlt ⊢
  generalize 1074 = k at hlt ⊢
  exact fits_mul_pow hn hlt

theorem round_of_fits (s : Bool) (h : Fits a) : round s a 1 = finite s a h := by
  have hnear := nearest_of_fits h
  unfold round
  rw [dif_pos (by rw [hnear]; exact h.1)]
  congr 1

theorem ofNat_eq (hn : n ≤ 2 ^ 53) :
    ofNat n = finite false (n * unitsPerOne) (fits_whole hn) :=
  round_of_fits false (fits_whole hn)

theorem withoutMinusZero_ofNat (hn : n ≤ 2 ^ 53) :
    (ofNat n).withoutMinusZero = ofNat n := by
  refine withoutMinusZero_of_ne ?_
  rw [ofNat_eq hn]
  simp [zero]

theorem toInt?_ofNat (hn : n ≤ 2 ^ 53) : (ofNat n).toInt? = some (n : ℤ) := by
  rw [ofNat_eq hn, toInt?, if_pos (Nat.mul_mod_left _ _),
    Nat.mul_div_cancel _ unitsPerOne_pos]
  rfl

-- from here on the number of units in one is just a number
attribute [local irreducible] unitsPerOne limit

/-- A value that is a natural number has that many times the units in one, and a sign
only if it is zero. -/
theorem toInt?_eq_some (h : x.toInt? = some (n : ℤ)) :
    ∃ s u hu, x = finite s u hu ∧ u = n * unitsPerOne ∧ (s = true → n = 0) := by
  cases x with
  | nan | infinity => cases h
  | finite s u hu =>
      rw [toInt?] at h
      split at h
      · next hmod =>
        have hdiv : u / unitsPerOne = n ∧ (s = true → n = 0) := by
          have hn : (if s then -((u / unitsPerOne : ℕ) : ℤ)
              else (u / unitsPerOne : ℕ)) = n :=
            Option.some.inj h
          generalize u / unitsPerOne = q at hn ⊢
          cases s with
          | false =>
              rw [if_neg (by decide)] at hn
              exact ⟨by omega, fun hs => absurd hs (by decide)⟩
          | true =>
              rw [if_pos rfl] at hn
              exact ⟨by omega, fun _ => by omega⟩
        refine ⟨s, u, hu, rfl, ?_, hdiv.2⟩
        rw [← hdiv.1, Nat.div_mul_cancel (Nat.dvd_of_mod_eq_zero hmod)]
      · cases h

/-! ## Minus zero -/

/-- Only an exact zero is rounded to minus zero. -/
theorem ofUnits_eq_minusZero {s : Bool} {z : ℤ} (h : ofUnits s z = zero true) :
    z = 0 ∧ s = true := by
  unfold ofUnits at h
  split at h
  · next hz =>
    injection h with hs
    exact ⟨hz, hs⟩
  · next hz =>
    unfold round at h
    split at h
    · injection h with _ hu
      exact absurd hu (nearest_pos (by omega)).ne'
    · cases h

/-- A sum is minus zero only if both summands are. -/
theorem eq_minusZero_of_add (h : x + y = zero true) :
    x = zero true ∧ y = zero true := by
  change add x y = zero true at h
  unfold add at h
  split at h
  · cases h
  · cases h
  · split at h <;> cases h
  · cases h
  · cases h
  · next s a ha t b hb =>
    obtain ⟨hsum, hst⟩ := ofUnits_eq_minusZero h
    rw [Bool.and_eq_true] at hst
    obtain ⟨rfl, rfl⟩ := hst
    have hab : a = 0 ∧ b = 0 := by
      rw [if_pos rfl, if_pos rfl] at hsum
      omega
    obtain ⟨rfl, rfl⟩ := hab
    exact ⟨rfl, rfl⟩

/-- Two values that differ at most in the sign of a zero are equal or zeros. -/
theorem eq_or_zeros (h : x.withoutMinusZero = y.withoutMinusZero) :
    x = y ∨ ∃ s t, x = zero s ∧ y = zero t := by
  unfold withoutMinusZero at h
  split at h
  · next hx =>
    split at h
    · next hy => exact Or.inr ⟨true, true, hx, hy⟩
    · exact Or.inr ⟨true, false, hx, h.symm⟩
  · split at h
    · next hy => exact Or.inr ⟨false, true, h, hy⟩
    · exact Or.inl h

theorem withoutMinusZero_zero (s t : Bool) :
    (zero s).withoutMinusZero = (zero t).withoutMinusZero := by
  cases s <;> cases t <;> decide +kernel

theorem withoutMinusZero_ofUnits (s t : Bool) (z : ℤ) :
    (ofUnits s z).withoutMinusZero = (ofUnits t z).withoutMinusZero := by
  unfold ofUnits
  split
  · exact withoutMinusZero_zero s t
  · rfl

/-- The sign of a zero does not matter to a sum, except for its own sign if it is
zero. -/
theorem add_congr_left (h : x.withoutMinusZero = y.withoutMinusZero) (z : Binary64) :
    (x + z).withoutMinusZero = (y + z).withoutMinusZero := by
  rcases eq_or_zeros h with rfl | ⟨s, t, rfl, rfl⟩
  · rfl
  · cases z with
    | nan => rfl
    | infinity => rfl
    | finite u a ha =>
        have hzero (s : Bool) : (if s then -(0 : ℕ) else (0 : ℕ) : ℤ) = 0 := by
          cases s <;> rfl
        show (ofUnits (s && u) ((if s then -(0 : ℕ) else (0 : ℕ) : ℤ) +
            _)).withoutMinusZero =
          (ofUnits (t && u) ((if t then -(0 : ℕ) else (0 : ℕ) : ℤ) +
            _)).withoutMinusZero
        rw [hzero, hzero]
        exact withoutMinusZero_ofUnits _ _ _

theorem toInt?_zero (s : Bool) : (zero s).toInt? = some 0 := by
  rw [zero, toInt?, if_pos (Nat.zero_mod _)]
  cases s <;> simp

/-- The sign of a zero does not matter as an exponent. -/
theorem exp2_congr (h : x.withoutMinusZero = y.withoutMinusZero) :
    exp2 x = exp2 y := by
  rcases eq_or_zeros h with rfl | ⟨s, t, rfl, rfl⟩
  · rfl
  · have hzero (s : Bool) : exp2 (zero s) = twoPow 0 := by
      have hint := toInt?_zero s
      rw [zero] at hint
      rw [zero, exp2]
      simp only [hint]
    rw [hzero, hzero]

theorem level_congr (h : x.withoutMinusZero = y.withoutMinusZero) :
    x.level = y.level := by
  rcases eq_or_zeros h with rfl | ⟨s, t, rfl, rfl⟩
  · rfl
  · cases s <;> cases t <;> rfl

theorem toInt?_congr (h : x.withoutMinusZero = y.withoutMinusZero) :
    x.toInt? = y.toInt? := by
  rcases eq_or_zeros h with rfl | ⟨s, t, rfl, rfl⟩
  · rfl
  · rw [toInt?_zero, toInt?_zero]

/-- The greater of two values is at the greater of their levels. -/
theorem level_max (x y : Binary64) :
    (x.max y).level = x.level.bind fun a => y.level.map fun b => Max.max a b := by
  unfold max
  cases hx : x.level with
  | none => rfl
  | some a =>
      cases hy : y.level with
      | none => rfl
      | some b =>
          dsimp only [Option.bind_some, Option.map_some]
          split
          · next h => rw [hy, max_eq_right h.le]
          · split
            · next h => rw [hx, max_eq_left h.le]
            · next h h' =>
              have hab : a = b := by omega
              subst hab
              rw [max_self]
              split
              · exact hx
              · exact hy

theorem max_congr {x' y' : Binary64} (hx : x.withoutMinusZero = x'.withoutMinusZero)
    (hy : y.withoutMinusZero = y'.withoutMinusZero) :
    (x.max y).withoutMinusZero = (x'.max y').withoutMinusZero := by
  refine withoutMinusZero_eq_of_level ?_
  rw [level_max, level_max, level_congr hx, level_congr hy]

/-! ## Results that may have been rounded -/

/-- The value is the whole number `n`, or neither is below `2 ^ 53`. -/
def Reads (x : Binary64) (n : ℕ) : Prop :=
  ∃ u : ℕ, x.level = some (u : ℤ) ∧ (n < 2 ^ 53 → u = n * unitsPerOne) ∧
    (2 ^ 53 ≤ n → 2 ^ 53 * unitsPerOne ≤ u)

theorem reads_infinity (hn : 2 ^ 53 ≤ n) : Reads (infinity false) n :=
  ⟨limit, rfl, fun h => absurd h (Nat.not_lt.2 hn), fun _ => bound_lt_limit.le⟩

/-- A number of units with the sign it has is rounded to what it reads as. -/
theorem reads_ofUnits {u : ℕ} (hlow : n < 2 ^ 53 → u = n * unitsPerOne)
    (hhigh : 2 ^ 53 ≤ n → 2 ^ 53 * unitsPerOne ≤ u) (s : Bool) :
    Reads (ofUnits s (u : ℤ)) n := by
  unfold ofUnits
  split
  · next h0 =>
    have hu : u = 0 := by exact_mod_cast h0
    subst hu
    exact ⟨0, by cases s <;> rfl, hlow, hhigh⟩
  · rw [decide_eq_false (by omega), Int.natAbs_natCast]
    unfold round
    split
    · refine ⟨nearest u 1, rfl, fun hn => ?_, fun hn => ?_⟩
      · rw [hlow hn, nearest_of_fits (fits_whole hn.le)]
      · have hu := hhigh hn
        rw [unitsPerOne_eq, ← pow_add] at hu ⊢
        exact pow_le_nearest hu
    · next hbig =>
      refine ⟨limit, rfl, fun hn => ?_, fun _ => bound_lt_limit.le⟩
      rw [hlow hn, nearest_of_fits (fits_whole hn.le)] at hbig
      exact absurd (fits_whole hn.le).1 hbig

/-- A whole number below the bound reads as itself. -/
theorem reads_of_toInt? (h : x.toInt? = some (n : ℤ)) (hn : n < 2 ^ 53) :
    Reads x n := by
  obtain ⟨s, u, hu, rfl, rfl, hs⟩ := toInt?_eq_some h
  refine ⟨n * unitsPerOne, ?_, fun _ => rfl, fun hle => absurd hn (Nat.not_lt.2 hle)⟩
  cases s with
  | false => rfl
  | true =>
      rw [level, hs rfl]
      simp

theorem reads_ofNat (hn : n < 2 ^ 53) : Reads (ofNat n) n :=
  reads_of_toInt? (toInt?_ofNat hn.le) hn

namespace Reads

/-- A value that reads as a number is that many units, or infinite. -/
theorem cases (h : Reads x n) :
    (x = infinity false ∧ 2 ^ 53 ≤ n) ∨
      ∃ s u hu, x = finite s u hu ∧ (if s then -u else u : ℤ) = u ∧
        (n < 2 ^ 53 → u = n * unitsPerOne) ∧
        (2 ^ 53 ≤ n → 2 ^ 53 * unitsPerOne ≤ u) := by
  obtain ⟨u, hlevel, hlow, hhigh⟩ := h
  have hlim : (0 : ℤ) < limit := Int.natCast_pos.2 limit_pos
  cases x with
  | nan => cases hlevel
  | infinity s =>
      have hs := Option.some.inj hlevel
      cases s with
      | true => simp only [if_true] at hs; omega
      | false =>
          refine Or.inl ⟨rfl, Nat.le_of_not_lt fun hn => ?_⟩
          have hu : limit = u := by
            rw [if_neg (by decide)] at hs
            exact_mod_cast hs
          rw [hlow hn] at hu
          exact absurd (fits_whole hn.le).1 (by rw [← hu]; exact lt_irrefl _)
  | finite s v hv =>
      have hs : (if s then -(v : ℤ) else v) = u := Option.some.inj hlevel
      -- the level is not negative, so the units are those of the level
      have huv : u = v := by cases s <;> simp at hs <;> omega
      subst huv
      exact Or.inr ⟨s, u, hv, rfl, hs, hlow, hhigh⟩

/-- A sum reads as the sum. -/
theorem add (hx : Reads x m) (hy : Reads y n) : Reads (x + y) (m + n) := by
  rcases hx.cases with ⟨rfl, hm⟩ | ⟨s, u, hu, rfl, hsu, hul, huh⟩
  · have hsum : infinity false + y = infinity false := by
      rcases hy.cases with ⟨rfl, -⟩ | ⟨t, v, hv, rfl, -⟩ <;> rfl
    rw [hsum]
    exact reads_infinity (by omega)
  · rcases hy.cases with ⟨rfl, hn⟩ | ⟨t, v, hv, rfl, htv, hvl, hvh⟩
    · exact reads_infinity (show 2 ^ 53 ≤ m + n by omega)
    · show Reads
          (ofUnits (s && t) ((if s then -u else u : ℤ) + (if t then -v else v : ℤ)))
          (m + n)
      rw [hsu, htv, ← Nat.cast_add]
      refine reads_ofUnits (fun h => ?_) (fun h => ?_) _
      · rw [hul (by omega), hvl (by omega), Nat.add_mul]
      · -- a sum from the bound on has a summand from there on, or two exact ones
        by_cases hm : m < 2 ^ 53
        · by_cases hn : n < 2 ^ 53
          · rw [hul hm, hvl hn, ← Nat.add_mul]
            exact Nat.mul_le_mul_right _ h
          · exact (hvh (by omega)).trans (Nat.le_add_left _ _)
        · exact (huh (by omega)).trans (Nat.le_add_right _ _)

/-- The greater value reads as the greater number. -/
theorem greater (hx : Reads x m) (hy : Reads y n) :
    Reads (x.max y) (Nat.max m n) := by
  obtain ⟨u, hxu, hul, huh⟩ := hx
  obtain ⟨v, hyv, hvl, hvh⟩ := hy
  have hlevel : (x.max y).level = some ((Nat.max u v : ℕ) : ℤ) := by
    rw [level_max, hxu, hyv]
    exact congrArg some (Nat.cast_max u v).symm
  refine ⟨Nat.max u v, hlevel, fun h => ?_, fun h => ?_⟩
  · have hm : m < 2 ^ 53 := lt_of_le_of_lt (Nat.le_max_left _ _) h
    have hn : n < 2 ^ 53 := lt_of_le_of_lt (Nat.le_max_right _ _) h
    rw [hul hm, hvl hn]
    exact (Nat.mul_max_mul_right m n unitsPerOne)
  · rcases Nat.le_total m n with hmn | hmn
    · rw [show Nat.max m n = n from Nat.max_eq_right hmn] at h
      exact (hvh h).trans (Nat.le_max_right _ _)
    · rw [show Nat.max m n = m from Nat.max_eq_left hmn] at h
      exact (huh h).trans (Nat.le_max_left _ _)

/-- What a value reads as is what it is, if it is a whole number below the bound. -/
theorem eq_of_toInt? (h : Reads x n) (hk : x.toInt? = some (k : ℤ))
    (hlt : k < 2 ^ 53) : n = k := by
  obtain ⟨u, hu, hlow, hhigh⟩ := h
  obtain ⟨v, hv, hvlow, -⟩ := reads_of_toInt? hk hlt
  have huv : u = v := by
    rw [hu] at hv
    exact_mod_cast Option.some.inj hv
  rw [hvlow hlt] at huv
  by_cases hn : n < 2 ^ 53
  · exact Nat.eq_of_mul_eq_mul_right unitsPerOne_pos ((hlow hn).symm.trans huv)
  · have hle := hhigh (Nat.le_of_not_lt hn)
    rw [huv] at hle
    exact absurd (Nat.le_of_mul_le_mul_right hle unitsPerOne_pos) (Nat.not_le.2 hlt)

end Reads

/-! ## Powers of two -/

/-- A power of two within the format's range is exact. -/
theorem fits_pow (hn : n < 1024) : Fits (2 ^ n * unitsPerOne) := by
  have hlt : 1 * Nat.pow 2 (n + 1074) < limit := by
    have hexp : n + 1074 < 2098 := by omega
    unfold limit
    generalize 2098 = k at hexp ⊢
    rw [one_mul]
    exact Nat.pow_lt_pow_right (by decide) hexp
  have heq : 2 ^ n * unitsPerOne = 1 * Nat.pow 2 (n + 1074) := by
    rw [one_mul, unitsPerOne_eq, ← pow_add]
    generalize n + 1074 = k
    rfl
  rw [heq]
  exact fits_mul_pow Nat.one_le_two_pow hlt

theorem one_eq :
    (1 : Binary64) = finite false (1 * unitsPerOne) (fits_whole (by decide)) :=
  ofNat_eq (by decide)

theorem infinity_sub_one : infinity false - 1 = infinity false := by
  rw [one_eq]
  rfl

theorem twoPow_of_le (hn : 1024 ≤ n) : twoPow (n : ℤ) = infinity false :=
  if_pos (by omega)

theorem twoPow_of_lt (hn : n < 1024) :
    twoPow (n : ℤ) = finite false (2 ^ n * unitsPerOne) (fits_pow hn) := by
  rw [twoPow, if_neg (by omega), if_neg (by omega), one_eq, scale, if_pos (by omega)]
  rw [Int.toNat_natCast, one_mul, Nat.pow_eq, mul_comm]
  exact round_of_fits false (fits_pow hn)

/-- A whole number of units is whole, also as a negative zero. -/
theorem toInt?_finite {s : Bool} {u : ℕ} {hu : Fits u}
    (hs : (if s then -u else u : ℤ) = u) (hn : u = n * unitsPerOne) :
    (finite s u hu).toInt? = some (n : ℤ) := by
  subst hn
  rw [toInt?, if_pos (Nat.mul_mod_left _ _), Nat.mul_div_cancel _ unitsPerOne_pos]
  cases s with
  | false => rfl
  | true =>
      rw [if_pos rfl] at hs
      have hzero : n * unitsPerOne = 0 := by omega
      rw [(Nat.mul_eq_zero.1 hzero).resolve_right unitsPerOne_pos.ne']
      rfl

/-- The power of two is infinite from an exponent of 1075 on, whole or not. -/
theorem exp2_of_le {u : ℕ} {hu : Fits u} (hunits : 1075 * unitsPerOne ≤ u) :
    exp2 (finite false u hu) = infinity false := by
  unfold exp2
  cases hint : (finite false u hu).toInt? with
  | none =>
      dsimp only
      rw [if_pos hunits]
      rfl
  | some k =>
      dsimp only
      rw [toInt?] at hint
      split at hint
      · have hk : ((u / unitsPerOne : ℕ) : ℤ) = k := Option.some.inj hint
        rw [← hk]
        have hdiv : 1075 ≤ u / unitsPerOne :=
          (Nat.le_div_iff_mul_le unitsPerOne_pos).2 hunits
        exact twoPow_of_le ((Nat.le_succ_of_le (by decide)).trans hdiv)
      · cases hint

/-- Beyond the bound a power of two is infinite, and otherwise its exponent is
whole. -/
theorem exp2_cases (h : Reads y n) :
    exp2 y = twoPow (n : ℤ) ∨ (2 ^ 53 ≤ n ∧ exp2 y = infinity false) := by
  rcases h.cases with ⟨rfl, hn⟩ | ⟨s, u, hu, rfl, hsu, hlow, hhigh⟩
  · exact Or.inr ⟨hn, rfl⟩
  by_cases hn : n < 2 ^ 53
  · left
    simp only [exp2, toInt?_finite hsu (hlow hn)]
  · have hbig := hhigh (Nat.le_of_not_lt hn)
    have hs : s = false := by
      cases s with
      | false => rfl
      | true =>
          rw [if_pos rfl] at hsu
          have hpos := unitsPerOne_pos
          omega
    subst hs
    exact Or.inr ⟨Nat.le_of_not_lt hn,
      exp2_of_le ((Nat.mul_le_mul_right _ (by decide)).trans hbig)⟩

/-- One less than a power of two reads as such. -/
theorem reads_exp2_sub_one (h : Reads y n) : Reads (exp2 y - 1) (2 ^ n - 1) := by
  have hlarge {k : ℕ} (hk : 54 ≤ k) : 2 ^ 53 ≤ 2 ^ k - 1 := by
    have hpow : 2 ^ 54 ≤ 2 ^ k := Nat.pow_le_pow_right (by decide) hk
    omega
  rcases exp2_cases h with hexp | ⟨hn, hexp⟩
  · rw [hexp]
    by_cases hn : n < 1024
    · rw [twoPow_of_lt hn, one_eq]
      show Reads (ofUnits (false && !false) (((2 ^ n * unitsPerOne : ℕ) : ℤ) +
        -((1 * unitsPerOne : ℕ) : ℤ))) _
      have hsum : ((2 ^ n * unitsPerOne : ℕ) : ℤ) + -((1 * unitsPerOne : ℕ) : ℤ) =
          (((2 ^ n - 1) * unitsPerOne : ℕ) : ℤ) := by
        have hpos : 1 ≤ 2 ^ n := Nat.one_le_two_pow
        push_cast [Nat.cast_sub hpos]
        ring
      rw [hsum]
      exact reads_ofUnits (fun _ => rfl) (fun hle => Nat.mul_le_mul_right _ hle) _
    · -- an infinite power stays infinite, and the exact result is beyond the bound
      rw [twoPow_of_le (Nat.le_of_not_lt hn), infinity_sub_one]
      exact reads_infinity (hlarge (by omega))
  · rw [hexp, infinity_sub_one]
    exact reads_infinity (hlarge (by omega))

end Datapath.Binary64

namespace Datapath

open Binary64 (Reads)

variable {a b c : Binary64} {m n k : ℕ}

/-! ## Widths -/

/-- Widths computed from other numbers than minus zero are never minus zero. -/
theorem WidthFn.eval_ne_minusZero {fn : WidthFn} (ha : a ≠ .zero true) :
    fn.eval a b ≠ .zero true := by
  intro h
  cases fn with
  | sum =>
      have hone := (Binary64.eq_minusZero_of_add h).2
      exact absurd (hone.symm.trans Binary64.one_eq) (by simp [Binary64.zero])
  | shift => exact ha (Binary64.eq_minusZero_of_add h).1

/-- The signs of zeros do not matter to widths. -/
theorem WidthFn.eval_congr {a' b' : Binary64}
    (ha : a.withoutMinusZero = a'.withoutMinusZero)
    (hb : b.withoutMinusZero = b'.withoutMinusZero) (fn : WidthFn) :
    (fn.eval a b).withoutMinusZero = (fn.eval a' b').withoutMinusZero := by
  cases fn with
  | sum => exact Binary64.add_congr_left (Binary64.max_congr ha hb) 1
  | shift =>
      show (a + (Binary64.exp2 b - 1)).withoutMinusZero =
        (a' + (Binary64.exp2 b' - 1)).withoutMinusZero
      rw [Binary64.exp2_congr hb]
      exact Binary64.add_congr_left ha _

/-- The width of a sum reads as one more than the greater width. -/
theorem reads_sumWidth (ha : Reads a m) (hb : Reads b n) :
    Reads (sumWidth a b) (Nat.max m n + 1) :=
  (ha.greater hb).add (Binary64.reads_ofNat (n := 1) (by decide))

/-- The width of a shift reads as the exact one. -/
theorem reads_shiftWidth (ha : Reads a m) (hb : Reads b n) :
    Reads (shiftWidth a b) (m + (2 ^ n - 1)) :=
  ha.add (Binary64.reads_exp2_sub_one hb)

namespace Binary64

/-- Comparing with a number below the bound decides correctly. -/
theorem le_of_ge (ha : Reads a m) (hm : m < 2 ^ 53) (hb : Reads b n)
    (h : ge a b = true) : n ≤ m := by
  obtain ⟨u, hu, hlow, -⟩ := ha
  obtain ⟨v, hv, hvlow, hvhigh⟩ := hb
  have hle : v ≤ u := by
    rw [ge, compares, hu, hv] at h
    exact_mod_cast of_decide_eq_true h
  rw [hlow hm] at hle
  by_cases hn : n < 2 ^ 53
  · rw [hvlow hn] at hle
    exact Nat.le_of_mul_le_mul_right hle unitsPerOne_pos
  · have hbound := (hvhigh (Nat.le_of_not_lt hn)).trans hle
    exact absurd (Nat.le_of_mul_le_mul_right hbound unitsPerOne_pos)
      (Nat.not_le.2 hm)

theorem le_of_le (ha : Reads a m) (hb : Reads b n) (hn : n < 2 ^ 53)
    (h : le a b = true) : m ≤ n := by
  refine le_of_ge hb hn ha ?_
  obtain ⟨u, hu, -⟩ := ha
  obtain ⟨v, hv, -⟩ := hb
  rw [le, compares, hu, hv] at h
  rw [ge, compares, hv, hu]
  exact h

/-- Finding a value greater decides correctly as well. -/
theorem lt_of_gt (ha : Reads a m) (hm : m < 2 ^ 53) (hb : Reads b n)
    (hn : n < 2 ^ 53) (h : gt a b = true) : n < m := by
  obtain ⟨u, hu, hlow, -⟩ := ha
  obtain ⟨v, hv, hvlow, -⟩ := hb
  have hlt : v < u := by
    rw [gt, compares, hu, hv] at h
    exact_mod_cast of_decide_eq_true h
  rw [hlow hm, hvlow hn] at hlt
  exact Nat.lt_of_mul_lt_mul_right hlt

/-- So does finding two values equal. -/
theorem eq_of_numEq (ha : Reads a m) (hm : m < 2 ^ 53) (hb : Reads b n)
    (hn : n < 2 ^ 53) (h : numEq a b = true) : m = n := by
  obtain ⟨u, hu, hlow, -⟩ := ha
  obtain ⟨v, hv, hvlow, -⟩ := hb
  have heq : u = v := by
    rw [numEq, compares, hu, hv] at h
    exact_mod_cast of_decide_eq_true h
  rw [hlow hm, hvlow hn] at heq
  exact Nat.eq_of_mul_eq_mul_right unitsPerOne_pos heq

/-- Numerical equality with a number is equality up to the sign of a zero. -/
theorem numEq_iff (hb : b.level ≠ none) :
    a.numEq b = true ↔ a.withoutMinusZero = b.withoutMinusZero := by
  refine ⟨withoutMinusZero_eq_of_numEq, fun h => ?_⟩
  obtain ⟨u, hu⟩ := Option.ne_none_iff_exists'.1 hb
  rw [numEq, compares, level_congr h, hu]
  exact decide_eq_true rfl

/-! ## Values that widths can have -/

/-- A value that reads as a natural number and is not minus zero. -/
def IsWidth (x : Binary64) : Prop := x ≠ zero true ∧ ∃ n, Reads x n

/-- Every natural number is a width, also one that is rounded. -/
theorem isWidth_ofNat (n : ℕ) : IsWidth (ofNat n) := by
  have hround : ofNat n = ofUnits false ((n * unitsPerOne : ℕ) : ℤ) := by
    unfold ofUnits
    split
    · next h0 =>
      have hn : n * unitsPerOne = 0 := by exact_mod_cast h0
      rw [ofNat, hn]
      exact round_of_fits false fits_zero
    · rw [Int.natAbs_natCast, decide_eq_false (Int.not_lt.2 (Int.natCast_nonneg _))]
      rfl
  refine ⟨fun h => ?_, n, ?_⟩
  · rw [hround] at h
    exact absurd (ofUnits_eq_minusZero h).2 (by decide)
  · rw [hround]
    exact reads_ofUnits (fun _ => rfl) (fun h => Nat.mul_le_mul_right _ h) false

namespace IsWidth

theorem level (h : IsWidth a) : a.level ≠ none := by
  obtain ⟨-, n, u, hu, -⟩ := h
  rw [hu]
  exact Option.some_ne_none _

theorem withoutMinusZero (h : IsWidth a) : a.withoutMinusZero = a :=
  withoutMinusZero_of_ne h.1

theorem eval (ha : IsWidth a) (hb : IsWidth b) (fn : WidthFn) :
    IsWidth (fn.eval a b) := by
  refine ⟨WidthFn.eval_ne_minusZero ha.1, ?_⟩
  obtain ⟨-, m, hm⟩ := ha
  obtain ⟨-, n, hn⟩ := hb
  cases fn with
  | sum => exact ⟨_, reads_sumWidth hm hn⟩
  | shift => exact ⟨_, reads_shiftWidth hm hn⟩

end IsWidth

end Binary64

end Datapath

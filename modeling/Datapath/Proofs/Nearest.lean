import Datapath.Proofs.Decimals

/-!
# Datapath.Proofs.Nearest

Rounding gives the nearest value.

`IsNearest a b u` says what rounding is for, without the steps by which it is
computed: among the numbers with at most 53 significant bits, none is nearer to
`a / b` than `u`, and if another one is equally near, the significand of `u` is even.
`nearest` satisfies this, and what else is needed of it follows from it: it is
monotonic, it does not move beyond a number of the format, and its relative error is
at most `2 ^ -53`.
-/

namespace Datapath.Binary64

variable {a b a' b' u v w k m : ℕ}

/-! ## Significant bits -/

/-- The number has at most 53 significant bits. -/
def Significant (u : ℕ) : Prop := 2 ^ surplus u ∣ u

theorem Fits.significant (h : Fits u) : Significant u := h.2

/-- A number of the format has the last place of any binade that starts below it. -/
theorem significant_of_lt_log {L : ℕ} (hw : Significant w) (h : 2 ^ L ≤ w) :
    2 ^ (L - 52) ∣ w := by
  have hne : w ≠ 0 := (lt_of_lt_of_le (Nat.two_pow_pos L) h).ne'
  have hlog : L ≤ w.log2 := (Nat.le_log2 hne).2 h
  exact (pow_dvd_pow 2 (by unfold surplus; omega)).trans hw

theorem surplus_of_lt (h : m < 2 ^ 53) : surplus m = 0 := by
  rcases Nat.eq_zero_or_pos m with rfl | hpos
  · rfl
  · have hlog := (Nat.log2_lt hpos.ne').2 h
    unfold surplus
    omega

/-- A significand of full length, moved up by `k` places, gives up these. -/
theorem surplus_mul_pow (hlow : 2 ^ 52 ≤ m) (hhigh : m < 2 ^ 53) :
    surplus (m * 2 ^ k) = k := by
  have hne : m * 2 ^ k ≠ 0 := Nat.mul_ne_zero (by omega) (Nat.two_pow_pos k).ne'
  have hlog : (m * 2 ^ k).log2 = 52 + k := by
    rw [Nat.log2_eq_iff hne, Nat.add_right_comm, pow_add, pow_add]
    exact ⟨Nat.mul_le_mul_right _ hlow,
      Nat.mul_lt_mul_of_pos_right hhigh (Nat.two_pow_pos k)⟩
  rw [surplus, hlog]
  omega

/-- A multiple of `2 ^ k` by at most `2 ^ 53` has at most 53 significant bits. -/
theorem significant_mul_pow (hm : m ≤ 2 ^ 53) : Significant (m * 2 ^ k) := by
  unfold Significant
  rcases Nat.lt_or_eq_of_le hm with hlt | rfl
  · by_cases hzero : m * 2 ^ k = 0
    · rw [hzero]
      exact dvd_zero _
    · have hbound : m * 2 ^ k < 2 ^ (53 + k) := by
        rw [pow_add]
        exact Nat.mul_lt_mul_of_pos_right hlt (Nat.two_pow_pos k)
      have hlog := (Nat.log2_lt hzero).2 hbound
      exact (pow_dvd_pow 2 (by unfold surplus; omega)).trans (dvd_mul_left _ _)
  · rw [← pow_add, surplus, Nat.log2_two_pow]
    exact pow_dvd_pow 2 (by omega)

theorem significant_pow (k : ℕ) : Significant (2 ^ k) := by
  simpa using significant_mul_pow (m := 1) (k := k) (by decide)

/-! ## Rounding a quotient -/

/-- A rounded quotient is at most a half away. -/
theorem abs_sub_roundDiv_le (hb : 0 < b) (a : ℕ) :
    2 * |(a : ℤ) - roundDiv a b * b| ≤ b := by
  have hdiv : (b : ℤ) * (a / b : ℕ) + (a % b : ℕ) = a := by
    exact_mod_cast Nat.div_add_mod a b
  have hlt : a % b < b := Nat.mod_lt a hb
  unfold roundDiv
  generalize a / b = q at hdiv ⊢
  generalize a % b = r at hdiv hlt ⊢
  split
  · next h =>
    rw [← hdiv, mul_comm (q : ℤ) b, add_sub_cancel_left,
      abs_of_nonneg (Int.natCast_nonneg r)]
    omega
  · next h =>
    have hsub : (a : ℤ) - ((q + 1 : ℕ) : ℤ) * b = r - b := by
      rw [← hdiv]
      push_cast
      ring
    rw [hsub, abs_of_nonpos (by omega)]
    omega

/-- A half is rounded to the even neighbour. -/
theorem even_roundDiv (hb : 0 < b) (h : 2 * |(a : ℤ) - roundDiv a b * b| = b) :
    Even (roundDiv a b) := by
  have hdiv : (b : ℤ) * (a / b : ℕ) + (a % b : ℕ) = a := by
    exact_mod_cast Nat.div_add_mod a b
  have hlt : a % b < b := Nat.mod_lt a hb
  unfold roundDiv at h ⊢
  generalize a / b = q at hdiv h ⊢
  generalize a % b = r at hdiv hlt h ⊢
  split at h
  · next hif =>
    rw [if_pos hif]
    rw [← hdiv, mul_comm (q : ℤ) b, add_sub_cancel_left,
      abs_of_nonneg (Int.natCast_nonneg r)] at h
    rw [Nat.even_iff]
    omega
  · next hif =>
    rw [if_neg hif]
    have hsub : (a : ℤ) - ((q + 1 : ℕ) : ℤ) * b = r - b := by
      rw [← hdiv]
      push_cast
      ring
    rw [hsub, abs_of_nonpos (by omega)] at h
    rw [Nat.even_add_one, Nat.even_iff]
    omega

/-- Two multiples of `b` are as far apart as the ways to them from `a` allow. -/
theorem abs_sub_mul_le (a m j b : ℕ) :
    |(m : ℤ) - j| * b ≤ |(a : ℤ) - m * b| + |(a : ℤ) - j * b| := by
  have hsplit : ((m : ℤ) - j) * b = -((a : ℤ) - m * b) + ((a : ℤ) - j * b) := by ring
  calc |(m : ℤ) - j| * b = |((m : ℤ) - j) * b| := by rw [abs_mul, Nat.abs_cast]
    _ ≤ |-((a : ℤ) - m * b)| + |(a : ℤ) - j * b| := by
      rw [hsplit]; exact abs_add_le _ _
    _ = |(a : ℤ) - m * b| + |(a : ℤ) - j * b| := by rw [abs_neg]

/-- Other multiples are at least a half away on the other side. -/
theorem le_abs_sub_of_ne_roundDiv (hb : 0 < b) {j : ℕ} (hj : j ≠ roundDiv a b) :
    (b : ℤ) ≤ 2 * |(a : ℤ) - j * b| := by
  have hnear := abs_sub_roundDiv_le hb a
  generalize roundDiv a b = m at hj hnear
  have hstep : (b : ℤ) ≤ |(m : ℤ) - j| * b := by
    have hone : 1 ≤ |(m : ℤ) - j| := Int.one_le_abs (by omega)
    nlinarith
  have htriangle := abs_sub_mul_le a m j b
  omega

/-! ## The nearest number of the format -/

/-- No number with at most 53 significant bits is nearer to `a / b` than `u`, and of
two equally near ones it is the one with the even significand. -/
structure IsNearest (a b u : ℕ) : Prop where
  significant : Significant u
  le : ∀ w, Significant w → |(a : ℤ) - u * b| ≤ |(a : ℤ) - w * b|
  even : ∀ w, Significant w → w ≠ u → |(a : ℤ) - u * b| = |(a : ℤ) - w * b| →
    Even (u / 2 ^ surplus u)

/-- The multiples of the last place that 53 bits of `a / b` have are what `nearest`
chooses from. -/
theorem nearest_eq (a b : ℕ) :
    nearest a b = roundDiv a (b * 2 ^ surplus (a / b)) * 2 ^ surplus (a / b) := rfl

/-- A number of the format that is below all multiples of the last place in the same
binade is farther away than the power of two at the start of the binade. -/
theorem dvd_or_lt (hb : 0 < b) (hw : Significant w) : 2 ^ surplus (a / b) ∣ w ∨
    ∃ j : ℕ, |(a : ℤ) - (j * 2 ^ surplus (a / b) : ℕ) * b| < |(a : ℤ) - w * b| := by
  by_cases hL : 2 ^ (a / b).log2 ≤ w
  · exact Or.inl (significant_of_lt_log hw hL)
  · by_cases hzero : a / b = 0
    · rw [hzero] at hL ⊢
      have hw0 : w = 0 := by simpa using hL
      refine Or.inl ?_
      rw [hw0]
      exact dvd_zero _
    · -- the binade starts between the number and the quotient
      refine Or.inr ⟨2 ^ ((a / b).log2 - surplus (a / b)), ?_⟩
      have hsplit : 2 ^ ((a / b).log2 - surplus (a / b)) * 2 ^ surplus (a / b) =
          2 ^ (a / b).log2 := by
        rw [← pow_add]
        congr 1
        unfold surplus
        omega
      have hle : 2 ^ (a / b).log2 * b ≤ a :=
        (Nat.mul_le_mul_right b (Nat.log2_self_le hzero)).trans
          (Nat.div_mul_le_self a b)
      have hlt : w * b < 2 ^ (a / b).log2 * b :=
        Nat.mul_lt_mul_of_pos_right (by omega) hb
      rw [hsplit]
      have hle' : ((2 ^ (a / b).log2 : ℕ) : ℤ) * b ≤ a := by exact_mod_cast hle
      have hlt' : (w : ℤ) * b < ((2 ^ (a / b).log2 : ℕ) : ℤ) * b := by
        exact_mod_cast hlt
      rw [abs_of_nonneg (by omega), abs_of_nonneg (by omega)]
      omega

theorem scale_step (i s b : ℕ) :
    ((i * 2 ^ s : ℕ) : ℤ) * b = i * ((b * 2 ^ s : ℕ) : ℤ) := by
  push_cast
  ring

/-- No multiple of the last place is nearer to the quotient than the rounded one. -/
theorem abs_sub_nearest_le_mul (hb : 0 < b) (a j : ℕ) :
    |(a : ℤ) - nearest a b * b| ≤ |(a : ℤ) - (j * 2 ^ surplus (a / b) : ℕ) * b| := by
  have hstep : 0 < b * 2 ^ surplus (a / b) := Nat.mul_pos hb (Nat.two_pow_pos _)
  rw [nearest_eq, scale_step, scale_step]
  by_cases hj : j = roundDiv a (b * 2 ^ surplus (a / b))
  · rw [hj]
  · have hnear := abs_sub_roundDiv_le hstep a
    have hfar := le_abs_sub_of_ne_roundDiv hstep hj
    omega

/-- The significand of a rounded number is even if the quotient was rounded to an
even number. -/
theorem even_significand (h : Even (roundDiv a (b * 2 ^ surplus (a / b)))) :
    Even (nearest a b / 2 ^ surplus (nearest a b)) := by
  have hbounds : a / b / 2 ^ surplus (a / b) ≤ roundDiv a (b * 2 ^ surplus (a / b)) ∧
      roundDiv a (b * 2 ^ surplus (a / b)) ≤ a / b / 2 ^ surplus (a / b) + 1 := by
    rw [Nat.div_div_eq_div_mul]
    exact ⟨le_roundDiv _ _, roundDiv_le _ _⟩
  rw [nearest_eq]
  generalize roundDiv a (b * 2 ^ surplus (a / b)) = m at h hbounds ⊢
  generalize a / b = q at hbounds ⊢
  by_cases hq : q < 2 ^ 52
  · -- nothing is given up
    have hs : surplus q = 0 := surplus_of_lt (by omega)
    rw [hs, pow_zero, Nat.div_one] at hbounds
    have hm : surplus m = 0 := surplus_of_lt (by omega)
    rwa [hs, pow_zero, mul_one, hm, pow_zero, Nat.div_one]
  · have hne : q ≠ 0 := by omega
    have hlog : 52 ≤ q.log2 := (Nat.le_log2 hne).2 (by omega)
    have hsur : q.log2 = 52 + surplus q := by
      unfold surplus
      omega
    have hlow : 2 ^ 52 ≤ q / 2 ^ surplus q := by
      rw [Nat.le_div_iff_mul_le (Nat.two_pow_pos _), ← pow_add, ← hsur]
      exact Nat.log2_self_le hne
    have hhigh : q / 2 ^ surplus q < 2 ^ 53 := by
      rw [Nat.div_lt_iff_lt_mul (Nat.two_pow_pos _), ← pow_add,
        show 53 + surplus q = q.log2 + 1 by omega]
      exact Nat.lt_log2_self
    rcases Nat.lt_or_eq_of_le (show m ≤ 2 ^ 53 by omega) with hlt | rfl
    · rwa [surplus_mul_pow (by omega) hlt, Nat.mul_div_cancel _ (Nat.two_pow_pos _)]
    · -- rounding up to the next power of two gives up one more place
      have hsm : surplus (2 ^ 53 * 2 ^ surplus q) = surplus q + 1 := by
        rw [surplus, ← pow_add, Nat.log2_two_pow]
        omega
      rw [hsm, ← pow_add, Nat.pow_div (by omega) (by decide),
        show 53 + surplus q - (surplus q + 1) = 51 + 1 by omega, pow_succ]
      exact even_two.mul_left _

/-- Rounding to the last place that 53 bits have gives the nearest number of the
format. What is not a multiple of that place lies below the binade, and the start of
the binade is nearer. -/
theorem isNearest_nearest (hb : 0 < b) (a : ℕ) : IsNearest a b (nearest a b) where
  significant := by
    rw [nearest_eq]
    refine significant_mul_pow ((roundDiv_le _ _).trans ?_)
    rw [← Nat.div_div_eq_div_mul, Nat.succ_le_iff,
      Nat.div_lt_iff_lt_mul (Nat.two_pow_pos _), ← pow_add]
    refine lt_of_lt_of_le Nat.lt_log2_self (Nat.pow_le_pow_right (by decide) ?_)
    unfold surplus
    omega
  le w hw := by
    rcases dvd_or_lt (a := a) hb hw with ⟨j, rfl⟩ | ⟨j, hj⟩
    · rw [Nat.mul_comm (2 ^ surplus (a / b)) j]
      exact abs_sub_nearest_le_mul hb a j
    · exact (abs_sub_nearest_le_mul hb a j).trans hj.le
  even w hw hne heq := by
    rcases dvd_or_lt (a := a) hb hw with ⟨j, rfl⟩ | ⟨j, hj⟩
    · -- a tie with another multiple of the last place is a half on both sides
      refine even_significand ?_
      have hstep : 0 < b * 2 ^ surplus (a / b) := Nat.mul_pos hb (Nat.two_pow_pos _)
      rw [nearest_eq, Nat.mul_comm _ j] at hne
      have hj : j ≠ roundDiv a (b * 2 ^ surplus (a / b)) :=
        fun hj => hne (by rw [hj])
      rw [Nat.mul_comm _ j, nearest_eq, scale_step, scale_step] at heq
      have hnear := abs_sub_roundDiv_le hstep a
      have hfar := le_abs_sub_of_ne_roundDiv hstep hj
      exact even_roundDiv hstep (by omega)
    · exact absurd (abs_sub_nearest_le_mul hb a j) (by omega)

/-- Rounding does not cross a number of the format upwards. -/
theorem nearest_le (hb : 0 < b) (hw : Significant w) (h : a ≤ w * b) :
    nearest a b ≤ w := by
  by_contra hlt
  have hnear := (isNearest_nearest hb a).le w hw
  have hscaled : w * b < nearest a b * b :=
    Nat.mul_lt_mul_of_pos_right (not_le.1 hlt) hb
  have h' : (a : ℤ) ≤ (w : ℤ) * b := by exact_mod_cast h
  have hscaled' : (w : ℤ) * b < (nearest a b : ℤ) * b := by exact_mod_cast hscaled
  rw [abs_of_nonpos (by omega), abs_of_nonpos (by omega)] at hnear
  omega

/-- Rounding does not cross a number of the format downwards. -/
theorem le_nearest (hb : 0 < b) (hw : Significant w) (h : w * b ≤ a) :
    w ≤ nearest a b := by
  by_contra hlt
  have hnear := (isNearest_nearest hb a).le w hw
  have hscaled : nearest a b * b < w * b :=
    Nat.mul_lt_mul_of_pos_right (not_le.1 hlt) hb
  have h' : (w : ℤ) * b ≤ (a : ℤ) := by exact_mod_cast h
  have hscaled' : (nearest a b : ℤ) * b < (w : ℤ) * b := by exact_mod_cast hscaled
  rw [abs_of_nonneg (by omega), abs_of_nonneg (by omega)] at hnear
  omega

/-! ## Distances -/

/-- Different numbers of the format differ by at least a part in `2 ^ 53`. -/
theorem le_mul_abs_sub (hu : Significant u) (hw : Significant w) (hne : w ≠ u) :
    (u : ℤ) ≤ 2 ^ 53 * |(u : ℤ) - w| := by
  rcases Nat.eq_zero_or_pos u with rfl | hpos
  · simp
  have hlow : 2 ^ u.log2 ≤ u := Nat.log2_self_le hpos.ne'
  have hhigh : u < 2 ^ (u.log2 + 1) := Nat.lt_log2_self
  -- a multiple of a power of two that is not zero is at least that power
  have hgap {k : ℕ} (hk : 2 ^ k ∣ w) (hk' : 2 ^ k ∣ u) :
      ((2 ^ k : ℕ) : ℤ) ≤ |(u : ℤ) - w| := by
    refine Int.le_of_dvd (abs_pos.2 (by omega)) ((dvd_abs _ _).2 ?_)
    exact dvd_sub (Int.natCast_dvd_natCast.2 hk') (Int.natCast_dvd_natCast.2 hk)
  by_cases hwlow : 2 ^ u.log2 ≤ w
  · have hstep :=
      hgap (significant_of_lt_log hw hwlow) (significant_of_lt_log hu hlow)
    have hbound : (u : ℤ) < 2 ^ 53 * ((2 ^ (u.log2 - 52) : ℕ) : ℤ) := by
      have hle : 2 ^ (u.log2 + 1) ≤ 2 ^ 53 * 2 ^ (u.log2 - 52) := by
        rw [← pow_add]
        exact Nat.pow_le_pow_right (by decide) (by omega)
      exact_mod_cast lt_of_lt_of_le hhigh hle
    omega
  · -- below the binade of `u` the last place is at most halved
    rw [abs_of_nonneg (by omega)]
    by_cases hwhalf : 2 * w < 2 ^ u.log2
    · omega
    · obtain ⟨l, hl⟩ : ∃ l, u.log2 = l + 1 := by
        refine ⟨u.log2 - 1,
          (Nat.succ_pred_eq_of_pos (Nat.pos_of_ne_zero fun h0 => ?_)).symm⟩
        rw [h0] at hwlow hwhalf
        omega
      rw [hl] at hlow hwlow hwhalf
      have hwl : 2 ^ l ≤ w := by
        rw [pow_succ] at hwhalf
        omega
      -- the numbers between a power of two and its double are multiples of the last
      -- place there
      have hstep : ((2 ^ (l - 52) : ℕ) : ℤ) ≤ ((2 ^ (l + 1) : ℕ) : ℤ) - w := by
        have hdvd : 2 ^ (l - 52) ∣ 2 ^ (l + 1) - w :=
          Nat.dvd_sub (pow_dvd_pow 2 (by omega)) (significant_of_lt_log hw hwl)
        have hle := Nat.le_of_dvd (by omega) hdvd
        omega
      have hbound : ((2 ^ (l + 1) : ℕ) : ℤ) ≤ 2 ^ 53 * ((2 ^ (l - 52) : ℕ) : ℤ) := by
        have hle : 2 ^ (l + 1) ≤ 2 ^ 53 * 2 ^ (l - 52) := by
          rw [← pow_add]
          exact Nat.pow_le_pow_right (by decide) (by omega)
        exact_mod_cast hle
      omega

/-- A number of the format that is nearer than half a part in `2 ^ 53` is the nearest
one. -/
theorem nearest_eq_of_abs_sub_lt (hb : 0 < b) (hu : Significant u)
    (h : 2 ^ 54 * |(a : ℤ) - u * b| < u * b) : nearest a b = u := by
  by_contra hne
  have hnear := isNearest_nearest hb a
  have hdist := le_mul_abs_sub hu hnear.significant hne
  have hle := hnear.le u hu
  have htriangle := abs_sub_mul_le a u (nearest a b) b
  have hscaled : (u : ℤ) * b ≤ 2 ^ 53 * (|(u : ℤ) - nearest a b| * b) := by
    rw [← mul_assoc]
    exact mul_le_mul_of_nonneg_right hdist (Int.natCast_nonneg b)
  omega

/-! ## Rational numbers -/

-- from here on the number of units in one is just a number
attribute [local irreducible] unitsPerOne limit

variable {q q' : ℚ} {x y : Binary64} {d : Decimal}

theorem significant_limit : Significant limit := by
  rw [limit_eq]
  exact significant_pow _

/-! ## The value of a number -/

/-- The value that stands for a number: of the finite magnitudes, and `2 ^ 1024` in
place of the infinity, none is nearer to it, and if another one is equally near, the
significand is even. -/
def IsNumberFor (q : ℚ) (x : Binary64) : Prop :=
  x.negative = false ∧ ∃ u : ℕ, x.level = some (u : ℤ) ∧ ∀ w,
    Significant w → w ≤ limit →
    |q * unitsPerOne - u| ≤ |q * unitsPerOne - w| ∧
      (w ≠ u → |q * unitsPerOne - u| = |q * unitsPerOne - w| →
        Even (u / 2 ^ surplus u))

/-- The number of the format after one with an even significand has the same last
place. -/
theorem surplus_next (hk : surplus (m * 2 ^ k) = k) (heven : Even m) :
    surplus ((m + 1) * 2 ^ k) = k := by
  -- a longer significand would give up more places
  have hm : m < 2 ^ 53 := by
    by_contra hge
    have hlow : 2 ^ (53 + k) ≤ m * 2 ^ k := by
      rw [pow_add]
      exact Nat.mul_le_mul_right _ (not_lt.1 hge)
    have hlog := (Nat.le_log2 (lt_of_lt_of_le (Nat.two_pow_pos _) hlow).ne').2 hlow
    unfold surplus at hk
    omega
  have hm' : m + 1 < 2 ^ 53 := by
    obtain ⟨j, rfl⟩ := heven
    omega
  rcases Nat.eq_zero_or_pos k with rfl | hpos
  · rw [pow_zero, mul_one]
    exact surplus_of_lt hm'
  · -- only a significand of full length gives up a place
    have hlow : 2 ^ 52 ≤ m := by
      by_contra hlt
      have hupper : m * 2 ^ k < 2 ^ (52 + k) := by
        rw [pow_add]
        exact Nat.mul_lt_mul_of_pos_right (not_le.1 hlt) (Nat.two_pow_pos k)
      have hne : m * 2 ^ k ≠ 0 := fun h0 => by
        rw [h0, show surplus 0 = 0 from rfl] at hk
        exact hpos.ne hk
      have hlog := (Nat.log2_lt hne).2 hupper
      unfold surplus at hk
      omega
    exact surplus_mul_pow (by omega) hm'

/-- Of two equally near numbers of the format next to each other, one has an odd
significand. -/
theorem not_even_of_tie {z : ℚ} (hu : Significant u) (hv : Significant v) (huv : u < v)
    (htie : |z - u| = |z - v|)
    (hle : ∀ w, Significant w → w ≤ v → |z - u| ≤ |z - w|)
    (heven : Even (u / 2 ^ surplus u)) : ¬ Even (v / 2 ^ surplus v) := by
  obtain ⟨k, hk⟩ : ∃ k, k = surplus u := ⟨_, rfl⟩
  have hpos := Nat.two_pow_pos k
  have hdvd : 2 ^ k ∣ u := hk ▸ hu
  obtain ⟨m, rfl⟩ := hdvd
  rw [← hk, Nat.mul_div_cancel_left _ hpos] at heven
  rw [Nat.mul_comm] at hk
  have hnext := surplus_next hk.symm heven
  -- the greater number is a multiple of the last place of the smaller one
  have hdvd' : 2 ^ k ∣ v := by
    rcases Nat.eq_zero_or_pos m with rfl | hm
    · rw [Nat.zero_mul, show surplus 0 = 0 from rfl] at hk
      rw [hk, pow_zero]
      exact one_dvd v
    · have hlow := Nat.log2_self_le (Nat.mul_ne_zero hm.ne' hpos.ne')
      rw [hk]
      exact significant_of_lt_log hv
        (hlow.trans (by rw [Nat.mul_comm]; exact huv.le))
  obtain ⟨j, rfl⟩ := hdvd'
  have hj : m < j := lt_of_mul_lt_mul_left huv (Nat.zero_le _)
  rcases Nat.eq_or_lt_of_le (Nat.succ_le_of_lt hj) with rfl | hlt
  · rw [Nat.mul_comm, hnext, Nat.mul_div_cancel _ hpos, Nat.even_add_one]
    exact not_not.2 heven
  · -- a number between the two would be nearer
    exfalso
    have hbetween : Significant ((m + 1) * 2 ^ k) := by
      unfold Significant
      rw [hnext]
      exact dvd_mul_left _ _
    have hlow : 2 ^ k * m < (m + 1) * 2 ^ k := by
      rw [Nat.mul_comm]
      exact Nat.mul_lt_mul_of_pos_right (Nat.lt_succ_self m) hpos
    have hhigh : (m + 1) * 2 ^ k < 2 ^ k * j := by
      rw [Nat.mul_comm]
      exact Nat.mul_lt_mul_of_pos_left hlt hpos
    have hnear := hle _ hbetween hhigh.le
    generalize (m + 1) * 2 ^ k = w at hlow hhigh hnear
    generalize 2 ^ k * m = u at hlow htie hnear
    generalize 2 ^ k * j = v at hhigh htie
    have hlow' : (u : ℚ) < w := by exact_mod_cast hlow
    have hhigh' : (w : ℚ) < v := by exact_mod_cast hhigh
    cases abs_cases (z - u) <;> cases abs_cases (z - v) <;>
      cases abs_cases (z - w) <;> linarith

/-- The magnitude of a value is a number of the format, or `2 ^ 1024` for the
infinity. -/
theorem significant_of_level (hx : x.negative = false) (h : x.level = some (u : ℤ)) :
    Significant u ∧ u ≤ limit := by
  cases x with
  | nan => cases h
  | infinity s =>
      obtain rfl : s = false := hx
      obtain rfl : limit = u := Int.ofNat.inj (Option.some.inj h)
      exact ⟨significant_limit, le_rfl⟩
  | finite s v hv =>
      obtain rfl : s = false := hx
      obtain rfl : v = u := Int.ofNat.inj (Option.some.inj h)
      exact ⟨hv.significant, hv.1.le⟩

/-- Without a sign, values are told apart by their magnitudes. -/
theorem eq_of_level (hx : x.negative = false) (hy : y.negative = false)
    (h : x.level = y.level) : x = y := by
  have heq := withoutMinusZero_eq_of_level h
  rcases eq_or_zeros heq with rfl | ⟨s, t, rfl, rfl⟩
  · rfl
  · obtain rfl : s = false := hx
    obtain rfl : t = false := hy
    rfl

/-- Only one value stands for a number. Two different ones would be equally near, and
both would have even significands. -/
theorem IsNumberFor.eq (hx : IsNumberFor q x) (hy : IsNumberFor q y) : x = y := by
  obtain ⟨hneg, u, hu, hnear⟩ := hx
  obtain ⟨hneg', v, hv, hnear'⟩ := hy
  obtain ⟨hsig, hlim⟩ := significant_of_level hneg hu
  obtain ⟨hsig', hlim'⟩ := significant_of_level hneg' hv
  have htie := le_antisymm (hnear v hsig' hlim').1 (hnear' u hsig hlim).1
  rcases lt_trichotomy u v with hlt | rfl | hlt
  · exact absurd ((hnear' u hsig hlim).2 hlt.ne htie.symm)
      (not_even_of_tie hsig hsig' hlt htie
        (fun w hw hwv => (hnear w hw (hwv.trans hlim')).1)
        ((hnear v hsig' hlim').2 hlt.ne' htie))
  · exact eq_of_level hneg hneg' (hu.trans hv.symm)
  · exact absurd ((hnear v hsig' hlim').2 hlt.ne htie)
      (not_even_of_tie hsig' hsig hlt htie.symm
        (fun w hw hwu => (hnear' w hw (hwu.trans hlim)).1)
        ((hnear' u hsig hlim).2 hlt.ne' htie.symm))

/-- The rational number that a decimal stands for. -/
def Decimal.value (d : Decimal) : ℚ := d.digits * 10 ^ d.exponent

end Datapath.Binary64

import Datapath.Proofs.Nearest

/-!
# Datapath.Proofs.Powers

Powers of two are never negative.

This is plain for whole exponents, but the power of another exponent is computed from
rounded sums, products and a quotient, and such a computation can have any sign or no
value at all. So its values are bounded. Bounds are whole numbers of *grains*, a
grain being a part in 1024 of one. A sum, product or quotient that is exact has
bounds that follow from those of its operands, and rounding keeps them, since
multiples of the grain are numbers of the format. Followed through the computation,
the bounds keep the divisor away from zero and the result around one.

What widths are computed from such powers is never NaN, minus zero or minus infinity
either.
-/

namespace Datapath.Binary64

variable {a b k m n p u : ℕ} {x y : Binary64} {i j c d c' d' : ℤ}

/-! ## Grains -/

/-- The units in a part in 1024 of one. -/
def grain : ℕ := Nat.pow 2 1064

theorem grain_eq : grain = 2 ^ 1064 := by
  unfold grain
  generalize 1064 = k
  rfl

theorem grain_pos : 0 < grain := by
  rw [grain_eq]
  exact pow_pos two_pos _

theorem unitsPerOne_eq_grain : unitsPerOne = 1024 * grain := by
  rw [unitsPerOne_eq, grain_eq, show 1024 = 2 ^ 10 from rfl, ← pow_add]

theorem pow_le_grain : 2 ^ 32 ≤ grain := by
  rw [grain_eq]
  generalize hk : 1064 = k
  exact Nat.pow_le_pow_right two_pos (by omega)

theorem grain_lt_limit : 2 ^ 53 * grain < limit := by
  rw [grain_eq, limit_eq, ← pow_add]
  exact pow_lt_pow_right₀ one_lt_two (by decide)

theorem significant_grain (hn : n ≤ 2 ^ 53) : Significant (n * grain) := by
  rw [grain_eq]
  exact significant_mul_pow hn

-- from here on these are just numbers
attribute [local irreducible] unitsPerOne limit grain

/-! ## Levels of results -/

/-- The value is finite and at the given level. -/
def IsAt (x : Binary64) (i : ℤ) : Prop := i.natAbs < limit ∧ x.level = some i

theorem isAt_finite (s : Bool) (hu : Fits u) :
    IsAt (finite s u hu) (if s then -u else u : ℤ) := by
  have hlt := hu.1
  refine ⟨?_, rfl⟩
  cases s with
  | false => rw [if_neg (by decide)]; omega
  | true => rw [if_pos rfl]; omega

/-- A value at a level is finite, and has the units and the sign of its level. -/
theorem IsAt.eq_finite (h : IsAt x i) :
    ∃ s u hu, x = finite s u hu ∧ (if s then -u else u : ℤ) = i := by
  obtain ⟨hlt, hlevel⟩ := h
  cases x with
  | nan => cases hlevel
  | infinity s =>
      obtain rfl := Option.some.inj hlevel
      cases s with
      | false => rw [if_neg (by decide)] at hlt; omega
      | true => rw [if_pos rfl] at hlt; omega
  | finite s u hu => exact ⟨s, u, hu, rfl, Option.some.inj hlevel⟩

theorem IsAt.neg (h : IsAt x i) : IsAt (-x) (-i) := by
  obtain ⟨s, u, hu, rfl, rfl⟩ := h.eq_finite
  have hneg : IsAt (-(finite s u hu)) (if !s then -u else u : ℤ) :=
    isAt_finite (!s) hu
  cases s <;> simpa using hneg

theorem IsAt.add (hx : IsAt x i) (hy : IsAt y j) :
    ∃ s, x + y = ofUnits s (i + j) := by
  obtain ⟨s, u, hu, rfl, rfl⟩ := hx.eq_finite
  obtain ⟨t, v, hv, rfl, rfl⟩ := hy.eq_finite
  exact ⟨s && t, rfl⟩

theorem isAt_ofNat (hn : n ≤ 2 ^ 53) : IsAt (ofNat n) (n * unitsPerOne : ℕ) := by
  rw [ofNat_eq hn]
  exact isAt_finite false (fits_whole hn)

/-- A quotient below so many grains is rounded to a finite value below them. -/
theorem round_of_le (s : Bool) (hb : 0 < b) (hn : n ≤ 2 ^ 53)
    (h : a ≤ n * grain * b) :
    ∃ hu, round s a b = finite s (nearest a b) hu ∧ nearest a b ≤ n * grain := by
  have hle := nearest_le hb (significant_grain hn) h
  have hlt : nearest a b < limit :=
    lt_of_le_of_lt (hle.trans (Nat.mul_le_mul_right _ hn)) grain_lt_limit
  exact ⟨fits_nearest hlt, dif_pos hlt, hle⟩

/-- Rounding does not cross multiples of the grain. -/
theorem isAt_ofUnits (s : Bool) (hi : i.natAbs ≤ n * grain) (hn : n ≤ 2 ^ 53) :
    ∃ j, IsAt (ofUnits s i) j ∧ ∀ m : ℤ, m.natAbs ≤ 2 ^ 53 →
      (m * grain ≤ i → m * grain ≤ j) ∧ (i ≤ m * grain → j ≤ m * grain) := by
  unfold ofUnits
  split
  · next h0 =>
    have hzero : IsAt (zero s) (if s then -(0 : ℕ) else (0 : ℕ) : ℤ) :=
      isAt_finite s fits_zero
    refine ⟨0, by cases s <;> simpa using hzero, fun m _ => ?_⟩
    rw [h0]
    exact ⟨id, id⟩
  · have hle : i.natAbs ≤ n * grain * 1 := by rwa [Nat.mul_one]
    obtain ⟨hu, hround, -⟩ := round_of_le (decide (i < 0)) Nat.one_pos hn hle
    rw [hround]
    refine ⟨_, isAt_finite _ hu, fun m hm => ?_⟩
    -- the magnitude does not cross them, whatever the sign
    have habove : m.natAbs * grain ≤ i.natAbs →
        m.natAbs * grain ≤ nearest i.natAbs 1 := fun h =>
      le_nearest Nat.one_pos (significant_grain hm) (by rwa [Nat.mul_one])
    have hbelow : i.natAbs ≤ m.natAbs * grain →
        nearest i.natAbs 1 ≤ m.natAbs * grain := fun h =>
      nearest_le Nat.one_pos (significant_grain hm) (by rwa [Nat.mul_one])
    have hmg : m * grain =
        if 0 ≤ m then ((m.natAbs * grain : ℕ) : ℤ) else -(m.natAbs * grain : ℕ) := by
      push_cast
      split
      · next h => rw [abs_of_nonneg h]
      · next h => rw [abs_of_neg (not_le.1 h), neg_mul, neg_neg]
    simp only [hmg, decide_eq_true_eq]
    generalize m.natAbs * grain = g at habove hbelow ⊢
    split_ifs <;> omega

/-- Rounding moves small values by at most a grain. -/
theorem isAt_ofUnits_near (s : Bool) (hi : i.natAbs ≤ n * grain) (hn : n < 2 ^ 53) :
    ∃ j, IsAt (ofUnits s i) j ∧ (j - i).natAbs ≤ grain := by
  obtain ⟨j, hj, hcross⟩ := isAt_ofUnits s hi hn.le
  refine ⟨j, hj, ?_⟩
  have hpos : (0 : ℤ) < grain := by exact_mod_cast grain_pos
  have hfloor : i / grain * grain ≤ i := Int.ediv_mul_le i hpos.ne'
  have hceil : i < (i / grain + 1) * grain := Int.lt_ediv_add_one_mul_self i hpos
  have hlow : -(n : ℤ) ≤ i / grain := (Int.le_ediv_iff_mul_le hpos).2 (by
    rw [neg_mul]
    omega)
  have hhigh : i / grain < n + 1 := (Int.ediv_lt_iff_lt_mul hpos).2 (by
    rw [add_mul, one_mul]
    omega)
  have hbelow := (hcross (i / grain) (by omega)).1 hfloor
  have habove := (hcross (i / grain + 1) (by omega)).2 hceil.le
  rw [add_mul, one_mul] at habove hceil
  omega

/-- A sum of small values is at most a grain from the exact one. -/
theorem IsAt.near_add (hx : IsAt x i) (hy : IsAt y j) (hi : i.natAbs ≤ m * grain)
    (hj : j.natAbs ≤ n * grain) (h : m + n < 2 ^ 53) :
    ∃ l, IsAt (x + y) l ∧ (l - (i + j)).natAbs ≤ grain := by
  obtain ⟨s, hs⟩ := hx.add hy
  rw [hs]
  refine isAt_ofUnits_near s ?_ h
  rw [Nat.add_mul]
  omega

/-! ## Bounds -/

/-- The value is at least `c` and at most `d` grains. -/
def Between (c d : ℤ) (x : Binary64) : Prop :=
  ∃ i, IsAt x i ∧ c * grain ≤ i ∧ i ≤ d * grain

/-- The value is at most `n` grains from zero. -/
def Small (n : ℕ) (x : Binary64) : Prop := Between (-n) n x

theorem IsAt.small (h : IsAt x i) (hi : i.natAbs ≤ n * grain) : Small n x := by
  refine ⟨i, h, ?_, ?_⟩
  · rw [neg_mul]
    omega
  · omega

theorem Small.level (h : Small n x) : ∃ i, IsAt x i ∧ i.natAbs ≤ n * grain := by
  obtain ⟨i, hat, hlow, hhigh⟩ := h
  refine ⟨i, hat, ?_⟩
  rw [neg_mul] at hlow
  omega

/-- A small value is a small number of units with a sign. -/
theorem Small.eq_finite (h : Small n x) :
    ∃ s u hu, x = finite s u hu ∧ u ≤ n * grain := by
  obtain ⟨i, hat, hi⟩ := h.level
  obtain ⟨s, u, hu, rfl, rfl⟩ := hat.eq_finite
  refine ⟨s, u, hu, rfl, ?_⟩
  cases s with
  | false => rwa [if_neg (by decide), Int.natAbs_natCast] at hi
  | true => rwa [if_pos rfl, Int.natAbs_neg, Int.natAbs_natCast] at hi

/-- Rounding does not make a bounded number of units larger than its bound. -/
theorem small_ofUnits (s : Bool) (hi : i.natAbs ≤ n * grain) (hn : n ≤ 2 ^ 53) :
    Small n (ofUnits s i) := by
  obtain ⟨j, hj, hcross⟩ := isAt_ofUnits s hi hn
  refine ⟨j, hj, (hcross (-n) (by omega)).1 ?_, (hcross n (by omega)).2 (by omega)⟩
  rw [neg_mul]
  omega

theorem IsAt.small_sub (hx : IsAt x i) (hy : IsAt y j)
    (h : (i - j).natAbs ≤ n * grain) (hn : n ≤ 2 ^ 53) : Small n (x - y) := by
  obtain ⟨s, hs⟩ := hx.add hy.neg
  show Small n (x + -y)
  rw [hs]
  exact small_ofUnits s h hn

theorem small_round (s : Bool) (hb : 0 < b) (hn : n ≤ 2 ^ 53)
    (h : a ≤ n * grain * b) : Small n (round s a b) := by
  obtain ⟨hu, hround, hle⟩ := round_of_le s hb hn h
  rw [hround]
  refine (isAt_finite s hu).small ?_
  cases s with
  | false => rwa [if_neg (by decide), Int.natAbs_natCast]
  | true => rwa [if_pos rfl, Int.natAbs_neg, Int.natAbs_natCast]

/-- A natural number is 1024 times as many grains. -/
theorem between_ofNat (hn : n ≤ 2 ^ 53) :
    Between (1024 * n) (1024 * n) (ofNat n) := by
  have heq : 1024 * (n : ℤ) * grain = (n * unitsPerOne : ℕ) := by
    rw [unitsPerOne_eq_grain]
    push_cast
    ring
  exact ⟨_, isAt_ofNat hn, heq.le, heq.ge⟩

/-- The bounds of a sum are the sums of the bounds. They are multiples of the grain,
which rounding does not cross. -/
theorem Between.add (hx : Between c d x) (hy : Between c' d' y)
    (hc : -2 ^ 53 ≤ c + c') (hd : d + d' ≤ 2 ^ 53) :
    Between (c + c') (d + d') (x + y) := by
  obtain ⟨i, hi, hci, hid⟩ := hx
  obtain ⟨j, hj, hcj, hjd⟩ := hy
  obtain ⟨s, hs⟩ := hi.add hj
  have hpos : (0 : ℤ) < grain := by exact_mod_cast grain_pos
  have hlow : (c + c') * grain ≤ i + j := by linarith
  have hhigh : i + j ≤ (d + d') * grain := by linarith
  have hle : c + c' ≤ d + d' := le_of_mul_le_mul_right (hlow.trans hhigh) hpos
  -- what is rounded is within the range in which this holds
  have habs : (i + j).natAbs ≤ 2 ^ 53 * grain := by
    have hlow' := (mul_le_mul_of_nonneg_right hc hpos.le).trans hlow
    have hhigh' := hhigh.trans (mul_le_mul_of_nonneg_right hd hpos.le)
    omega
  obtain ⟨l, hl, hcross⟩ := isAt_ofUnits s habs le_rfl
  rw [hs]
  exact ⟨l, hl, (hcross _ (by omega)).1 hlow, (hcross _ (by omega)).2 hhigh⟩

theorem Between.neg (hx : Between c d x) : Between (-d) (-c) (-x) := by
  obtain ⟨i, hi, hci, hid⟩ := hx
  exact ⟨-i, hi.neg, by linarith, by linarith⟩

theorem Between.sub (hx : Between c d x) (hy : Between c' d' y)
    (hc : -2 ^ 53 ≤ c + -d') (hd : d + -c' ≤ 2 ^ 53) :
    Between (c + -d') (d + -c') (x - y) :=
  hx.add hy.neg hc hd

theorem Small.add (hx : Small m x) (hy : Small n y) (h : m + n ≤ 2 ^ 53) :
    Small (m + n) (x + y) := by
  have hsum := Between.add hx hy (by omega) (by omega)
  unfold Small
  push_cast
  rwa [neg_add]

theorem Small.sub (hx : Small m x) (hy : Small n y) (h : m + n ≤ 2 ^ 53) :
    Small (m + n) (x - y) := by
  have hneg : Small n (-y) := by
    have hneg := Between.neg hy
    rwa [neg_neg] at hneg
  exact hx.add hneg h

/-- A sum moves away from a summand by no more than the other one and the
rounding. -/
theorem Small.add_sub (hx : Small m x) (hy : Small n y) (h : m + n < 2 ^ 53) :
    Small (n + 1) (x + y - x) := by
  obtain ⟨i, hi, hismall⟩ := hx.level
  obtain ⟨j, hj, hjsmall⟩ := hy.level
  obtain ⟨l, hl, hnear⟩ := hi.near_add hj hismall hjsmall h
  refine hl.small_sub hi ?_ (by omega)
  rw [Nat.add_mul, Nat.one_mul]
  omega

/-- A product is bounded by the product of the bounds, counted in grains. -/
theorem Small.mul (hx : Small m x) (hy : Small n y) (h : m * n ≤ 1024 * p)
    (hp : p ≤ 2 ^ 53) : Small p (x * y) := by
  obtain ⟨s, u, hu, rfl, hum⟩ := hx.eq_finite
  obtain ⟨t, v, hv, rfl, hvn⟩ := hy.eq_finite
  refine small_round (s ^^ t) unitsPerOne_pos hp ?_
  calc u * v ≤ m * grain * (n * grain) := Nat.mul_le_mul hum hvn
    _ = m * n * (grain * grain) := by ring
    _ ≤ 1024 * p * (grain * grain) := Nat.mul_le_mul_right _ h
    _ = p * grain * unitsPerOne := by rw [unitsPerOne_eq_grain]; ring

/-- A quotient is bounded if its divisor is kept away from zero. -/
theorem Small.div (hx : Small m x) (hy : Between c (-k) y) (hk : 0 < k)
    (h : 1024 * m ≤ p * k) (hp : p ≤ 2 ^ 53) : Small p (x / y) := by
  obtain ⟨s, u, hu, rfl, hum⟩ := hx.eq_finite
  obtain ⟨j, hat, -, hj⟩ := hy
  obtain ⟨t, v, hv, rfl, rfl⟩ := hat.eq_finite
  have hpos : 0 < k * grain := Nat.mul_pos hk grain_pos
  have hkv : k * grain ≤ v := by
    rw [neg_mul] at hj
    cases t with
    | false => rw [if_neg (by decide)] at hj; omega
    | true => rw [if_pos rfl] at hj; exact_mod_cast neg_le_neg_iff.1 hj
  have hquot : finite s u hu / finite t v hv = round (s ^^ t) (u * unitsPerOne) v :=
    if_neg (by omega)
  rw [hquot]
  refine small_round (s ^^ t) (by omega) hp ?_
  calc u * unitsPerOne ≤ m * grain * unitsPerOne := Nat.mul_le_mul_right _ hum
    _ = 1024 * m * (grain * grain) := by rw [unitsPerOne_eq_grain]; ring
    _ ≤ p * k * (grain * grain) := Nat.mul_le_mul_right _ h
    _ = p * grain * (k * grain) := by ring
    _ ≤ p * grain * v := Nat.mul_le_mul_left _ hkv

/-! ## The power of a fraction -/

theorem leadingUnits_le (u : ℕ) : leadingUnits u ≤ u := Nat.sub_le _ _

/-- Dropping the last bits of a number of the format leaves one. -/
theorem significant_leadingUnits (u : ℕ) : Significant (leadingUnits u) := by
  have heq : leadingUnits u = u / 2 ^ (surplus u + 32) * 2 ^ (surplus u + 32) := by
    have hdiv := Nat.div_add_mod' u (2 ^ (surplus u + 32))
    simp only [leadingUnits, Nat.pow_eq]
    omega
  rw [heq]
  refine significant_mul_pow (Nat.div_le_of_le_mul ?_)
  calc u ≤ 2 ^ (u.log2 + 1) := Nat.lt_log2_self.le
    _ ≤ 2 ^ (surplus u + 32 + 53) :=
      Nat.pow_le_pow_right two_pos (by unfold surplus; omega)
    _ = 2 ^ (surplus u + 32) * 2 ^ 53 := pow_add _ _ _

theorem leading_finite (s : Bool) (hu : Fits u) :
    ∃ hl, leading (finite s u hu) = finite s (leadingUnits u) hl := by
  have hl : Fits (leadingUnits u) :=
    ⟨lt_of_le_of_lt (leadingUnits_le u) hu.1, significant_leadingUnits u⟩
  exact ⟨hl, round_of_fits s hl⟩

/-- What follows the leading bits of a value of moderate size is at most two
grains. -/
theorem sub_leadingUnits_le (h : u ≤ 2 ^ 21 * grain) :
    u - leadingUnits u ≤ 2 * grain := by
  have hmod : u - leadingUnits u = u % 2 ^ (surplus u + 32) := by
    unfold leadingUnits
    have := Nat.mod_le u (2 ^ (surplus u + 32))
    simp only [Nat.pow_eq]
    omega
  rw [hmod]
  refine (Nat.mod_lt u (Nat.two_pow_pos _)).le.trans ?_
  rcases Nat.lt_or_ge u.log2 52 with hlt | hge
  · have hsur : surplus u = 0 := by
      unfold surplus
      omega
    rw [hsur, Nat.zero_add]
    exact pow_le_grain.trans (by omega)
  · have hne : u ≠ 0 := fun h0 => by
      rw [h0] at hge
      exact absurd hge (by decide)
    have hsplit : 2 ^ 20 * 2 ^ (surplus u + 32) = 2 ^ u.log2 := by
      rw [← pow_add]
      congr 1
      unfold surplus
      omega
    have hself := Nat.log2_self_le hne
    omega

/-- The bits that a value of moderate size loses are at most two grains. -/
theorem IsAt.leading (h : IsAt x i) (hi : i.natAbs ≤ 2 ^ 21 * grain) :
    ∃ j, IsAt x.leading j ∧ j.natAbs ≤ i.natAbs ∧ (i - j).natAbs ≤ 2 * grain := by
  obtain ⟨s, u, hu, rfl, rfl⟩ := h.eq_finite
  obtain ⟨hl, hlead⟩ := leading_finite s hu
  rw [hlead]
  refine ⟨_, isAt_finite s hl, ?_⟩
  have hle := leadingUnits_le u
  have hsub : u ≤ 2 ^ 21 * grain → u - leadingUnits u ≤ 2 * grain :=
    sub_leadingUnits_le
  cases s with
  | false => simp only [Bool.false_eq_true, if_false] at hi ⊢; omega
  | true => simp only [if_true] at hi ⊢; omega

theorem small_zero : Small n 0 := by
  have hat : IsAt 0 ((0 * unitsPerOne : ℕ) : ℤ) := isAt_ofNat (Nat.zero_le _)
  refine hat.small ?_
  rw [Nat.zero_mul]
  exact Nat.zero_le _

theorem small_toBinary64 (d : Decimal) (s : Bool) (hn : n ≤ 2 ^ 53)
    (h : d.digits * 10 ^ d.exponent.toNat * 1024 ≤ n * 10 ^ (-d.exponent).toNat) :
    Small n (d.toBinary64 s) := by
  rw [d.toBinary64_eq]
  refine small_round s (Nat.pow_pos (by decide)) hn ?_
  rw [unitsPerOne_eq_grain, ← Nat.mul_assoc, Nat.mul_right_comm n]
  exact Nat.mul_le_mul_right _ h

theorem small_ln2 : Small 768 ln2 :=
  small_toBinary64 _ _ (by decide) (by decide +kernel)

theorem small_ln2Head : Small 768 ln2Head :=
  small_toBinary64 _ _ (by decide) (by decide +kernel)

theorem small_ln2Tail : Small 1 ln2Tail :=
  small_toBinary64 _ _ (by decide) (by decide +kernel)

theorem small_expCoefficients : ∀ p ∈ expCoefficients, Small 171 p := by
  simp only [expCoefficients, List.forall_mem_cons]
  refine ⟨?_, ?_, ?_, ?_, ?_, ?_⟩
  all_goals first
    | exact small_toBinary64 _ _ (by decide) (by decide +kernel)
    | simp

/-- The polynomial is small at a small value: each of its terms is multiplied by the
value once more. -/
theorem small_polynomial {ps : List Binary64} (hps : ∀ p ∈ ps, Small 171 p)
    (hx : Small 153 x) : Small 64 (polynomial ps x) := by
  induction ps with
  | nil => exact small_zero
  | cons p rest ih =>
      obtain ⟨hp, hrest⟩ := List.forall_mem_cons.1 hps
      cases rest with
      | nil => exact hx.mul hp (by decide) (by decide)
      | cons q rest =>
          exact hx.mul (hp.add (ih hrest) (by decide)) (by decide) (by decide)

/-- The leading bits of a sum that is a half at most are about a half at most, and
what the smaller summand adds is small. -/
theorem small_leading_add {head tail : Binary64} (hhead : Small 514 head)
    (htail : Small 2 tail) :
    Small 517 (tail + head).leading ∧ Small 5 ((tail + head).leading - head) := by
  obtain ⟨i, hi, hismall⟩ := hhead.level
  obtain ⟨j, hj, hjsmall⟩ := htail.level
  obtain ⟨l, hl, hnear⟩ := hj.near_add hi hjsmall hismall (by decide)
  obtain ⟨k, hk, hkl, hlost⟩ := hl.leading (by omega)
  exact ⟨hk.small (by omega), hk.small_sub hi (by omega) (by decide)⟩

/-- The part of the computation after the product with `ln 2`, whose value is `z`
with the rest `w`. -/
theorem between_quotient {z w : Binary64} (hz : Small 395 z) (hw : Small 15 w) :
    Between 512 1536
      (let c := z - polynomial expCoefficients (z * z)
      1 - (z * c / (c - 2 - (w + z * w)) - z)) := by
  have hone : Between 1024 1024 1 := between_ofNat (n := 1) (by decide)
  have htwo : Between 2048 2048 2 := between_ofNat (n := 2) (by decide)
  have hsquare : Small 153 (z * z) := hz.mul hz (by decide) (by decide)
  have hc : Small 459 (z - polynomial expCoefficients (z * z)) :=
    hz.sub (small_polynomial small_expCoefficients hsquare) (by decide)
  dsimp only
  generalize z - polynomial expCoefficients (z * z) = c at hc
  have hproduct : Small 6 (z * w) := hz.mul hw (by decide) (by decide)
  -- the divisor is about minus two, so it is kept away from zero
  have hdivisor : Between (-2528) (-1568) (c - 2 - (w + z * w)) :=
    (Between.sub hc htwo (by decide) (by decide)).sub (hw.add hproduct (by decide))
      (by decide) (by decide)
  have hnumerator : Small 178 (z * c) := hz.mul hc (by decide) (by decide)
  have hr : Small 117 (z * c / (c - 2 - (w + z * w))) :=
    hnumerator.div hdivisor (by decide) (by decide) (by decide)
  exact hone.sub (hr.sub hz (by decide)) (by decide) (by decide)

/-- The power of a fraction is a half at least and one and a half at most. -/
theorem between_exp2Fraction {head tail : Binary64} (hhead : Small 514 head)
    (htail : Small 2 tail) : Between 512 1536 (exp2Fraction head tail) := by
  obtain ⟨hx, hrest⟩ := small_leading_add hhead htail
  have hu : Small 388 ((tail + head).leading * ln2Head) :=
    hx.mul small_ln2Head (by decide) (by decide)
  have hleft : Small 6 ((tail - ((tail + head).leading - head)) * ln2) :=
    (htail.sub hrest (by decide)).mul small_ln2 (by decide) (by decide)
  have hright : Small 1 ((tail + head).leading * ln2Tail) :=
    hx.mul small_ln2Tail (by decide) (by decide)
  have hv := hleft.add hright (by decide)
  exact between_quotient (hu.add hv (by decide))
    (hv.sub (hu.add_sub hv (by decide)) (by decide))

/-! ## Splitting an exponent -/

theorem nearestWhole_le (h : u < 1075 * unitsPerOne) : nearestWhole u ≤ 2 ^ 53 := by
  unfold nearestWhole
  split
  · exact Nat.zero_le _
  · have hpos := unitsPerOne_pos
    exact (Nat.div_le_of_le_mul
      (by omega : 2 * u + unitsPerOne ≤ 2 * unitsPerOne * 1076)).trans (by decide)

/-- The leading bits of an exponent are about a half at most from the nearest whole
number. -/
theorem leadingUnits_sub_nearestWhole (h : u < 1075 * unitsPerOne) :
    ((leadingUnits u : ℤ) - (nearestWhole u * unitsPerOne : ℕ)).natAbs ≤
      514 * grain := by
  have hunit := unitsPerOne_eq_grain
  have hle := leadingUnits_le u
  have hlost : u - leadingUnits u ≤ 2 * grain := sub_leadingUnits_le (by omega)
  unfold nearestWhole
  split
  · omega
  · have hpos := unitsPerOne_pos
    have hdiv := Nat.div_add_mod (2 * u + unitsPerOne) (2 * unitsPerOne)
    have hmod := Nat.mod_lt (2 * u + unitsPerOne) (by omega : 2 * unitsPerOne > 0)
    generalize (2 * u + unitsPerOne) / (2 * unitsPerOne) = q at hdiv ⊢
    rw [Nat.mul_assoc, Nat.mul_comm _ q] at hdiv
    omega

/-! ## Values that are not negative -/

/-- The value is at least zero, and it is not minus zero. -/
def Unsigned (x : Binary64) : Prop := x.ge 0 = true ∧ x ≠ zero true

/-- Being at least zero, and not minus zero, is having a value without a sign. -/
theorem unsigned_iff : x.Unsigned ↔ x ≠ nan ∧ x.negative = false := by
  have hzero : level 0 = some 0 := by
    show (ofNat 0).level = some 0
    rw [ofNat_eq (Nat.zero_le _)]
    simp [level]
  unfold Unsigned ge compares
  rw [hzero]
  cases x with
  | nan => simp [level]
  | infinity s =>
      have hne := limit_pos.ne'
      cases s <;> simp [level, zero, negative, hne]
  | finite s u hu => cases s <;> simp [level, zero, negative]

theorem unsigned_round (a b : ℕ) : (round false a b).Unsigned := by
  rw [unsigned_iff, round]
  split <;> exact ⟨by simp, rfl⟩

theorem unsigned_toBinary64 (d : Decimal) : (d.toBinary64 false).Unsigned := by
  rw [d.toBinary64_eq]
  exact unsigned_round _ _

theorem unsigned_infinity : (infinity false).Unsigned :=
  unsigned_iff.2 ⟨by simp, rfl⟩

theorem unsigned_ofNat (n : ℕ) : (ofNat n).Unsigned := unsigned_round _ _

theorem unsigned_scale (hu : Fits u) (k : ℤ) :
    (scale (finite false u hu) k).Unsigned := by
  dsimp only [scale]
  split <;> exact unsigned_round _ _

theorem unsigned_twoPow (k : ℤ) : (twoPow k).Unsigned := by
  unfold twoPow
  split
  · exact unsigned_infinity
  · split
    · exact unsigned_ofNat 0
    · rw [one_eq]
      exact unsigned_scale _ k

/-- The power of an exponent that is split into a whole number and a fraction has no
sign: the power of the fraction is around one, and scaling keeps its sign. -/
theorem unsigned_exp2Split {whole : Binary64} (s : Bool) (hu : Fits u)
    (h : u < 1075 * unitsPerOne) (hw : IsAt whole i)
    (hi : ((if s then -leadingUnits u else leadingUnits u : ℤ) - i).natAbs ≤
      514 * grain) (k : ℤ) :
    (exp2Split (finite s u hu) whole k).Unsigned := by
  have hle := leadingUnits_le u
  have hlost : u - leadingUnits u ≤ 2 * grain :=
    sub_leadingUnits_le (by rw [unitsPerOne_eq_grain] at h; omega)
  obtain ⟨hl, hlead⟩ := leading_finite s hu
  have hhead : Small 514 (finite s (leadingUnits u) hl - whole) :=
    (isAt_finite s hl).small_sub hw hi (by decide)
  have htail : Small 2 (finite s u hu - finite s (leadingUnits u) hl) := by
    refine (isAt_finite s hu).small_sub (isAt_finite s hl) ?_ (by decide)
    split <;> omega
  unfold exp2Split
  rw [hlead]
  obtain ⟨i, hi, hlow, -⟩ := between_exp2Fraction hhead htail
  obtain ⟨t, v, hv, heq, rfl⟩ := hi.eq_finite
  rw [heq]
  have hpos := grain_pos
  cases t with
  | false => exact unsigned_scale hv k
  | true => rw [if_pos rfl] at hlow; omega

/-- Powers of two are never negative. -/
theorem unsigned_exp2 (hx : x ≠ nan) : (exp2 x).Unsigned := by
  cases x with
  | nan => exact absurd rfl hx
  | infinity s =>
      cases s with
      | false => exact unsigned_infinity
      | true => exact unsigned_ofNat 0
  | finite s u hu =>
      cases hint : (finite s u hu).toInt? with
      | some k =>
          simp only [exp2, hint]
          exact unsigned_twoPow k
      | none =>
          simp only [exp2, hint]
          split
          · split
            · exact unsigned_ofNat 0
            · exact unsigned_infinity
          · next hlt =>
            -- the exponent is split into the whole number next to it and a fraction
            have hbound : u < 1075 * unitsPerOne := not_le.1 hlt
            have hwhole := isAt_ofNat (nearestWhole_le hbound)
            have hnear := leadingUnits_sub_nearestWhole hbound
            split
            · exact unsigned_infinity
            · split
              · exact unsigned_toBinary64 _
              · split
                · next hs =>
                  subst hs
                  refine unsigned_exp2Split true hu hbound hwhole.neg ?_ _
                  rw [if_pos rfl]
                  omega
                · next hs =>
                  obtain rfl : s = false := by simpa using hs
                  refine unsigned_exp2Split false hu hbound hwhole ?_ _
                  rwa [if_neg (by decide)]

/-! ## Values that widths can have -/

/-- The value is neither NaN nor minus zero nor minus infinity. -/
structure Regular (x : Binary64) : Prop where
  ne_nan : x ≠ nan
  ne_minusZero : x ≠ zero true
  ne_minusInfinity : x ≠ infinity true

theorem Unsigned.regular (h : x.Unsigned) : x.Regular where
  ne_nan := (unsigned_iff.1 h).1
  ne_minusZero := h.2
  ne_minusInfinity := fun heq => absurd (unsigned_iff.1 h).2 (by rw [heq]; decide)

theorem Regular.level (h : x.Regular) : x.level ≠ none := by
  cases x with
  | nan => exact absurd rfl h.ne_nan
  | infinity | finite => exact Option.some_ne_none _

theorem Regular.withoutMinusZero (h : x.Regular) : x.withoutMinusZero = x :=
  withoutMinusZero_of_ne h.ne_minusZero

theorem Regular.numEq_self (h : x.Regular) : x.numEq x = true :=
  (numEq_iff h.level).2 rfl

/-- Going down by one from a finite value does not reach minus infinity. -/
theorem nearest_lt_limit (hu : Fits u) (h : a ≤ u + unitsPerOne) :
    nearest a 1 < limit := by
  rcases Nat.lt_or_ge u (2 ^ 55 * unitsPerOne) with hlt | hge
  · have hpow : a ≤ 2 ^ (56 + 1074) * 1 := by
      rw [pow_add, ← unitsPerOne_eq]
      omega
    refine lt_of_le_of_lt (nearest_le Nat.one_pos (significant_pow _) hpow) ?_
    rw [limit_eq]
    exact pow_lt_pow_right₀ one_lt_two (by decide)
  · rcases Nat.lt_or_ge a u with hau | hau
    · exact lt_of_le_of_lt (nearest_le Nat.one_pos hu.2 (by omega)) hu.1
    · -- one is less than half of the last place
      have hpos := unitsPerOne_pos
      rw [nearest_eq_of_abs_sub_lt Nat.one_pos hu.2 ?_]
      · exact hu.1
      · push_cast
        rw [mul_one, abs_of_nonneg (by omega)]
        omega

theorem unitsPerOne_lt_limit : unitsPerOne < limit := by
  rw [unitsPerOne_eq, limit_eq]
  exact pow_lt_pow_right₀ one_lt_two (by decide)

/-- What is at most one less than a finite value is rounded to no minus infinity. -/
theorem ofUnits_ne (s : Bool) (hu : Fits u) (hi : -(u : ℤ) - unitsPerOne ≤ i) :
    ofUnits s i ≠ nan ∧ ofUnits s i ≠ infinity true := by
  unfold ofUnits
  split
  · exact ⟨by simp [zero], by simp [zero]⟩
  · unfold round
    split
    · exact ⟨by simp, by simp⟩
    · next hbig =>
      refine ⟨by simp, fun h => hbig (nearest_lt_limit hu ?_)⟩
      injection h with hneg
      have hlt := of_decide_eq_true hneg
      omega

/-- What is at least minus one can be added without reaching minus infinity. -/
theorem add_ne (hx : x.Regular) (hy : y.level = some j) (hj : -unitsPerOne ≤ j) :
    x + y ≠ nan ∧ x + y ≠ infinity true := by
  have hlim := unitsPerOne_lt_limit
  have hyinf : y ≠ infinity true := by
    rintro rfl
    obtain rfl := Option.some.inj hy
    rw [if_pos rfl] at hj
    omega
  cases x with
  | nan => exact absurd rfl hx.ne_nan
  -- plus infinity absorbs all values but minus infinity and NaN
  | infinity s =>
      obtain rfl : s = false := by
        cases s with
        | false => rfl
        | true => exact absurd rfl hx.ne_minusInfinity
      have hsum : infinity false + y = infinity false := by
        cases y with
        | nan => cases hy
        | finite => rfl
        | infinity t =>
            cases t with
            | false => rfl
            | true => exact absurd rfl hyinf
      rw [hsum]
      exact ⟨by simp, by simp⟩
  | finite s u hu =>
      cases y with
      | nan => cases hy
      | infinity t => exact ⟨nofun, hyinf⟩
      | finite t v hv =>
          obtain rfl := Option.some.inj hy
          refine ofUnits_ne (s && t) hu ?_
          cases s with
          | false => rw [if_neg (by decide)]; omega
          | true => rw [if_pos rfl]; omega

theorem level_one : level 1 = some (unitsPerOne : ℤ) := by
  rw [one_eq, level, if_neg (by decide), Nat.one_mul]

/-- Rounding keeps units at minus one or above. -/
theorem level_ofUnits (s : Bool) (hi : -unitsPerOne ≤ i) :
    ∃ j, (ofUnits s i).level = some j ∧ -unitsPerOne ≤ j := by
  unfold ofUnits
  split
  · exact ⟨0, by cases s <;> rfl, by omega⟩
  · by_cases hneg : i < 0
    · have hlim := unitsPerOne_lt_limit
      have hunit : Significant unitsPerOne := by
        rw [unitsPerOne_eq]
        exact significant_pow _
      have hle : nearest i.natAbs 1 ≤ unitsPerOne :=
        nearest_le Nat.one_pos hunit (by omega)
      rw [decide_eq_true hneg, round, dif_pos (by omega)]
      exact ⟨_, rfl, by rw [if_pos rfl]; omega⟩
    · rw [decide_eq_false hneg, round]
      split
      · exact ⟨_, rfl, by rw [if_neg (by decide)]; omega⟩
      · exact ⟨limit, rfl, by omega⟩

/-- One less than a value that is not negative is at least minus one. -/
theorem level_sub_one (hx : x.Unsigned) :
    ∃ j, (x - 1).level = some j ∧ -unitsPerOne ≤ j := by
  obtain ⟨hnan, hneg⟩ := unsigned_iff.1 hx
  cases x with
  | nan => exact absurd rfl hnan
  | infinity s =>
      obtain rfl : s = false := hneg
      rw [infinity_sub_one]
      exact ⟨limit, rfl, by omega⟩
  | finite s u hu =>
      obtain rfl : s = false := hneg
      rw [one_eq]
      exact level_ofUnits (false && !false)
        (show -(unitsPerOne : ℤ) ≤ u + -(1 * unitsPerOne : ℕ) by omega)

theorem max_eq_or (hx : x.level ≠ none) (hy : y.level ≠ none) :
    x.max y = x ∨ x.max y = y := by
  obtain ⟨i, hi⟩ := Option.ne_none_iff_exists'.1 hx
  obtain ⟨j, hj⟩ := Option.ne_none_iff_exists'.1 hy
  unfold max
  rw [hi, hj]
  dsimp only
  split_ifs <;> simp

theorem Regular.max (hx : x.Regular) (hy : y.Regular) : (x.max y).Regular := by
  rcases max_eq_or hx.level hy.level with h | h <;> rwa [h]

/-- Widths computed from regular values are regular. -/
theorem Regular.eval (hx : x.Regular) (hy : y.Regular) (fn : WidthFn) :
    (fn.eval x y).Regular := by
  obtain ⟨hnan, hinf⟩ : fn.eval x y ≠ nan ∧ fn.eval x y ≠ infinity true := by
    cases fn with
    | sum => exact add_ne (hx.max hy) level_one (by omega)
    | shift =>
        obtain ⟨j, hj, hle⟩ := level_sub_one (unsigned_exp2 hy.ne_nan)
        exact add_ne hx hj hle
  exact ⟨hnan, WidthFn.eval_ne_minusZero hx.ne_minusZero, hinf⟩

end Datapath.Binary64

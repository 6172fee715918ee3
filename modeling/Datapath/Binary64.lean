/-!
# Datapath.Binary64

IEEE 754 **binary64** values, the numbers in which widths and constants are computed.

A finite value is a sign and a whole number of *units* of `2 ^ -1074`, the least
positive value of the format. The constructor carries the proof that the format holds
that many units, so two values are equal in the logic exactly when they are the same
datum: the two zeros differ, and there is one NaN.

* `Binary64.round` is the only place where a value is rounded: to the nearest one,
  ties to even, beyond the largest finite value to an infinity.
* `Binary64.level` places every value but NaN on the integer line. The comparisons
  are comparisons of levels, so a comparison with NaN is false and the two zeros
  compare equal.
-/

namespace Datapath

/-! ## Rounding to 53 significant bits -/

/-- The units in `2 ^ 1024`, the least power of two beyond the finite values. -/
def Binary64.limit : Nat := Nat.pow 2 2098

/-- How many low bits `units` units give up to keep 53 of them. -/
def Binary64.surplus (units : Nat) : Nat := units.log2 - 52

/-- Whether `units` multiples of `2 ^ -1074` are a finite magnitude of the format:
below `2 ^ 1024`, with at most 53 significant bits. -/
def Binary64.Fits (units : Nat) : Prop :=
  units < Binary64.limit ∧ Nat.pow 2 (Binary64.surplus units) ∣ units

instance (units : Nat) : Decidable (Binary64.Fits units) :=
  inferInstanceAs (Decidable (_ ∧ _))

/-- A value of the binary64 format. -/
inductive Binary64
  /-- The result of an operation that has no value. -/
  | nan
  /-- An infinity. -/
  | infinity (negative : Bool)
  /-- A number of units of `2 ^ -1074`; both zeros are among them. -/
  | finite (negative : Bool) (units : Nat) (fits : Binary64.Fits units)
  deriving DecidableEq

namespace Binary64

/-- The natural number nearest to `a / b`; a half goes to the even neighbour. -/
def roundDiv (a b : Nat) : Nat :=
  if 2 * (a % b) < b ∨ (2 * (a % b) = b ∧ a / b % 2 = 0) then a / b else a / b + 1

/-- The number of units with at most 53 significant bits that is nearest to
`a / b`. -/
def nearest (a b : Nat) : Nat :=
  let step := Nat.pow 2 (surplus (a / b))
  roundDiv a (b * step) * step

theorem roundDiv_le (a b : Nat) : roundDiv a b ≤ a / b + 1 := by
  unfold roundDiv
  split <;> omega

/-- A multiple of `2 ^ k` by at most `2 ^ 53` has at most 53 significant bits. -/
theorem fits_mul_pow {m k : Nat} (hm : m ≤ Nat.pow 2 53)
    (h : m * Nat.pow 2 k < limit) : Fits (m * Nat.pow 2 k) := by
  refine ⟨h, ?_⟩
  simp only [Nat.pow_eq] at hm ⊢
  rcases Nat.lt_or_eq_of_le hm with hlt | rfl
  · by_cases hzero : m * 2 ^ k = 0
    · simp [hzero]
    · have hbound : m * 2 ^ k < 2 ^ (53 + k) := by
        rw [Nat.pow_add]
        exact Nat.mul_lt_mul_of_pos_right hlt (Nat.two_pow_pos k)
      have hlog := (Nat.log2_lt hzero).2 hbound
      exact Nat.dvd_trans (Nat.pow_dvd_pow 2 (by unfold surplus; omega))
        (Nat.dvd_mul_left _ _)
  · rw [← Nat.pow_add, surplus, Nat.log2_two_pow]
    exact Nat.pow_dvd_pow 2 (by omega)

theorem fits_nearest {a b : Nat} (h : nearest a b < limit) : Fits (nearest a b) := by
  refine fits_mul_pow ?_ h
  refine Nat.le_trans (roundDiv_le _ _) ?_
  simp only [Nat.pow_eq]
  rw [← Nat.div_div_eq_div_mul, Nat.succ_le_iff,
    Nat.div_lt_iff_lt_mul (Nat.two_pow_pos _),
    ← Nat.pow_add]
  refine Nat.lt_of_lt_of_le Nat.lt_log2_self (Nat.pow_le_pow_right (by decide) ?_)
  unfold surplus
  omega

theorem limit_pos : 0 < limit := by decide +kernel

theorem fits_zero : Fits 0 := ⟨limit_pos, Nat.dvd_zero _⟩

/-- The value nearest to `a / b` units with the given sign; a tie goes to the even
significand. -/
def round (negative : Bool) (a b : Nat) : Binary64 :=
  if h : nearest a b < limit then .finite negative (nearest a b) (fits_nearest h)
  else .infinity negative

/-! ## Whole numbers -/

/-- The units in the number one. -/
def unitsPerOne : Nat := Nat.pow 2 1074

/-- Zero with the given sign. -/
def zero (negative : Bool) : Binary64 := .finite negative 0 fits_zero

/-- The value nearest to a natural number. -/
def ofNat (n : Nat) : Binary64 := round false (n * unitsPerOne) 1

instance (n : Nat) : OfNat Binary64 n := ⟨ofNat n⟩

/-- The integer a value is, if it is one. -/
def toInt? : Binary64 → Option Int
  | finite negative units _ =>
    if units % unitsPerOne = 0 then
      let n := units / unitsPerOne
      some (if negative then -n else n)
    else none
  | _ => none

/-! ## Order -/

/-- The place of a value on the line of signed units, an infinity standing just
outside the finite values; NaN has none. -/
def level : Binary64 → Option Int
  | nan => none
  | infinity negative => some (if negative then -limit else limit)
  | finite negative units _ => some (if negative then -units else units)

/-- Whether `p` holds of the levels of two values; never when one of them is NaN. -/
def compares (p : Int → Int → Bool) (x y : Binary64) : Bool :=
  match x.level, y.level with
  | some a, some b => p a b
  | _, _ => false

/-- Whether `x` is at least `y`. -/
def ge (x y : Binary64) : Bool := compares (· ≥ ·) x y

/-- Whether `x` is above `y`. -/
def gt (x y : Binary64) : Bool := compares (· > ·) x y

/-- Whether `x` is at most `y`. -/
def le (x y : Binary64) : Bool := compares (· ≤ ·) x y

/-- Whether `x` is below `y`. -/
def lt (x y : Binary64) : Bool := compares (· < ·) x y

/-- Whether two values are numerically equal: the zeros are, NaN is not even to
itself. -/
def numEq (x y : Binary64) : Bool := compares (· = ·) x y

/-! ## Arithmetic -/

/-- Whether the sign bit of a value is set. -/
def negative : Binary64 → Bool
  | nan => false
  | infinity negative => negative
  | finite negative _ _ => negative

/-- The greater of two values; NaN if either is, and of two zeros the positive
one. -/
def max (x y : Binary64) : Binary64 :=
  match x.level, y.level with
  | some a, some b =>
      if a < b then y else if b < a then x else if y.negative then x else y
  | _, _ => nan

/-- The value nearest to a signed number of units, where `zeroSign` is the sign of a
zero. -/
def ofUnits (zeroSign : Bool) (units : Int) : Binary64 :=
  if units = 0 then zero zeroSign else round (units < 0) units.natAbs 1

/-- The sum of two values, rounded; opposite infinities have none, and a sum of zero
is positive unless both operands are negative. -/
def add (x y : Binary64) : Binary64 :=
  match x, y with
  | nan, _ | _, nan => nan
  | infinity s, infinity t => if s = t then infinity s else nan
  | infinity s, finite .. => infinity s
  | finite .., infinity t => infinity t
  | finite s a _, finite t b _ =>
    ofUnits (s && t) ((if s then -a else a : Int) + (if t then -b else b : Int))

/-- The value with the opposite sign. -/
def neg : Binary64 → Binary64
  | nan => nan
  | infinity negative => infinity !negative
  | finite negative units fits => finite (!negative) units fits

/-- The difference of two values, rounded. -/
def sub (x y : Binary64) : Binary64 := add x y.neg

/-- The product of two values, rounded; zero and an infinity have none. -/
def mul (x y : Binary64) : Binary64 :=
  match x, y with
  | nan, _ | _, nan => nan
  | infinity s, infinity t => infinity (s ^^ t)
  | infinity s, finite t b _ => if b = 0 then nan else infinity (s ^^ t)
  | finite s a _, infinity t => if a = 0 then nan else infinity (s ^^ t)
  | finite s a _, finite t b _ => round (s ^^ t) (a * b) unitsPerOne

/-- The quotient of two values, rounded; neither two zeros nor two infinities have
one, and other quotients by zero are infinite. -/
def div (x y : Binary64) : Binary64 :=
  match x, y with
  | nan, _ | _, nan => nan
  | infinity _, infinity _ => nan
  | infinity s, finite t _ _ => infinity (s ^^ t)
  | finite s _ _, infinity t => zero (s ^^ t)
  | finite s a _, finite t b _ =>
    if b = 0 then (if a = 0 then nan else infinity (s ^^ t))
    else round (s ^^ t) (a * unitsPerOne) b

/-- The same value, with minus zero replaced by zero. -/
def withoutMinusZero (x : Binary64) : Binary64 :=
  if x = zero true then zero false else x

instance : Add Binary64 := ⟨add⟩
instance : Neg Binary64 := ⟨neg⟩
instance : Sub Binary64 := ⟨sub⟩
instance : Mul Binary64 := ⟨mul⟩
instance : Div Binary64 := ⟨div⟩

end Binary64

end Datapath

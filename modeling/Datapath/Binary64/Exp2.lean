import Datapath.Binary64.Decimal

/-!
# Datapath.Binary64.Exp2

Powers of two with a binary64 exponent.

* A whole exponent gives the exact power, infinite or zero where the format ends.
* The exponent one half gives the square root of two, rounded to the nearest value.
* Any other exponent is split into the whole number nearest to it and a fraction of
  about a half at most. The power of the fraction is computed in binary64 arithmetic
  and then scaled.

For the fraction `x`, let `z` be `x * ln 2`. With
`c = z - (z ^ 2 / 6 - z ^ 4 / 360 + …)` the exponential of `z` is
`1 + z + z * c / (2 - c)`, and five terms of the series, with coefficients adjusted
to the interval, are enough. The fraction and `ln 2` are each held as a sum of a
short leading part and a small rest, so that the product of the leading parts is
exact and `w`, the part of `x * ln 2` that `z` has no room for, is known too; it
adjusts the divisor. Every step rounds, so the last bit of the power is decided by
these formulas and need not be that of the nearest value.
-/

namespace Datapath.Binary64

/-! ## Constants -/

/-- The square root of two. -/
def sqrtTwo : Binary64 := (Decimal.mk 141421356237309504880 (-20)).toBinary64 false

/-- The natural logarithm of two. -/
def ln2 : Binary64 := (Decimal.mk 693147180559945286227 (-21)).toBinary64 false

/-- The leading bits of the natural logarithm of two. -/
def ln2Head : Binary64 := (Decimal.mk 693147182464599609375 (-21)).toBinary64 false

/-- What the leading bits leave of the natural logarithm of two. -/
def ln2Tail : Binary64 := (Decimal.mk 190465429995776804525 (-29)).toBinary64 true

/-- The coefficients of the series in `z ^ 2`, from the first on. -/
def expCoefficients : List Binary64 :=
  [(Decimal.mk 166666666666666019037 (-21)).toBinary64 false,
    (Decimal.mk 277777777770155933842 (-23)).toBinary64 true,
    (Decimal.mk 661375632143793436117 (-25)).toBinary64 false,
    (Decimal.mk 165339022054652515390 (-26)).toBinary64 true,
    (Decimal.mk 413813679705723846039 (-28)).toBinary64 false]

/-! ## The fraction -/

/-- The units left when a significand gives up its last 32 bits. -/
def leadingUnits (units : Nat) : Nat :=
  units - units % Nat.pow 2 (surplus units + 32)

/-- The value without the last 32 bits of its significand. -/
def leading : Binary64 → Binary64
  | finite negative units _ => round negative (leadingUnits units) 1
  | x => x

/-- The value of a polynomial without a constant term, by its coefficients from the
first on. -/
def polynomial (coefficients : List Binary64) (t : Binary64) : Binary64 :=
  match coefficients with
  | [] => 0
  | [p] => t * p
  | p :: rest => t * (p + polynomial rest t)

/-- Two to the power of a fraction that is given as the sum of a leading part and a
rest. -/
def exp2Fraction (head tail : Binary64) : Binary64 :=
  let x := leading (tail + head)
  let u := x * ln2Head
  let v := (tail - (x - head)) * ln2 + x * ln2Tail
  let z := u + v
  let w := v - (z - u)
  let c := z - polynomial expCoefficients (z * z)
  let r := z * c / (c - 2 - (w + z * w))
  1 - (r - z)

/-! ## Scaling -/

/-- A value times `2 ^ k`, rounded. -/
def scale (x : Binary64) (k : Int) : Binary64 :=
  match x with
  | finite negative units _ =>
    if k ≥ 0 then round negative (units * Nat.pow 2 k.toNat) 1
    else round negative units (Nat.pow 2 (-k).toNat)
  | x => x

/-- The power `2 ^ k`: infinite above the format's range, and zero below it. -/
def twoPow (k : Int) : Binary64 :=
  if k ≥ 1024 then infinity false
  else if k < -1074 then 0
  else scale 1 k

/-- The whole number nearest to a number of units, where a half goes up; zero when
the leading bits do not exceed a half. -/
def nearestWhole (units : Nat) : Nat :=
  if 2 * leadingUnits units ≤ unitsPerOne then 0
  else (2 * units + unitsPerOne) / (2 * unitsPerOne)

/-- Two to the power of an exponent that is not whole, split at the whole number
nearest to it. -/
def exp2Split (x : Binary64) (whole : Binary64) (k : Int) : Binary64 :=
  scale (exp2Fraction (leading x - whole) (x - leading x)) k

/-- Two to the power of a value. Above the format's range it is infinite, below it
zero. -/
def exp2 (x : Binary64) : Binary64 :=
  match x with
  | nan => nan
  | infinity negative => if negative then 0 else infinity false
  | finite negative units _ =>
    match x.toInt? with
    | some k => twoPow k
    | none =>
      if units ≥ 1075 * unitsPerOne then (if negative then 0 else infinity false)
      else if units ≥ 1024 * unitsPerOne ∧ ¬ negative then infinity false
      else if 2 * units = unitsPerOne ∧ ¬ negative then sqrtTwo
      else
        let n := nearestWhole units
        if negative then exp2Split x (-ofNat n) (-n) else exp2Split x (ofNat n) n

end Datapath.Binary64

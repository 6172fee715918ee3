import Datapath.Binary64
import Datapath.Text.Blank

/-!
# Datapath.Binary64.Decimal

Decimal notation of binary64 values, both ways.

* `Decimal.toBinary64` reads a decimal as the value nearest to it.
* `shortest` is the decimal with the fewest digits that reads back as a given
  magnitude, and among those the nearest one. That it reads back is tested on each
  candidate, not argued from bounds.
* `render` writes a value: whole numbers below `2 ^ 53` in full, and the shortest
  decimal otherwise, positionally while the point stands among the first 21 digits or
  at most six zeros follow it, and with an exponent elsewhere. Both zeros are written
  `0`.
* `ofText` reads such texts back. It also takes blanks around a number, nothing at
  all as zero, and whole numbers in base two, eight and sixteen.
-/

namespace Datapath.Binary64

/-- The decimal number `digits * 10 ^ exponent`. -/
structure Decimal where
  digits : Nat
  exponent : Int

namespace Decimal

/-- The value nearest to a decimal, with the given sign. -/
def toBinary64 (d : Decimal) (negative : Bool) : Binary64 :=
  if d.exponent ≥ 0 then
    round negative (d.digits * Nat.pow 10 d.exponent.toNat * unitsPerOne) 1
  else round negative (d.digits * unitsPerOne) (Nat.pow 10 (-d.exponent).toNat)

end Decimal

/-! ## The shortest decimal -/

/-- Whether `units` units are less than `10 ^ point`. -/
def belowPower (units : Nat) (point : Int) : Bool :=
  if point ≥ 0 then units < Nat.pow 10 point.toNat * unitsPerOne
  else units * Nat.pow 10 (-point).toNat < unitsPerOne

/-- The number of digits before the decimal point of `units` units, counted
negatively when zeros follow the point: the least `point` with `units` units below
`10 ^ point`. The number of bits times `log10 2` bounds it from below, and it is at
most two more. -/
def pointPosition (units : Nat) : Int :=
  let least := ((units.log2 : Int) - 1074) * 30103 / 100000
  if belowPower units least then least
  else if belowPower units (least + 1) then least + 1
  else least + 2

/-- The two decimals with last digit at `10 ^ exponent` around `units` units, the
nearer one first; of two equally near ones the even. -/
def neighbours (units : Nat) (exponent : Int) : Decimal × Decimal :=
  let a := if exponent ≥ 0 then units else units * Nat.pow 10 (-exponent).toNat
  let b := if exponent ≥ 0 then unitsPerOne * Nat.pow 10 exponent.toNat
    else unitsPerOne
  let below : Decimal := ⟨a / b, exponent⟩
  let above : Decimal := ⟨a / b + 1, exponent⟩
  if roundDiv a b = a / b then (below, above) else (above, below)

/-- A decimal of at most `count` digits that reads back as `units` units, whose point
position is given, if there is one. -/
def readable? (units : Nat) (point : Int) (count : Nat) : Option Decimal :=
  let (near, far) := neighbours units (point - count)
  let target := round false units 1
  if near.toBinary64 false = target then some near
  else if far.toBinary64 false = target then some far
  else none

/-- The exact decimal expansion of `units` units. -/
def expansion (units : Nat) : Decimal := ⟨units * Nat.pow 5 1074, -1074⟩

/-- The decimal with the fewest digits that reads back as `units` units. Seventeen
digits always suffice; the exact expansion stands in for the case that cannot
arise. -/
def shortest (units : Nat) : Decimal :=
  let point := pointPosition units
  ((List.range 17).findSome? fun i => readable? units point (i + 1)).getD
    (expansion units)

/-! ## Writing -/

/-- The layout of a nonzero decimal with digits `ds` and its point at `point`. -/
def layout (ds : List Char) (point : Int) : List Char :=
  if ds.length ≤ point ∧ point ≤ 21 then
    ds ++ List.replicate (point.toNat - ds.length) '0'
  else if 0 < point ∧ point ≤ 21 then
    ds.take point.toNat ++ '.' :: ds.drop point.toNat
  else if -6 < point ∧ point ≤ 0 then
    '0' :: '.' :: List.replicate (-point).toNat '0' ++ ds
  else
    let mantissa := match ds with
      | d :: rest@(_ :: _) => d :: '.' :: rest
      | _ => ds
    let exponent := point - 1
    mantissa ++ 'e' :: (if exponent < 0 then '-' else '+') ::
      Nat.toDigits 10 exponent.natAbs

/-- The text of a decimal, without the zeros that end its digits. -/
def Decimal.render (d : Decimal) : List Char :=
  let all := Nat.toDigits 10 d.digits
  layout (all.reverse.dropWhile (· = '0')).reverse (all.length + d.exponent)

/-- The text of `units` units. -/
def renderUnits (units : Nat) : List Char :=
  if units % unitsPerOne = 0 ∧ units / unitsPerOne < Nat.pow 2 53 then
    Nat.toDigits 10 (units / unitsPerOne)
  else (shortest units).render

/-- The characters of a value's text. -/
def render : Binary64 → List Char
  | nan => "NaN".toList
  | infinity negative => (if negative then ['-'] else []) ++ "Infinity".toList
  | finite negative units _ =>
    (if negative ∧ units ≠ 0 then ['-'] else []) ++ renderUnits units

/-- The text of a value. -/
def toText (x : Binary64) : String := String.ofList x.render

/-! ## Reading -/

/-- The natural number that decimal digits stand for, continuing from `acc`. -/
def digitsValue (acc : Nat) (ds : List Char) : Nat :=
  ds.foldl (fun n c => 10 * n + (c.toNat - '0'.toNat)) acc

/-- A sign in front of a number, and what follows it. -/
def takeSign : List Char → Bool × List Char
  | '-' :: rest => (true, rest)
  | '+' :: rest => (false, rest)
  | rest => (false, rest)

/-- The exponent that ends a decimal: nothing, or `e` with a signed whole number. -/
def readExponent : List Char → Option Int
  | [] => some 0
  | c :: rest =>
    if c = 'e' ∨ c = 'E' then
      let (negative, ds) := takeSign rest
      if !ds.isEmpty ∧ ds.all Char.isDigit then
        let n := digitsValue 0 ds
        some (if negative then -n else n)
      else none
    else none

/-- Digits, an optional point with more digits, and an optional exponent. -/
def readDecimal (cs : List Char) : Option Decimal :=
  let whole := cs.takeWhile Char.isDigit
  let afterWhole := cs.dropWhile Char.isDigit
  let (fraction, rest) := match afterWhole with
    | '.' :: more => (more.takeWhile Char.isDigit, more.dropWhile Char.isDigit)
    | _ => ([], afterWhole)
  if whole.isEmpty ∧ fraction.isEmpty then none
  else (readExponent rest).map fun e =>
    ⟨digitsValue (digitsValue 0 whole) fraction, e - fraction.length⟩

/-- The value nearest to a decimal whose exponent may be far outside the format's
range. -/
def Decimal.clamped (d : Decimal) (negative : Bool) : Binary64 :=
  if d.digits = 0 then zero negative
  else if d.exponent > 400 then infinity negative
  else if (Nat.toDigits 10 d.digits).length + d.exponent < -400 then zero negative
  else d.toBinary64 negative

/-- The digit that a character stands for in bases up to sixteen. -/
def digitOf? (c : Char) : Option Nat :=
  if c.isDigit then some (c.toNat - '0'.toNat)
  else if 'a' ≤ c ∧ c ≤ 'f' then some (c.toNat - 'a'.toNat + 10)
  else if 'A' ≤ c ∧ c ≤ 'F' then some (c.toNat - 'A'.toNat + 10)
  else none

/-- The natural number that digits in a base stand for, continuing from `acc`. -/
def readBase (base : Nat) : (acc : Nat) → List Char → Option Nat
  | acc, [] => some acc
  | acc, c :: rest =>
    match digitOf? c with
    | some d => if d < base then readBase base (base * acc + d) rest else none
    | none => none

/-- The value of a whole number in a base; NaN when a digit is missing or too
large. -/
def ofDigits (base : Nat) (ds : List Char) : Binary64 :=
  if ds.isEmpty then nan
  else match readBase base 0 ds with
    | some n => ofNat n
    | none => nan

/-- The value of a decimal or an infinity, with an optional sign. -/
def ofSigned (cs : List Char) : Binary64 :=
  let (negative, body) := takeSign cs
  if body = "Infinity".toList then infinity negative
  else match readDecimal body with
    | some d => d.clamped negative
    | none => nan

/-- The characters without the blanks at either end. -/
def trimBlanks (cs : List Char) : List Char :=
  ((cs.dropWhile isBlank).reverse.dropWhile isBlank).reverse

/-- The value a text stands for; NaN when it is not the text of a number. -/
def ofText (s : String) : Binary64 :=
  match trimBlanks s.toList with
  | [] => 0
  | '0' :: c :: rest =>
    if c = 'x' ∨ c = 'X' then ofDigits 16 rest
    else if c = 'o' ∨ c = 'O' then ofDigits 8 rest
    else if c = 'b' ∨ c = 'B' then ofDigits 2 rest
    else ofSigned ('0' :: c :: rest)
  | cs => ofSigned cs

end Datapath.Binary64

import Datapath.Rule.Basic

/-!
# Datapath.Rule.Catalog

The catalog of rules for datapath equivalence.

A right side never chooses a width of its own: new width slots are computed from the
matched widths. The conditions make sure that no intermediate result is cut off. In
the patterns below a text stands for the variable of that name.
-/

namespace Datapath.Catalog

/-- A variable, given by its name. -/
local instance : Coe String Pattern := ⟨.var⟩

/-- The keyword for unsigned operands. -/
abbrev unsign : Pattern := .sign .unsigned

/-- Addition commutes: `a + b = b + a`. -/
def commuteAdd : Rule where
  name := "commute-add"
  lhs := .binary .add "wo" "wa" "sa" "a" "wb" "sb" "b"
  rhs := .binary .add "wo" "wb" "sb" "b" "wa" "sa" "a"
  condition := none
  lhs_consistent := by decide
  rhs_consistent := by decide
  rhs_bound := by decide
  condition_bound := by decide

/-- Multiplication commutes: `a * b = b * a`. -/
def commuteMul : Rule where
  name := "commute-mul"
  lhs := .binary .mul "wo" "wa" "sa" "a" "wb" "sb" "b"
  rhs := .binary .mul "wo" "wb" "sb" "b" "wa" "sa" "a"
  condition := none
  lhs_consistent := by decide
  rhs_consistent := by decide
  rhs_bound := by decide
  condition_bound := by decide

/-- Two left shifts are one: `(a << b) << c = a << (b + c)` for unsigned amounts
whose sum does not wrap, when the inner shift is not cut below the final width. -/
def mergeLeftShift : Rule where
  name := "merge-left-shift"
  lhs := .binary .shl "wo"
    "wab" "sa" (.binary .shl "wab" "wa" "sa" "a" "wb" unsign "b")
    "wc" unsign "c"
  rhs := .binary .shl "wo"
    "wa" "sa" "a"
    (.derived .sum "wb" "wc") unsign
      (.binary .add (.derived .sum "wb" "wc") "wb" unsign "b" "wc" unsign "c")
  condition := some (.reading ["wo", "wab"] fun w => (w "wab").ge (w "wo"))
  lhs_consistent := by decide
  rhs_consistent := by decide
  rhs_bound := by decide
  condition_bound := by decide

/-- A left shift by a sum is two: `a << (b + c) = (a << b) << c`, when the sum does
not wrap; the inner shift gets the least width that cannot overflow. -/
def unmergeLeftShift : Rule where
  name := "unmerge-left-shift"
  lhs := .binary .shl "wo"
    "wa" "sa" "a"
    "wbc" unsign (.binary .add "wbc" "wb" unsign "b" "wc" unsign "c")
  rhs := .binary .shl "wo"
    (.derived .shift "wa" "wb") "sa"
      (.binary .shl (.derived .shift "wa" "wb") "wa" "sa" "a" "wb" unsign "b")
    "wc" unsign "c"
  condition :=
    some (.reading ["wbc", "wb", "wc"] fun w => sumFits (w "wbc") (w "wb") (w "wc"))
  lhs_consistent := by decide
  rhs_consistent := by decide
  rhs_bound := by decide
  condition_bound := by decide

/-- Doubling is adding: `a * 2 = a + a`, when the two is not cut to something else,
as its width is enough for its sign or the result is no wider. -/
def multToAdd : Rule where
  name := "mult-to-add"
  lhs := .binary .mul "wo" "wa" "sa" "a" "wb" "sb" (.literal 2)
  rhs := .binary .add "wo" "wa" "sa" "a" "wa" "sa" "a"
  condition := some (.reading ["wb", "sb", "wo"] fun w =>
    ((w "sb").numEq (.ofNat Sign.unsigned.code) && (w "wb").gt 1)
      || ((w "sb").numEq (.ofNat Sign.signed.code) && (w "wb").gt 2)
      || (w "wo").le (w "wb"))
  lhs_consistent := by decide
  rhs_consistent := by decide
  rhs_bound := by decide
  condition_bound := by decide

/-- A shifted product is a product with a shifted factor:
`(a * b) << c = (a << c) * b` for unsigned operands, when neither order of evaluation
overflows. -/
def leftShiftMult : Rule where
  name := "left-shift-mult"
  lhs := .binary .shl "wo"
    "wab" unsign (.binary .mul "wab" "wa" unsign "a" "wb" unsign "b")
    "wc" unsign "c"
  rhs := .binary .mul "wo"
    (.derived .shift "wa" "wc") unsign
      (.binary .shl (.derived .shift "wa" "wc") "wa" unsign "a" "wc" unsign "c")
    "wb" unsign "b"
  condition := some (.reading ["wab", "wa", "wb", "wo", "wc"] fun w =>
    productFits (w "wab") (w "wa") (w "wb")
      && shiftFits (w "wo") (w "wab") (w "wc")
      && productFits (w "wo") (shiftWidth (w "wa") (w "wc")) (w "wb"))
  lhs_consistent := by decide
  rhs_consistent := by decide
  rhs_bound := by decide
  condition_bound := by decide

end Datapath.Catalog

namespace Datapath

/-- The catalog. -/
def catalog : List Rule :=
  [Catalog.commuteAdd, Catalog.commuteMul, Catalog.mergeLeftShift,
    Catalog.unmergeLeftShift, Catalog.multToAdd, Catalog.leftShiftMult]

/-- The first rule of a list with a given name. -/
def findRule? (rules : List Rule) (name : String) : Option Rule :=
  rules.find? (·.name = name)

end Datapath

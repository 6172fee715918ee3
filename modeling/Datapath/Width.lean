import Datapath.Binary64.Exp2

/-!
# Datapath.Width

Width arithmetic for bit-vector operations that cannot overflow.

`sumWidth` and `shiftWidth` are widths that hold every sum and every shifted value,
and `sumFits`, `productFits` and `shiftFits` ask whether a given output width is
enough. `WidthFn` names the two functions that may stand inside a term.
-/

namespace Datapath

open Binary64 (exp2 ge)

/-- The width of a sum that cannot wrap: one more than the wider operand. -/
def sumWidth (wa wb : Binary64) : Binary64 := Binary64.max wa wb + 1

/-- The width of a value shifted left by any number of `amountWidth` bits. -/
def shiftWidth (valueWidth amountWidth : Binary64) : Binary64 :=
  valueWidth + (exp2 amountWidth - 1)

/-- Whether `wo` bits hold every sum of a `wa`-bit and a `wb`-bit number. -/
def sumFits (wo wa wb : Binary64) : Bool := ge wo (sumWidth wa wb)

/-- Whether `wo` bits hold every product of a `wa`-bit and a `wb`-bit number. -/
def productFits (wo wa wb : Binary64) : Bool := ge wo (wa + wb)

/-- Whether `wo` bits hold every `valueWidth`-bit number shifted left by any number
of `amountWidth` bits. -/
def shiftFits (wo valueWidth amountWidth : Binary64) : Bool :=
  ge wo (shiftWidth valueWidth amountWidth)

/-- A width computed from two others inside a term. -/
inductive WidthFn
  /-- The width of a sum. -/
  | sum
  /-- The width of a left shift. -/
  | shift
  deriving DecidableEq, Repr

namespace WidthFn

/-- Both width functions. -/
def all : List WidthFn := [sum, shift]

/-- The name of a width function in a term. -/
def symbol : WidthFn → String
  | sum => "max+1"
  | shift => "wlsh"

/-- The width that a width function computes. -/
def eval : WidthFn → Binary64 → Binary64 → Binary64
  | sum => sumWidth
  | shift => shiftWidth

end WidthFn

end Datapath

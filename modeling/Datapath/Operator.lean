/-!
# Datapath.Operator

The operators and signs of width-annotated bit-vector arithmetic.

An operator has a `symbol`, written in terms, and a `name`, written in node keys. A
sign is a value like a width: unsigned counts as zero and signed as one.
-/

namespace Datapath

/-- A binary operator of bit-vector arithmetic. -/
inductive Operator
  /-- Addition. -/
  | add
  /-- Subtraction. -/
  | sub
  /-- Multiplication. -/
  | mul
  /-- Left shift. -/
  | shl
  /-- Logical right shift. -/
  | shr
  /-- Arithmetic right shift. -/
  | ashr
  deriving DecidableEq, Repr

namespace Operator

/-- Every operator. -/
def all : List Operator := [add, sub, mul, shl, shr, ashr]

/-- The symbol of an operator in a term. -/
def symbol : Operator → String
  | add => "+"
  | sub => "-"
  | mul => "*"
  | shl => "<<"
  | shr => ">>"
  | ashr => ">>>"

/-- The name of an operator in a key. -/
def name : Operator → String
  | add => "add"
  | sub => "sub"
  | mul => "mul"
  | shl => "shl"
  | shr => "shr"
  | ashr => "ashr"

end Operator

/-- How the bits of an operand are read. -/
inductive Sign
  /-- As a natural number. -/
  | unsigned
  /-- In two's complement. -/
  | signed
  deriving DecidableEq, Repr

namespace Sign

/-- The keyword for a sign in a term. -/
def keyword : Sign → String
  | unsigned => "unsign"
  | signed => "sign"

/-- The name of a sign in a key. -/
def name : Sign → String
  | unsigned => "unsigned"
  | signed => "signed"

/-- The number a sign counts as. -/
def code : Sign → Nat
  | unsigned => 0
  | signed => 1

end Sign

end Datapath

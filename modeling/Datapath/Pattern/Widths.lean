import Datapath.Pattern

/-!
# Datapath.Pattern.Widths

Consistency of declared widths.

Where an operand of a binary operation is itself a binary operation, the width
declared for the operand has to be written like the operand's own output width. Other
operands carry no width and are not compared. `Pattern.widthMismatch?` finds the
first violation: a node before its sub-patterns, the first operand before the second,
and sub-patterns in slot order.
-/

namespace Datapath

/-- An operand whose declared width is not its output width. -/
structure WidthMismatch where
  parent : Pattern
  child : Pattern
  declared : Pattern
  actual : Pattern
  deriving DecidableEq

/-- The message about a mismatch. -/
def WidthMismatch.message (m : WidthMismatch) : String :=
  s!"In `{m.parent.toText}`, subexpression `{m.child.toText}` has inconsistent width: "
    ++ s!"{m.declared.toText} != {m.actual.toText}"

namespace Pattern

/-- The mismatch of one operand, given the width that `parent` declares for it. -/
def operandMismatch? (parent declared : Pattern) : Pattern → Option WidthMismatch
  | child@(binary _ actual ..) =>
    if declared.sameText actual then none else some ⟨parent, child, declared, actual⟩
  | _ => none

/-- The mismatch of a node's own operands. -/
def ownMismatch? : Pattern → Option WidthMismatch
  | p@(binary _ _ wa _ a wb _ b) =>
    (operandMismatch? p wa a).or (operandMismatch? p wb b)
  | _ => none

/-- The first mismatch in a pattern. -/
def widthMismatch? : Pattern → Option WidthMismatch
  | var _ | literal _ | sign _ | symbol _ => none
  | derived _ left right => left.widthMismatch?.or right.widthMismatch?
  | binary op w wa sa a wb sb b =>
    (ownMismatch? (binary op w wa sa a wb sb b)).or <|
      w.widthMismatch?.or <| wa.widthMismatch?.or <| sa.widthMismatch?.or <|
        a.widthMismatch?.or <| wb.widthMismatch?.or <| sb.widthMismatch?.or
          b.widthMismatch?

/-- Accepts a pattern whose declared widths are consistent. -/
def checkWidths (p : Pattern) : Except WidthMismatch Unit :=
  match p.widthMismatch? with
  | none => pure ()
  | some mismatch => throw mismatch

end Pattern

end Datapath

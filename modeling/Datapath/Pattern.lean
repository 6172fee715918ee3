import Datapath.Binary64.Decimal
import Datapath.Operator
import Datapath.Width

/-!
# Datapath.Pattern

Width-annotated arithmetic terms with variables.

A binary operation has seven slots: its output width, and the width, the sign and the
expression of each operand. Widths and signs are patterns like any other, so a rule
can bind and compute them. A pattern without variables is a **ground term**.

* `Pattern.slots` lists the direct sub-patterns from left to right.
* `Pattern.vars` lists the variables in order of first appearance.
* `Pattern.toText` writes a pattern, and `Pattern.sameText` compares two by what is
  written.
-/

namespace Datapath

/-- A term over widths, signs and bit vectors in which variables may stand for whole
classes. -/
inductive Pattern
  /-- A variable, written `?name`. -/
  | var (name : String)
  /-- A literal number. -/
  | literal (value : Binary64)
  /-- A sign keyword. -/
  | sign (sign : Sign)
  /-- A named bit vector. -/
  | symbol (name : String)
  /-- A width computed from two others. -/
  | derived (fn : WidthFn) (left right : Pattern)
  /-- A binary operation with its output width and its two annotated operands. -/
  | binary (op : Operator) (width widthA signA exprA widthB signB exprB : Pattern)
  deriving DecidableEq

namespace Pattern

/-- The direct sub-patterns, from left to right. -/
def slots : Pattern → List Pattern
  | var _ | literal _ | sign _ | symbol _ => []
  | derived _ left right => [left, right]
  | binary _ w wa sa a wb sb b => [w, wa, sa, a, wb, sb, b]

/-! ## Variables -/

/-- The name at every occurrence of a variable, from left to right. -/
def occurrences : Pattern → List String
  | var name => [name]
  | literal _ | sign _ | symbol _ => []
  | derived _ left right => left.occurrences ++ right.occurrences
  | binary _ w wa sa a wb sb b =>
    w.occurrences ++ wa.occurrences ++ sa.occurrences ++ a.occurrences ++
      wb.occurrences ++ sb.occurrences ++ b.occurrences

/-- The variables of a pattern in order of first appearance. -/
def vars (p : Pattern) : List String := p.occurrences.eraseDups

@[simp] theorem mem_vars {p : Pattern} {name : String} :
    name ∈ p.vars ↔ name ∈ p.occurrences :=
  List.mem_eraseDups

/-! ## Text -/

/-- Puts the text of a pattern in front of other characters, so that a deep pattern
is written in one go. -/
def renderOnto : Pattern → List Char → List Char
  | var name, rest => '?' :: name.toList ++ rest
  | literal value, rest => value.render ++ rest
  | sign s, rest => s.keyword.toList ++ rest
  | symbol name, rest => name.toList ++ rest
  | derived fn left right, rest =>
    '(' :: fn.symbol.toList ++ ' ' ::
      left.renderOnto (' ' :: right.renderOnto (')' :: rest))
  | binary op w wa sa a wb sb b, rest =>
    '(' :: op.symbol.toList ++ ' ' ::
      w.renderOnto (' ' :: wa.renderOnto (' ' :: sa.renderOnto
      (' ' :: a.renderOnto
        (' ' :: wb.renderOnto (' ' :: sb.renderOnto (' ' :: b.renderOnto
        (')' :: rest)))))))

/-- The characters of a pattern's text. -/
def render (p : Pattern) : List Char := p.renderOnto []

theorem renderOnto_eq (p : Pattern) (rest : List Char) :
    p.renderOnto rest = p.render ++ rest := by
  have h (p : Pattern) : ∀ x y : List Char,
      p.renderOnto (x ++ y) = p.renderOnto x ++ y := by
    induction p with
    | var | literal | sign | symbol => simp [renderOnto]
    | derived fn left right hl hr =>
      intro x y
      simp only [renderOnto, ← List.cons_append, hl, hr, List.append_assoc]
    | binary op w wa sa a wb sb b hw hwa hsa ha hwb hsb hb =>
      intro x y
      simp only [renderOnto, ← List.cons_append, hw, hwa, hsa, ha, hwb, hsb, hb,
        List.append_assoc]
  simpa [render] using h p [] rest

/-- The text of a pattern. -/
def toText (p : Pattern) : String := String.ofList p.render

/-- Whether two patterns are written alike. -/
def sameText (p q : Pattern) : Bool := p.toText = q.toText

end Pattern

/-- Variables as messages name them: each after a question mark, separated by
commas. -/
def variableList (names : List String) : String :=
  ", ".intercalate (names.map ("?" ++ ·))

end Datapath

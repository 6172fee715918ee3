import Datapath.Pattern
import Datapath.Pattern.Token

/-!
# Datapath.Pattern.Reader

Reading patterns from text.

The grammar is that of fully parenthesised terms: an atom is one word, and a compound
is an opening parenthesis, the symbol of an operator or a width function, its
arguments, and a closing parenthesis. `Reader.run` reads it with a stack of the
compounds that are still open, so it is structural in the token list. An atom or a
closed compound becomes an argument of the innermost open compound, or a pattern of
the result when none is open.

A `SyntaxError` holds the text and the first fault found from left to right; the
number of arguments is only counted when a compound is closed.
-/

namespace Datapath

/-! ## Heads of compounds -/

/-- What stands after an opening parenthesis. -/
inductive Head
  /-- A width function of two arguments. -/
  | width (fn : WidthFn)
  /-- An operator with its seven slots. -/
  | arith (op : Operator)
  deriving DecidableEq, Repr

namespace Head

/-- The symbol of a head. -/
def symbol : Head → String
  | width fn => fn.symbol
  | arith op => op.symbol

/-- The number of arguments a head takes. -/
def arity : Head → Nat
  | width _ => 2
  | arith _ => 7

/-- Every head. -/
def all : List Head := Operator.all.map arith ++ WidthFn.all.map width

/-- The head with a given symbol. -/
def ofSymbol? (s : String) : Option Head := all.find? (·.symbol = s)

/-- The pattern of a head and its arguments, if their number is right. -/
def build? : Head → List Pattern → Option Pattern
  | width fn, [left, right] => some (.derived fn left right)
  | arith op, [w, wa, sa, a, wb, sb, b] => some (.binary op w wa sa a wb sb b)
  | _, _ => none

end Head

/-! ## Errors -/

/-- Why a text is not what was to be read. -/
inductive SyntaxFault
  /-- There is no pattern. -/
  | empty
  /-- A second pattern follows the first. -/
  | trailing (second : Pattern)
  /-- The text ends after an opening parenthesis. -/
  | missingHead
  /-- The text ends inside a compound. -/
  | unclosed
  /-- A compound has the wrong number of arguments. -/
  | wrongArity (head : Head) (found : Nat)
  /-- No operator or width function has this symbol. -/
  | unknownHead (symbol : String)
  /-- A parenthesis is closed that was not opened. -/
  | unopened
  /-- A question mark stands alone. -/
  | missingName
  /-- A word is no atom. -/
  | unknownWord (word : String)
  deriving DecidableEq

namespace SyntaxFault

/-- The description of a fault. -/
def message : SyntaxFault → String
  | empty => "Empty pattern"
  | trailing second => "Unexpected token after pattern: " ++ second.toText
  | missingHead => "Unexpected end of input"
  | unclosed => "Expected )"
  | wrongArity head found =>
    s!"Operator {head.symbol} expects {head.arity} arguments, got {found}"
  | unknownHead symbol => "Unknown operator: " ++ symbol
  | unopened => "Unexpected )"
  | missingName => "Missing variable name after ?"
  | unknownWord word => "Unexpected token: " ++ word

/-- The token a fault is about, if there is one. -/
def token? : SyntaxFault → Option String
  | empty | trailing _ | missingHead | unclosed => none
  | wrongArity head _ => some head.symbol
  | unknownHead symbol => some symbol
  | unopened => some ")"
  | missingName => some "?"
  | unknownWord word => some word

end SyntaxFault

/-- A text and the fault that keeps it from being read. -/
structure SyntaxError where
  input : String
  fault : SyntaxFault
  deriving DecidableEq

/-- The message of a syntax error. -/
def SyntaxError.message (e : SyntaxError) : String :=
  s!"Pattern syntax error in '{e.input}': {e.fault.message}"

/-! ## Atoms -/

/-- Whether a character may start a symbol. -/
def isSymbolStart (c : Char) : Bool := c.isAlpha || c = '_'

/-- Whether a character may follow in a symbol. -/
def isSymbolRest (c : Char) : Bool := c.isAlphanum || c = '_' || c = '.' || c = '$'

/-- Whether a word is a symbol name, given as its characters. -/
def isSymbolName : List Char → Bool
  | [] => false
  | c :: rest => isSymbolStart c && rest.all isSymbolRest

/-- Whether a word is a number, given as its characters. -/
def isNumeral (cs : List Char) : Bool := !cs.isEmpty && cs.all Char.isDigit

/-- The sign with a given keyword. -/
def Sign.ofKeyword? (s : String) : Option Sign :=
  [Sign.signed, .unsigned].find? (·.keyword = s)

/-- The atom that a word is. Numerals are read as the nearest value. -/
def atom (word : String) : Except SyntaxFault Pattern :=
  match word.toList with
  | ['?'] => throw .missingName
  | '?' :: name => pure (.var (String.ofList name))
  | cs =>
    if isNumeral cs then pure (.literal (Binary64.ofNat (Binary64.digitsValue 0 cs)))
    else match Sign.ofKeyword? word with
      | some s => pure (.sign s)
      | none =>
          if isSymbolName cs then pure (.symbol word) else throw (.unknownWord word)

/-! ## Compounds -/

namespace Reader

/-- A compound that has been opened and not yet closed, with its arguments so far,
the latest first. -/
structure Frame where
  head : Head
  args : List Pattern

/-- The open compounds, innermost first, and the patterns already read, the latest
first. -/
structure State where
  frames : List Frame
  done : List Pattern

/-- The state before the first token. -/
def State.start : State := ⟨[], []⟩

/-- Gives a pattern to the innermost open compound, or to the result. -/
def State.push (p : Pattern) : State → State
  | ⟨[], done⟩ => ⟨[], p :: done⟩
  | ⟨frame :: frames, done⟩ =>
      ⟨{ frame with args := p :: frame.args } :: frames, done⟩

/-- Opens a compound. -/
def State.enter (s : State) (symbol : String) : Except SyntaxFault State :=
  match Head.ofSymbol? symbol with
  | some head => pure ⟨⟨head, []⟩ :: s.frames, s.done⟩
  | none => throw (.unknownHead symbol)

/-- Closes the innermost open compound. -/
def State.leave : State → Except SyntaxFault State
  | ⟨[], _⟩ => throw .unopened
  | ⟨frame :: frames, done⟩ =>
    match frame.head.build? frame.args.reverse with
    | some p => pure (State.push p ⟨frames, done⟩)
    | none => throw (.wrongArity frame.head frame.args.length)

/-- The patterns once the tokens have ended. -/
def State.finish : State → Except SyntaxFault (List Pattern)
  | ⟨[], done⟩ => pure done.reverse
  | ⟨_ :: _, _⟩ => throw .unclosed

/-- Reads the remaining tokens. Whatever token follows an opening parenthesis is its
head. -/
def run : List Token → State → Except SyntaxFault (List Pattern)
  | [], s => s.finish
  | [.lparen], _ => throw .missingHead
  | .lparen :: head :: rest, s => do run rest (← s.enter head.text)
  | .rparen :: rest, s => do run rest (← s.leave)
  | .word w :: rest, s => do run rest (s.push (← atom w))

end Reader

/-- Reads a text as a sequence of patterns. -/
def Pattern.parseAll (input : String) : Except SyntaxError (List Pattern) :=
  (Reader.run (tokenize input) .start).mapError (⟨input, ·⟩)

/-- Reads a text as one pattern. -/
def Pattern.parse (input : String) : Except SyntaxError Pattern := do
  match ← parseAll input with
  | [] => throw ⟨input, .empty⟩
  | [p] => pure p
  | _ :: second :: _ => throw ⟨input, .trailing second⟩

end Datapath

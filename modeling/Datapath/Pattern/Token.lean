import Datapath.Text.Blank

/-!
# Datapath.Pattern.Token

The tokens of pattern text: each parenthesis, and each longest run of characters that
are neither blank nor parentheses.

`tokenize` folds the text from its end. The state of the fold is the word that starts
at the current position and the tokens after it, so every character is looked at
once.
-/

namespace Datapath

/-- A token of pattern text. -/
inductive Token
  /-- An opening parenthesis. -/
  | lparen
  /-- A closing parenthesis. -/
  | rparen
  /-- A longest run of other characters that are not blank. -/
  | word (text : String)
  deriving DecidableEq, Repr

namespace Token

/-- The characters of a token. -/
def text : Token → String
  | lparen => "("
  | rparen => ")"
  | word text => text

/-- The tokens once the word that starts here, possibly empty, has ended. -/
def flush (word : List Char) (rest : List Token) : List Token :=
  if word.isEmpty then rest else Token.word (String.ofList word) :: rest

/-- Puts one character in front of a word and the tokens after it. -/
def consChar (c : Char) (state : List Char × List Token) : List Char × List Token :=
  if isBlank c then ([], flush state.1 state.2)
  else if c = '(' then ([], lparen :: flush state.1 state.2)
  else if c = ')' then ([], rparen :: flush state.1 state.2)
  else (c :: state.1, state.2)

/-- The tokens of a list of characters. -/
def ofChars (cs : List Char) : List Token :=
  let state := cs.foldr consChar ([], [])
  flush state.1 state.2

end Token

/-- The tokens of a text. -/
def tokenize (s : String) : List Token := Token.ofChars s.toList

end Datapath

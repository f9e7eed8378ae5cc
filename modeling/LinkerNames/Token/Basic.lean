/-!
# Tokens

A signature is read as a row of lexemes, each a kind and a text. A token is a lexeme at its
place, counted in lines and columns from zero.
-/

namespace LinkerNames

/-- The kinds of lexemes. -/
inductive Lexeme.Kind
  | identifier
  | keyword
  | blank
  | punctuation
  | endOfInput
deriving DecidableEq, Repr

/-- A piece of text and the kind of thing it is. -/
structure Lexeme where
  kind : Lexeme.Kind
  text : String
deriving DecidableEq, Repr

/-- A line and a column, both counted from zero. -/
structure Place where
  line : Nat
  column : Nat
deriving DecidableEq, Repr

/-- A lexeme and the place where it begins. -/
structure Token extends Lexeme where
  place : Place
deriving DecidableEq, Repr

/-- The beginning of a text. -/
def Place.start : Place := ⟨0, 0⟩

/-- The name of a kind where a message says what could have stood at a place. -/
def Lexeme.Kind.description : Lexeme.Kind → String
  | .identifier => "identifier"
  | .keyword => "keyword"
  | .blank => "whitespace"
  | .punctuation => "op"
  | .endOfInput => "end of input"

/-- What ends every row of lexemes. -/
def Lexeme.finish : Lexeme := ⟨.endOfInput, ""⟩

end LinkerNames

import LinkerNames.Signature.Grammar
import LinkerNames.Signature.Snippet
import LinkerNames.Text.Quoted
/-!
# From a text to its phrase

`parse` reads a whole text as a signature. A text that is none is rejected at the first token
that cannot stand where it stands, with what could have stood there instead.
-/

namespace LinkerNames

/-- The sentence about a token that may not stand where it stands. -/
def unexpectedMessage (t : Token) (expected : List Expected) : String :=
  (if t.kind = .endOfInput then "Unexpected end of input"
    else "Unexpected token: " ++ Text.quoted t.text) ++
  (if expected = [] then ""
    else ", expected one of: " ++ Text.quotedList (expected.map (·.description)))

/-- Why a text is no signature: the token in question, what could have stood in its place, and
the part of the text around it. -/
structure Rejection where
  token : Token
  expected : List Expected
  context : String
deriving DecidableEq, Repr

namespace Rejection

/-- The rejection of a text at one of its tokens. -/
def ofToken (text : String) (token : Token) (expected : List Expected) : Rejection :=
  ⟨token, expected, snippet text token.place⟩

/-- The sentence that says what is wrong. -/
def message (r : Rejection) : String :=
  unexpectedMessage r.token r.expected

/-- Where it is wrong. -/
def place (r : Rejection) : Place :=
  r.token.place

end Rejection

/-- Why reading a text fails. -/
inductive ParseError
  | rejected (why : Rejection)
  /-- The reader went on behind the end of the input. -/
  | exhausted
deriving DecidableEq, Repr

/-- The signature that a text is. -/
def parse (text : String) : Except ParseError Phrase :=
  match Reader.signature (Cursor.ofText text) with
  | .ok phrase _ => .ok phrase
  | .error (.unexpected token expected) _ => .error (.rejected (.ofToken text token expected))
  | .error .exhausted _ => .error .exhausted

end LinkerNames

import LinkerNames.Token.Position
/-!
# Reading tokens

A cursor stands between the tokens that were read and those that are ahead. One may look ahead
as far as one likes: behind the end of the input there is the end of the input again. A reader
takes a cursor on or refuses, and keeps what it took before it refused.
-/

namespace LinkerNames

/-- The tokens ahead, and the end of the input, which is seen again wherever none is ahead. -/
structure Cursor where
  ahead : List Token
  finish : Token

namespace Cursor

/-- The cursor before the first token of a text. -/
def ofText (text : String) : Cursor :=
  let ts := tokens text
  ⟨ts, ts.getLastD ⟨.finish, .start⟩⟩

/-- The token `n` places ahead, the next one for zero. -/
def peekAt (c : Cursor) (n : Nat) : Token :=
  c.ahead.getD n c.finish

/-- The next token. -/
def peek (c : Cursor) : Token :=
  c.peekAt 0

/-- The next `n` tokens. -/
def peekMany (c : Cursor) (n : Nat) : List Token :=
  (List.range n).map c.peekAt

end Cursor

/-- What a reader hopes for: a token of a kind, or one with a text. -/
inductive Expected
  | kind (k : Lexeme.Kind)
  | text (s : String)
deriving DecidableEq, Repr

namespace Expected

/-- Whether a token is what was hoped for. -/
def admits (t : Token) : Expected → Bool
  | .kind k => t.kind == k
  | .text s => t.text == s

/-- The words for it in a message. -/
def description : Expected → String
  | .kind k => k.description
  | .text s => s

end Expected

/-- Why a reader refuses. -/
inductive Fault
  /-- The next token is none of those that may stand there. -/
  | unexpected (token : Token) (expected : List Expected)
  /-- A token was to be taken where even the end of the input was. -/
  | exhausted
deriving DecidableEq, Repr

/-- Takes a cursor on, or refuses where it came to. -/
abbrev Reader := EStateM Fault Cursor

namespace Reader

/-- The next token, not taken. -/
def peek : Reader Token := fun c => .ok c.peek c

/-- Takes the next token; the end of the input can be taken once. -/
def next : Reader Token := fun c =>
  match c.ahead with
  | [] => .error .exhausted c
  | t :: ts => .ok t { c with ahead := ts }

/-- Takes the next `n` tokens. -/
def take : Nat → Reader (List Token)
  | 0 => pure []
  | n + 1 => do
    let t ← next
    let ts ← take n
    return t :: ts

/-- Takes the tokens ahead as long as they satisfy `p`. -/
def takeWhile (p : Token → Bool) : Reader (List Token) := fun c =>
  .ok (c.ahead.takeWhile p) { c with ahead := c.ahead.dropWhile p }

/-- Takes all tokens ahead. -/
def rest : Reader (List Token) := fun c => .ok c.ahead { c with ahead := [] }

/-- Refuses the next token. -/
def refuse {α : Type} (expected : List Expected) : Reader α := fun c =>
  .error (.unexpected c.peek expected) c

/-- The next token if it is among those hoped for, not taken. -/
def check (expected : List Expected) : Reader Token := do
  let t ← peek
  if expected.any (·.admits t) then return t else refuse expected

/-- Takes the next token if it is among those hoped for. -/
def expect (expected : List Expected) : Reader Token := do
  let t ← check expected
  let _ ← next
  return t

end Reader
end LinkerNames

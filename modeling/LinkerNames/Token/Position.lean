import LinkerNames.Text.Lines
import LinkerNames.Token.Scan
/-!
# Places of tokens

`locate` gives each lexeme of a row its place: the one where the texts before it end. `tokens`
is the whole way from a text to what a reader of signatures looks at, blanks left out after
they have moved the places of what follows.
-/

namespace LinkerNames

/-- The place after a character at `p`: a line feed begins a line, a tab is as wide as it always
is, and everything else is one column wide. -/
def Place.next (p : Place) (c : Char) : Place :=
  if c = '\n' then ⟨p.line + 1, 0⟩
  else if c = '\t' then ⟨p.line, p.column + Text.tabWidth⟩
  else ⟨p.line, p.column + 1⟩

/-- The place after a text that begins at `p`. -/
def Place.after (p : Place) (cs : List Char) : Place :=
  cs.foldl Place.next p

/-- The lexemes with their places, the first of them at `p`. -/
def locateFrom (p : Place) : List Lexeme → List Token
  | [] => []
  | l :: ls => ⟨l, p⟩ :: locateFrom (p.after l.text.toList) ls

/-- The lexemes with their places, the first of them at the beginning of the text. -/
def locate (ls : List Lexeme) : List Token :=
  locateFrom .start ls

/-- All tokens of a text, runs of blanks among them. -/
def allTokens (text : String) : List Token :=
  locate (Lexeme.scan text.toList)

/-- Whether a token says something, as all but blanks do. -/
def Token.matters (t : Token) : Bool :=
  t.kind != .blank

/-- The tokens of a text that say something; the last of them is the end of the input. -/
def tokens (text : String) : List Token :=
  (allTokens text).filter Token.matters

theorem Place.after_append (p : Place) (cs ds : List Char) :
    p.after (cs ++ ds) = (p.after cs).after ds :=
  List.foldl_append

@[simp]
theorem map_toLexeme_locateFrom (p : Place) (ls : List Lexeme) :
    (locateFrom p ls).map Token.toLexeme = ls := by
  induction ls generalizing p with
  | nil => rfl
  | cons l ls ih => simp [locateFrom, ih]

end LinkerNames

import LinkerNames.Text.Lines
import LinkerNames.Token.Basic
/-!
# Pointing into a text

The part of a text that is shown with a message: the line in question, up to two lines before
it, and under them a row of dashes that ends in an arrow under the column.
-/

namespace LinkerNames

/-- The lines of a text as they are shown: parted at line feeds, with every tab expanded. -/
def shownLines (text : List Char) : List (List Char) :=
  Text.splitLines (Text.expandTabs text)

/-- The lines around a place: its own and at most two before it. -/
def linesAround (text : List Char) (line : Nat) : List (List Char) :=
  ((shownLines text).take (line + 1)).drop (line - 2)

/-- The row that points at a column. -/
def pointer (column : Nat) : List Char :=
  List.replicate column '-' ++ ['^']

/-- The lines around a place with the pointer to its column under them. -/
def snippet (text : String) (place : Place) : String :=
  .ofList (Text.joinLines (linesAround text.toList place.line ++ [pointer place.column]))

end LinkerNames

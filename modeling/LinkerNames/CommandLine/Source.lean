import LinkerNames.Text.Lines
import LinkerNames.Text.Spaces
/-!
# Signatures from lines

A file or a stream holds one signature a line. White space around it does not count; an empty
line and one that begins with a number sign hold none.
-/

namespace LinkerNames

/-- Whether a trimmed line holds a signature. -/
def holdsSignature (line : List Char) : Bool :=
  match line with
  | [] => false
  | c :: _ => c != '#'

/-- The signatures that some lines hold. -/
def signaturesOfLines (lines : List (List Char)) : List String :=
  ((lines.map Text.trim).filter holdsSignature).map String.ofList

/-- The signatures that a text holds, its lines parted at any kind of line break. -/
def signaturesOfText (text : String) : List String :=
  signaturesOfLines (Text.splitLines (Text.unifyBreaks text.toList))

end LinkerNames

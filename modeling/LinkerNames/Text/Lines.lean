/-!
# Lines and columns

Two ways to part a text into lines: `splitLines` at line feeds alone, for text that is shown
as it was given, and `unifyBreaks` before it, for text that is read from a file or a stream.
`expandTabs` gives a tab the eight columns that it counts for everywhere.
-/

namespace LinkerNames.Text

/-- The columns that a tab counts for, wherever it stands. -/
def tabWidth : Nat := 8

/-- The parts of a text between the separators; there is always one. -/
def splitAt (separator : Char) (cs : List Char) : List (List Char) :=
  cs.foldr (fun c parts => if c = separator then [] :: parts else parts.modifyHead (c :: ·)) [[]]

/-- The lines of a text, parted at each line feed and nowhere else. -/
def splitLines (cs : List Char) : List (List Char) :=
  splitAt '\n' cs

/-- The text with each tab written as the blanks that it counts for. -/
def expandTabs (cs : List Char) : List Char :=
  cs.flatMap fun c => if c = '\t' then List.replicate tabWidth ' ' else [c]

/-- The text with each line break, be it a line feed, a carriage return or the two together,
written as a line feed. -/
def unifyBreaks : List Char → List Char
  | [] => []
  | '\r' :: '\n' :: cs => '\n' :: unifyBreaks cs
  | c :: cs => (if c = '\r' then '\n' else c) :: unifyBreaks cs

/-- Lines put under each other, a line feed between two. -/
def joinLines (lines : List (List Char)) : List Char :=
  List.intercalate ['\n'] lines

/-- Lines put under each other, a line feed after each. -/
def unlines (lines : List String) : String :=
  String.join (lines.map (· ++ "\n"))

theorem splitAt_ne_nil (separator : Char) (cs : List Char) : splitAt separator cs ≠ [] := by
  induction cs with
  | nil => simp [splitAt]
  | cons c cs ih =>
    simp only [splitAt, List.foldr_cons] at ih ⊢
    split
    · simp
    · simpa using ih

end LinkerNames.Text

import LinkerNames.Text.Lines
/-!
# The files of a directory

A directory holds files and nothing else, and lies in other directories of which nothing is
known but that they are there. A path is walked step by step: a dot stays, two dots lead to where
the directory lies, and a name leads to a file when it is the last step.
-/

namespace LinkerNames

/-- Names of files and their texts. -/
abbrev Directory := List (String × String)

/-- Why a path leads to no file. -/
inductive PathFault
  /-- Nothing is there. -/
  | missing
  /-- A directory is there. -/
  | isDirectory
  /-- The path goes on behind a file. -/
  | notDirectory
  /-- The path, or a name in it, is longer than any can be. -/
  | tooLong
  /-- The path holds the character that ends paths. -/
  | holdsNul
deriving DecidableEq, Repr

/-- Where a walk has come to: to the directory, or to one that it lies in. -/
inductive Spot
  | here
  | above
deriving DecidableEq, Repr

/-- Where a path leads to: to the file of this name, be there such a file or not, or to a file
in another directory. -/
inductive Target
  | file (name : String)
  | elsewhere
deriving DecidableEq, Repr

namespace Directory

/-- The most bytes that a name has. -/
def maxNameSize : Nat := 255

/-- The most bytes that a path has. -/
def maxPathSize : Nat := 4095

/-- Whether there is a file of this name. -/
def holds (d : Directory) (name : String) : Bool :=
  d.any (·.1 == name)

/-- The steps of a path: what is between its slashes. -/
def steps (path : List Char) : List String :=
  ((Text.splitAt '/' path).filter (· ≠ [])).map String.ofList

/-- Takes a step after which the path goes on. -/
def enter (d : Directory) (spot : Spot) (step : String) : Except PathFault Spot :=
  if step = "." then .ok spot
  else if step = ".." then .ok .above
  else if maxNameSize < step.utf8ByteSize then .error .tooLong
  else if spot = .here ∧ d.holds step then .error .notDirectory
  else .error .missing

/-- Takes the last step. A slash after it asks for a directory. -/
def arrive (spot : Spot) (step : String) (slash : Bool) : Except PathFault Target :=
  if step = "." ∨ step = ".." ∨ slash then .error .isDirectory
  else if maxNameSize < step.utf8ByteSize then .error .tooLong
  else match spot with
    | .here => .ok (.file step)
    | .above => .ok .elsewhere

/-- Takes all steps of a path. -/
def walk (d : Directory) (spot : Spot) (slash : Bool) : List String → Except PathFault Target
  | [] => .error .isDirectory
  | [last] => arrive spot last slash
  | step :: steps =>
    match d.enter spot step with
    | .ok spot => d.walk spot slash steps
    | .error why => .error why

/-- Where a path leads to. A slash before its first step leads out of the directory. -/
def target (d : Directory) (path : String) : Except PathFault Target :=
  let cs := path.toList
  if '\x00' ∈ cs then .error .holdsNul
  else if cs = [] then .error .missing
  else if maxPathSize < path.utf8ByteSize then .error .tooLong
  else d.walk (if cs.head? = some '/' then .above else .here) (cs.getLast? = some '/') (steps cs)

/-- The text of the file that a path leads to. -/
def read (d : Directory) (path : String) : Except PathFault String := do
  match ← d.target path with
  | .elsewhere => throw .missing
  | .file name =>
    match d.lookup name with
    | some text => return text
    | none => throw .missing

/-- Gives a file a new text, or makes one after the others. -/
def write (d : Directory) (name text : String) : Directory :=
  if d.holds name then d.map fun file => if file.1 = name then (name, text) else file
  else d ++ [(name, text)]

/-- Gives the file that a path led to a new text, if it is one of the directory. -/
def writeTo (d : Directory) (target : Target) (text : String) : Directory :=
  match target with
  | .file name => d.write name text
  | .elsewhere => d

end Directory
end LinkerNames

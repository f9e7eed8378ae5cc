import LinkerNames.Encoding.TypeCode
import LinkerNames.Symbol.Display
/-!
# Encoding symbols

Linkers know the functions of a C++ program by names without blanks or punctuation. In such a
name a path is written between `N` and `E`, template arguments between `I` and `E`, arguments
follow the name of their function, and qualifiers come before what they qualify. A path element
that was written before is written as a reference back. The table of what was written goes from
element to element and from call to call, and keeps what it holds when encoding fails.

A member function that is `const` has the letter for it inside its name: it is pending until
the path of the name begins.
-/

namespace LinkerNames

/-- Why a symbol has no encoding. -/
inductive EncodeError
  /-- The symbol is of a kind that is not encoded. -/
  | unsupported (s : Symbol)
  /-- The name of a `const` function is no path, so there is no place for the letter. -/
  | constWithoutPath (callee : Symbol)
  /-- There is no symbol where one should be. -/
  | notSymbol (s : Symbol)
deriving DecidableEq

/-- The name of the kind of a symbol that is not encoded. -/
def Symbol.kindName : Symbol → String
  | .path _ => "Namespace"
  | .function .. => "Function"
  | .constructor _ => "Constructor"
  | .generic _ => "Generic"
  | .type _ => "Type"
  | .operator _ => "Operator"
  | .typed .. => "Typed"
  | .stray _ => "stray"

/-- The sentence about a symbol that has no encoding. -/
def EncodeError.message : EncodeError → String
  | .unsupported s => s.kindName ++ " symbols are not supported yet: " ++ s.displayed
  | .constWithoutPath callee => "A const function needs a qualified name: " ++ callee.displayed
  | .notSymbol s => "Not a symbol: " ++ s.displayed

/-- The path elements that were written, in the order in which they were finished. -/
abbrev Table := List Symbol

/-- The table with an element that is in it from now on. -/
def Table.record (t : Table) (s : Symbol) : Table :=
  if s ∈ t then t else t ++ [s]

/-- Writes something and adds to the table; when it fails, what it added stays. -/
abbrev Encoder := EStateM EncodeError Table

/-- The letter of a qualifier. -/
def Qualifier.letter : Qualifier → Char
  | .pointer => 'P'
  | .const => 'K'
  | .reference => 'R'

/-- The reference back to a path element. -/
def backReference : List Char := ['S', '_']

/-- A path from its elements: `const` comes before them. -/
def wrapPath (isConst : Bool) (elements : List Char) : List Char :=
  'N' :: (if isConst then ['K'] else []) ++ elements ++ ['E']

/-- Template arguments between their brackets. -/
def wrapGeneric (args : List Char) : List Char :=
  'I' :: args ++ ['E']

mutual
/-- Writes a symbol; `pending` says that the next path is the name of a `const` function. -/
def encode (pending : Bool) : Symbol → Encoder (List Char)
  | .path elements => do
    let inside ← encodeElements elements
    return wrapPath pending inside
  | .type name => return (encodeType name).toList
  | .generic args => do
    let inside ← encodeAll args
    return wrapGeneric inside
  | .function callee args => do
    if pending && !callee.isPath then throw (.constWithoutPath callee)
    let name ← encode pending callee
    let inside ← encodeAll args
    return name ++ inside
  | .typed inner qualifiers =>
    if inner.isFunction && qualifiers ≠ [] then encode true inner
    else do
      let inside ← encode pending inner
      return qualifiers.map Qualifier.letter ++ inside
  | .constructor args => throw (.unsupported (.constructor args))
  | .operator name => throw (.unsupported (.operator name))
  | .stray text => throw (.notSymbol (.stray text))

/-- Writes symbols one after the other, none of which is the name of a `const` function. -/
def encodeAll : List Symbol → Encoder (List Char)
  | [] => return []
  | s :: ss => do
    let first ← encode false s
    let others ← encodeAll ss
    return first ++ others

/-- Writes the elements of a path, those in the table as references back. -/
def encodeElements : List Symbol → Encoder (List Char)
  | [] => return []
  | s :: ss => do
    let table ← get
    if s ∈ table then
      let others ← encodeElements ss
      return backReference ++ others
    else
      let first ← encode false s
      modify (Table.record · s)
      let others ← encodeElements ss
      return first ++ others
end

/-- What a linker name begins with. -/
def linkerMark : List Char := ['_', 'Z']

/-- The linker name of a symbol. -/
def Symbol.linkerName (s : Symbol) : Except EncodeError String :=
  match encode false s [] with
  | .ok code _ => .ok (.ofList (linkerMark ++ code))
  | .error e _ => .error e

end LinkerNames

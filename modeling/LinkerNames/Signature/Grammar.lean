import LinkerNames.Signature.Phrase
import LinkerNames.Signature.Words
/-!
# Reading a signature

The readers follow the notation for functions of C++, in so far as it names them:

* a function is a path, a list of typed elements in round brackets, and perhaps `const`;
* a path is segments with `::` between them, a segment is a type that may have a list of typed
  elements in angle brackets;
* a typed element is an element with any number of the marks `const`, `*` and `&` after it;
* an element is a type or a path;
* a type is a name of the standard library that stands alone, the longest spelling of a builtin
  type that is there, or an identifier.

Paths hold lists and lists hold paths. The readers of lists are therefore given the reader of
paths, and `segments` ties the knot with a bound on the number of turns. Each turn takes a token
at least, so that a bound above the number of tokens ahead is never reached.
-/

namespace LinkerNames
namespace Reader

/-- The place where the next phrase begins. -/
def place : Reader Place := do
  let t ← peek
  return t.place

/-! ## Types -/

/-- The single word of a name of the standard library: its three tokens as one. -/
def standardWords : Reader (List Phrase) := do
  let start ← place
  let ts ← take 3
  return [⟨.word, String.join (ts.map (·.text)), start, []⟩]

/-- The words of the longest builtin type that comes next. -/
def builtinTypeWords : Reader (List Phrase) := do
  let n ← builtinLength
  let ts ← take n
  return ts.map (.leaf .word)

/-- An identifier that is no part of a builtin type. -/
def plainWords : Reader (List Phrase) := do
  let t ← expect [.kind .identifier]
  return [.leaf .word t]

/-- The words of a type. -/
def typeWords : Reader (List Phrase) := do
  let c ← get
  if c.atStandardName then standardWords
  else if c.peek.isBuiltinWord then builtinTypeWords
  else plainWords

/-- A type. -/
def type : Reader Phrase := do
  let start ← place
  let words ← typeWords
  return .branch .type start words

/-! ## Typed elements, given how a path is read -/

/-- The rule of a mark that may follow an element. -/
def markRule? (text : String) : Option Rule :=
  if text = "const" then some .const
  else if text = "*" then some .pointer
  else if text = "&" then some .reference
  else none

/-- The phrase of a mark. -/
def mark? (t : Token) : Option Phrase :=
  (markRule? t.text).map (.leaf · t)

/-- The marks that come next. -/
def marks : Reader (List Phrase) := do
  let ts ← takeWhile fun t => (mark? t).isSome
  return ts.filterMap mark?

/-- What a path means as an element: a path that is one plain type is that type. -/
def unwrap (path : Phrase) : Phrase :=
  match path.children with
  | [only] => if only.rule = .type then only else path
  | _ => path

/-- An element. -/
def elementWith (path : Reader Phrase) : Reader Phrase := do
  let p ← path
  return .branch .element p.place [unwrap p]

/-- An element and the marks after it. -/
def typedElementWith (path : Reader Phrase) : Reader Phrase := do
  let start ← place
  let inner ← elementWith path
  let after ← marks
  return .branch .typedElement start (inner :: after)

/-- One typed element or more, with commas between them and the closing bracket last. -/
def typedElementsWith (path : Reader Phrase) (closing : String) : Nat → Reader (List Phrase)
  | 0 => refuse [.kind .identifier]
  | turns + 1 => do
    let first ← typedElementWith path
    let t ← expect [.text ",", .text closing]
    if t.text = closing then return [first]
    else
      let others ← typedElementsWith path closing turns
      return first :: others

/-- A list of typed elements between brackets, perhaps empty. -/
def listWith (path : Reader Phrase) (opening closing : String) (turns : Nat) :
    Reader (List Phrase) := do
  let _ ← expect [.text opening]
  let t ← peek
  if t.text = closing then
    let _ ← next
    return []
  else typedElementsWith path closing turns

/-- The template arguments of a segment. -/
def genericWith (path : Reader Phrase) (turns : Nat) : Reader Phrase := do
  let start ← place
  let arguments ← listWith path "<" ">" turns
  return .branch .generic start arguments

/-! ## Paths -/

/-- A path, given how its segments are read. -/
def pathOf (segments : Reader (List Phrase)) : Reader Phrase := do
  let start ← place
  let parts ← segments
  return .branch .path start parts

/-- One segment: a type, and its template arguments if there are any. -/
def segmentWith (path : Reader Phrase) (turns : Nat) : Reader (List Phrase) := do
  let head ← type
  let t ← peek
  if t.text = "<" then
    let arguments ← genericWith path turns
    return [head, arguments]
  else return [head]

/-- The parts of all segments of a path. -/
def segments : Nat → Reader (List Phrase)
  | 0 => refuse [.kind .identifier]
  | turns + 1 => do
    let parts ← segmentWith (pathOf (segments turns)) turns
    let t ← peek
    if t.text = "::" then
      let _ ← next
      let others ← segments turns
      return parts ++ others
    else return parts

/-- More turns than there are tokens ahead. -/
def enough (c : Cursor) : Nat :=
  c.ahead.length + 1

/-- A path. -/
def path : Reader Phrase := pathOf fun c => segments (enough c) c

/-- A list of typed elements between brackets. -/
def list (opening closing : String) : Reader (List Phrase) := fun c =>
  listWith path opening closing (enough c) c

/-- Template arguments. -/
def generic : Reader Phrase := fun c => genericWith path (enough c) c

/-- An element. -/
def element : Reader Phrase := elementWith path

/-- An element and the marks after it. -/
def typedElement : Reader Phrase := typedElementWith path

/-! ## Functions -/

/-- The `const` after the arguments of a function. -/
def trailingConst : Reader (List Phrase) := do
  let t ← peek
  if t.text = "const" then
    let t ← next
    return [.leaf .const t]
  else return []

/-- A function. -/
def function : Reader Phrase := do
  let start ← place
  let name ← path
  let arguments ← list "(" ")"
  let after ← trailingConst
  return .branch .function start (name :: arguments ++ after)

/-- A function and nothing after it. -/
def signature : Reader Phrase := do
  let f ← function
  let _ ← expect [.kind .endOfInput]
  return f

end Reader
end LinkerNames

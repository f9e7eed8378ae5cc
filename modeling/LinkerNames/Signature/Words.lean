import LinkerNames.Token.Cursor
/-!
# The words of type names

The builtin types are spelled with one word or several, and a few names of the standard library
have codes of their own. What a row of words stands for is looked up here; the rest of a
signature is punctuation and names.
-/

namespace LinkerNames

/-- The words that builtin types are spelled with. -/
def builtinWords : List String :=
  ["void", "bool", "char", "wchar_t", "short", "int", "long", "float", "double", "signed",
    "unsigned", "__int128", "__float128"]

/-- The spellings of builtin types: each word alone, and these rows of words. -/
def builtinSpellings : List String :=
  builtinWords ++
    ["long double", "unsigned char", "signed char", "unsigned int", "signed int", "unsigned long",
      "signed long", "long int", "unsigned long int", "signed long int", "unsigned __int128",
      "unsigned short", "signed short", "short int", "unsigned short int", "signed short int",
      "long long", "unsigned long long", "signed long long", "long long int",
      "unsigned long long int", "signed long long int"]

/-- The most words that a spelling of a builtin type has. -/
def maxBuiltinWords : Nat := 4

/-- The names that mean a type of the standard library when they stand alone after `std::`. -/
def standardNames : List String :=
  ["string", "allocator", "basic_string", "iostream", "istream", "ostream"]

/-- One spelling from its words. -/
def spelling (words : List String) : String :=
  " ".intercalate words

/-- How many of the first `n` words, as many as possible, spell a builtin type. -/
def builtinLength? (words : List String) : Nat → Option Nat
  | 0 => none
  | n + 1 =>
    if spelling (words.take (n + 1)) ∈ builtinSpellings then some (n + 1)
    else builtinLength? words n

/-- Whether a token is a word of a builtin type. -/
def Token.isBuiltinWord (t : Token) : Bool :=
  t.kind == .identifier && t.text ∈ builtinWords

namespace Cursor

/-- The words of builtin types that come next, no more than a spelling can have. -/
def builtinRun (c : Cursor) : List String :=
  ((c.peekMany maxBuiltinWords).takeWhile Token.isBuiltinWord).map (·.text)

/-- Whether a name of the standard library comes next that stands alone: the path goes on after
it no further and it takes no template arguments. -/
def atStandardName (c : Cursor) : Bool :=
  let root := c.peekAt 0
  let name := c.peekAt 2
  let after := c.peekAt 3
  root.kind == .identifier && root.text == "std" && (c.peekAt 1).text == "::" &&
    name.kind == .identifier && name.text ∈ standardNames &&
    after.text != "::" && after.text != "<"

end Cursor

/-- The number of words in the longest spelling of a builtin type that comes next. -/
def Reader.builtinLength : Reader Nat := do
  let c ← get
  let words := c.builtinRun
  match builtinLength? words words.length with
  | some n => return n
  | none => refuse [.kind .identifier]

end LinkerNames

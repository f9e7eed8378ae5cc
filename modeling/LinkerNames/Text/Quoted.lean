import LinkerNames.Text.Printable
/-!
# Quoted text

A text is shown in single quotes, or in double quotes when it holds a single one and no double
one. The quote in use, the backslash and the three common controls are escaped by a backslash,
and what is not printable by the digits of its code point.
-/

namespace LinkerNames.Text

/-- The quote that is used where nothing speaks against it. -/
def singleQuote : Char := '\x27'

/-- The quote that spares a single one its escape. -/
def doubleQuote : Char := '\x22'

/-- What begins an escape. -/
def backslash : Char := '\x5c'

/-- The quote that a text is put between. -/
def quoteFor (cs : List Char) : Char :=
  if singleQuote ∈ cs ∧ doubleQuote ∉ cs then doubleQuote else singleQuote

/-- The last `width` hexadecimal digits of `n`, in lower case. -/
def hexDigits (width n : Nat) : List Char :=
  (List.range width).map fun i => Nat.digitChar (n / Nat.pow 16 (width - 1 - i) % 16)

/-- The code point of a character in the shortest escape that has room for it: two digits, four
or eight. -/
def escapeCode (c : Char) : List Char :=
  let n := c.toNat
  if n < 0x100 then backslash :: 'x' :: hexDigits 2 n
  else if n < 0x10000 then backslash :: 'u' :: hexDigits 4 n
  else backslash :: 'U' :: hexDigits 8 n

/-- A character as it is written between two `quote`s. -/
def escape (quote c : Char) : List Char :=
  if c = quote ∨ c = backslash then [backslash, c]
  else if c = '\n' then [backslash, 'n']
  else if c = '\r' then [backslash, 'r']
  else if c = '\t' then [backslash, 't']
  else if isPrintable c then [c]
  else escapeCode c

/-- A text between quotes. -/
def quote (cs : List Char) : List Char :=
  quoteFor cs :: cs.flatMap (escape (quoteFor cs)) ++ [quoteFor cs]

/-- A string between quotes. -/
def quoted (s : String) : String :=
  .ofList (quote s.toList)

/-- A list of strings, each between quotes, in square brackets. -/
def quotedList (ss : List String) : String :=
  "[" ++ ", ".intercalate (ss.map quoted) ++ "]"

end LinkerNames.Text

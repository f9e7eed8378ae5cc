/-!
# White space at the ends of a line

Lines are trimmed of every character that Unicode counts as white space, and of the four
information separators that end a text field. The blanks between the tokens of a signature
are a smaller set of their own.
-/

namespace LinkerNames.Text

/-- White space: tab to carriage return, the four information separators, the space, the
next-line control, and the separators of Unicode. -/
def isSpace (c : Char) : Bool :=
  let n := c.toNat
  (0x09 ≤ n && n ≤ 0x0d) || (0x1c ≤ n && n ≤ 0x20) || n == 0x85 || n == 0xa0 || n == 0x1680 ||
    (0x2000 ≤ n && n ≤ 0x200a) || n == 0x2028 || n == 0x2029 || n == 0x202f || n == 0x205f ||
    n == 0x3000

/-- The text without the white space at its two ends. -/
def trim (cs : List Char) : List Char :=
  ((cs.dropWhile isSpace).reverse.dropWhile isSpace).reverse

end LinkerNames.Text

import LinkerNames.Token.Basic
/-!
# Scanning a text into lexemes

`scan` cuts a text into the longest lexemes from left to right: runs of blanks, names, and
punctuation marks, of which `::` is the only one of two characters. A character that can stand
nowhere in a signature becomes a mark of its own, so that scanning never fails and a reader can
say where the character is. `flatMap_text_scan`: nothing of the text is lost or changed.
-/

namespace LinkerNames

/-- The characters that part tokens and mean nothing else. -/
def isBlank (c : Char) : Bool :=
  c == ' ' || c == '\t' || c == '\n' || c == '\r'

/-- What a name begins with: an ASCII letter or an underscore. -/
def isNameStart (c : Char) : Bool :=
  c.isAlpha || c == '_'

/-- What a name goes on with: also an ASCII digit. -/
def isNameChar (c : Char) : Bool :=
  isNameStart c || c.isDigit

/-- The names that are no identifiers. -/
def keywords : List String :=
  ["const", "operator"]

namespace Lexeme

/-- A name: a keyword if it is one of theirs, otherwise an identifier. -/
def ofName (text : String) : Lexeme :=
  ⟨if text ∈ keywords then .keyword else .identifier, text⟩

/-- The name that begins with `c`, whatever `c` is, and the rest of the text. -/
def nameFrom (c : Char) (cs : List Char) : Lexeme × List Char :=
  (ofName (.ofList (c :: cs.takeWhile isNameChar)), cs.dropWhile isNameChar)

/-- The name at the beginning of a text, of one character at least; none if there is no text. -/
def scanName? : List Char → Option (Lexeme × List Char)
  | [] => none
  | c :: cs => some (nameFrom c cs)

/-- The blanks that begin with `c`, and the rest of the text. -/
def blanksFrom (c : Char) (cs : List Char) : Lexeme × List Char :=
  (⟨.blank, .ofList (c :: cs.takeWhile isBlank)⟩, cs.dropWhile isBlank)

/-- The run of blanks at the beginning of a text; none if it begins with something else. -/
def scanBlanks? : List Char → Option (Lexeme × List Char)
  | [] => none
  | c :: cs => if isBlank c then some (blanksFrom c cs) else none

/-- The punctuation mark that begins with `c`, and the rest of the text. -/
def markFrom (c : Char) (cs : List Char) : Lexeme × List Char :=
  match c, cs with
  | ':', ':' :: rest => (⟨.punctuation, "::"⟩, rest)
  | _, _ => (⟨.punctuation, .ofList [c]⟩, cs)

/-- The first lexeme of a text that begins with `c`, and the rest of the text. -/
def first (c : Char) (cs : List Char) : Lexeme × List Char :=
  if isBlank c then blanksFrom c cs
  else if isNameStart c then nameFrom c cs
  else markFrom c cs

/-! ## Each lexeme takes at least one character -/

theorem length_dropWhile_le (p : Char → Bool) (cs : List Char) :
    (cs.dropWhile p).length ≤ cs.length :=
  (List.dropWhile_suffix p).length_le

theorem length_markFrom_le (c : Char) (cs : List Char) : (markFrom c cs).2.length ≤ cs.length := by
  unfold markFrom
  split <;> simp

theorem length_first_le (c : Char) (cs : List Char) : (first c cs).2.length ≤ cs.length := by
  unfold first
  split
  · exact length_dropWhile_le _ cs
  split
  · exact length_dropWhile_le _ cs
  · exact length_markFrom_le c cs

/-! ## Whole texts -/

/-- All lexemes of a text, runs of blanks among them, and the end of the input last. -/
def scan : List Char → List Lexeme
  | [] => [finish]
  | c :: cs => (first c cs).1 :: scan (first c cs).2
termination_by cs => cs.length
decreasing_by exact Nat.lt_succ_of_le (length_first_le c cs)

/-! ## Nothing is lost -/

theorem text_nameFrom (c : Char) (cs : List Char) :
    (nameFrom c cs).1.text.toList ++ (nameFrom c cs).2 = c :: cs := by
  simp [nameFrom, ofName]

theorem text_blanksFrom (c : Char) (cs : List Char) :
    (blanksFrom c cs).1.text.toList ++ (blanksFrom c cs).2 = c :: cs := by
  simp [blanksFrom]

theorem text_markFrom (c : Char) (cs : List Char) :
    (markFrom c cs).1.text.toList ++ (markFrom c cs).2 = c :: cs := by
  unfold markFrom
  split <;> simp

theorem text_first (c : Char) (cs : List Char) :
    (first c cs).1.text.toList ++ (first c cs).2 = c :: cs := by
  unfold first
  split
  · exact text_blanksFrom c cs
  split
  · exact text_nameFrom c cs
  · exact text_markFrom c cs

@[simp]
theorem scan_nil : scan [] = [finish] := by
  rw [scan]

theorem scan_cons (c : Char) (cs : List Char) :
    scan (c :: cs) = (first c cs).1 :: scan (first c cs).2 := by
  rw [scan]

/-- The texts of the lexemes, put together, are the text. -/
theorem flatMap_text_scan (cs : List Char) : (scan cs).flatMap (·.text.toList) = cs := by
  fun_induction scan cs with
  | case1 => rfl
  | case2 c cs ih => rw [List.flatMap_cons, ih, text_first]

end Lexeme
end LinkerNames

import LinkerNames.Proofs.Encoding.Walk
/-!
# Sketches

A sketch is a symbol as far as its encoding shows it: in place of each type name stands the text
that is written for it, and a path element may be left out for a reference back. `Sketch.print`
writes a sketch and keeps no table, so a sketch without references is written as a symbol would
be if nothing were ever referred to. `Symbol.sketch` leaves out the occurrences it is told to,
each by its place in the row of all occurrences.
-/

namespace LinkerNames

/-- A symbol as its encoding shows it. -/
inductive Sketch
  | path (elements : List Sketch)
  | function (callee : Sketch) (args : List Sketch)
  | generic (args : List Sketch)
  /-- What is written for a type name. -/
  | code (text : String)
  | typed (inner : Sketch) (qualifiers : List Qualifier)
  /-- A reference back in place of a path element. -/
  | reference
  /-- A symbol that has no encoding. -/
  | bare (s : Symbol)

namespace Sketch

/-- Whether a sketch is that of a function. -/
def isFunction : Sketch → Bool
  | .function .. => true
  | _ => false

/-- The letter for a qualifier. -/
def letter : Qualifier → Char
  | .pointer => 'P'
  | .const => 'K'
  | .reference => 'R'

mutual
/-- The text of a sketch, if the next path is the name of a `const` function in case of
`pending`. -/
def print (pending : Bool) : Sketch → List Char
  | .path elements => 'N' :: ((if pending then ['K'] else []) ++ (printAll elements ++ ['E']))
  | .function callee args => print pending callee ++ printAll args
  | .generic args => 'I' :: (printAll args ++ ['E'])
  | .code text => text.toList
  | .typed inner qualifiers =>
    if inner.isFunction && qualifiers ≠ [] then print true inner
    else qualifiers.map letter ++ print pending inner
  | .reference => ['S', '_']
  | .bare _ => []

/-- The texts of some sketches, one after the other. -/
def printAll : List Sketch → List Char
  | [] => []
  | k :: ks => print false k ++ printAll ks
end

/-! ## The letters of the encoder -/

theorem print_path (pending : Bool) (elements : List Sketch) :
    (path elements).print pending = wrapPath pending (printAll elements) := by
  simp [print, wrapPath]

theorem print_generic (pending : Bool) (args : List Sketch) :
    (generic args).print pending = wrapGeneric (printAll args) := by
  rw [print, wrapGeneric, List.cons_append]

theorem letter_eq : Qualifier.letter = letter := by
  funext q
  cases q <;> rfl

end Sketch

namespace Symbol

mutual
/-- The sketch of a symbol whose first occurrence of a path element has the number `n`: in place
of an element whose number is to be left out stands a reference, whatever is in it. -/
def sketch (leave : Nat → Bool) (n : Nat) : Symbol → Sketch
  | .path elements => .path (sketchElements leave n elements)
  | .function callee args =>
    .function (sketch leave n callee) (sketchAll leave (n + callee.occurrences.length) args)
  | .generic args => .generic (sketchAll leave n args)
  | .type name => .code (encodeType name)
  | .typed inner qualifiers => .typed (sketch leave n inner) qualifiers
  | .constructor args => .bare (.constructor args)
  | .operator name => .bare (.operator name)
  | .stray text => .bare (.stray text)

/-- The sketches of some symbols, one after the other. -/
def sketchAll (leave : Nat → Bool) (n : Nat) : List Symbol → List Sketch
  | [] => []
  | s :: ss => sketch leave n s :: sketchAll leave (n + s.occurrences.length) ss

/-- The sketches of the elements of a path. The number of an element comes after the numbers of
what stands in it. -/
def sketchElements (leave : Nat → Bool) (n : Nat) : List Symbol → List Sketch
  | [] => []
  | s :: ss =>
    (if leave (n + s.occurrences.length) then .reference else sketch leave n s) ::
      sketchElements leave (n + s.occurrences.length + 1) ss
end

@[simp]
theorem isFunction_sketch (leave : Nat → Bool) (n : Nat) (s : Symbol) :
    (s.sketch leave n).isFunction = s.isFunction := by
  cases s <;> rfl

end Symbol

/-- Whether the occurrence with the number `i` in a row is in the table already or is the same as
one that comes earlier in the row. -/
def repeats (t : Table) (row : List Symbol) (i : Nat) : Bool :=
  match row[i]? with
  | none => false
  | some e => e ∈ t ++ row.take i

/-- The sketch of a symbol with references for exactly those outermost path elements that were
there before: in the table, or among what ends earlier. -/
def Symbol.marked (t : Table) (s : Symbol) : Sketch :=
  s.sketch (repeats t s.occurrences) 0

end LinkerNames

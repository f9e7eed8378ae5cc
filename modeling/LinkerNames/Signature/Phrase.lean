import LinkerNames.Token.Basic
/-!
# Phrases

The tree that a signature is read as. Each phrase is made by one rule of the notation and begins
at the place of its first token. Only leaves carry text: the words of a type and the marks after
a typed element.
-/

namespace LinkerNames

/-- The rules of the notation. -/
inductive Rule
  | function
  | path
  | generic
  | type
  | word
  | element
  | typedElement
  | const
  | pointer
  | reference
deriving DecidableEq, Repr

/-- A part of a signature, the rule it was read by, and its own parts. -/
structure Phrase where
  rule : Rule
  text : String
  place : Place
  children : List Phrase
deriving Repr

namespace Phrase

/-- A phrase without parts that stands for one token. -/
def leaf (rule : Rule) (t : Token) : Phrase :=
  ⟨rule, t.text, t.place, []⟩

/-- A phrase that consists of its parts. -/
def branch (rule : Rule) (place : Place) (children : List Phrase) : Phrase :=
  ⟨rule, "", place, children⟩

end Phrase
end LinkerNames

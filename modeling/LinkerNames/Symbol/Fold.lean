import LinkerNames.Signature.Phrase
import LinkerNames.Signature.Words
import LinkerNames.Symbol.Basic
/-!
# From a phrase to its symbol

`Symbol.ofPhrase` says what a phrase means. It takes any tree, also one that no text is read
as, and names the first thing in it that has no meaning: a phrase before its parts where it can
tell, the parts from left to right.
-/

namespace LinkerNames

/-- The name of a rule in a message. -/
def Rule.name : Rule → String
  | .function => "Rule.function"
  | .path => "Rule.namespace"
  | .generic => "Rule.generic"
  | .type => "Rule.type_"
  | .word => "Rule.word"
  | .element => "Rule.element"
  | .typedElement => "Rule.ty_element"
  | .const => "Rule.const_"
  | .pointer => "Rule.ptr"
  | .reference => "Rule.ref_"

/-- Why a phrase has no meaning. -/
inductive FoldError
  /-- A function has no parts, so no name. -/
  | noCallee
  /-- A leaf stands where something with a meaning should. -/
  | meaningless (rule : Rule)
  /-- A phrase after an element is no mark. -/
  | notMark (rule : Rule)
  /-- A path has no elements. -/
  | emptyPath
  /-- An element has no parts. -/
  | emptyElement
  /-- A typed element has no parts. -/
  | emptyTypedElement
deriving DecidableEq, Repr

/-- The sentence about a phrase that has no meaning, where there is one. -/
def FoldError.message? : FoldError → Option String
  | .noCallee => some "Function parse node without a callee"
  | .meaningless rule => some ("Invalid parse node: " ++ rule.name)
  | .notMark rule => some ("Invalid type modifier: " ++ rule.name)
  | .emptyPath | .emptyElement | .emptyTypedElement => none

/-- The qualifier that a mark stands for. -/
def Qualifier.ofMark (p : Phrase) : Except FoldError Qualifier :=
  match p.rule with
  | .const => .ok .const
  | .pointer => .ok .pointer
  | .reference => .ok .reference
  | rule => .error (.notMark rule)

/-- The function as a member that leaves its object alone, if it is one. -/
def Symbol.constIf (isConst : Bool) (f : Symbol) : Symbol :=
  if isConst then .typed f [.const] else f

namespace Symbol

mutual
/-- What a phrase means. -/
def ofPhrase : Phrase → Except FoldError Symbol
  | ⟨.path, _, _, parts⟩ => do
    let elements ← ofPhrases parts
    match ofElements? elements with
    | some s => return s
    | none => throw .emptyPath
  | ⟨.function, _, _, []⟩ => throw .noCallee
  | ⟨.function, _, _, name :: others⟩ => do
    let callee ← ofPhrase name
    let (args, isConst) ← ofArguments others
    return constIf isConst (.function callee args)
  | ⟨.generic, _, _, parts⟩ => do
    let args ← ofPhrases parts
    return .generic args
  | ⟨.type, _, _, words⟩ => return .type (spelling (words.map (·.text)))
  | ⟨.element, _, _, []⟩ => throw .emptyElement
  | ⟨.element, _, _, inner :: _⟩ => ofPhrase inner
  | ⟨.typedElement, _, _, []⟩ => throw .emptyTypedElement
  | ⟨.typedElement, _, _, inner :: marks⟩ => do
    let s ← ofPhrase inner
    let qualifiers ← marks.mapM Qualifier.ofMark
    return .typed s qualifiers
  | ⟨rule, _, _, _⟩ => throw (.meaningless rule)

/-- What some phrases mean, each on its own. -/
def ofPhrases : List Phrase → Except FoldError (List Symbol)
  | [] => return []
  | p :: ps => do
    let s ← ofPhrase p
    let ss ← ofPhrases ps
    return s :: ss

/-- What the phrases after the name of a function mean: its arguments, and whether the last of
them is the `const` of a member. -/
def ofArguments : List Phrase → Except FoldError (List Symbol × Bool)
  | [] => return ([], false)
  | [⟨.const, _, _, _⟩] => return ([], true)
  | p :: ps => do
    let s ← ofPhrase p
    let (ss, isConst) ← ofArguments ps
    return (s :: ss, isConst)
end

end Symbol
end LinkerNames

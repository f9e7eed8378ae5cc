import LinkerNames.Symbol.Basic
import LinkerNames.Text.Quoted
/-!
# Symbols written out

The one-line form of a symbol: the name of its kind, and its fields in brackets with their
names. Lists of symbols stand in round brackets, a list of one with a comma after it.
-/

namespace LinkerNames

/-- A list in round brackets. -/
def roundList : List (List Char) → List Char
  | [] => "()".toList
  | [item] => '(' :: item ++ ",)".toList
  | items => '(' :: ", ".toList.intercalate items ++ [')']

/-- A qualifier by its name and its number. -/
def Qualifier.display : Qualifier → List Char
  | .reference => "<TypedElement.ref: 1>".toList
  | .pointer => "<TypedElement.ptr: 2>".toList
  | .const => "<TypedElement.const: 3>".toList

namespace Symbol

mutual
/-- The one-line form of a symbol. -/
def display : Symbol → List Char
  | .path elements => "Namespace(path=".toList ++ roundList (displayAll elements) ++ [')']
  | .function callee args =>
    "Function(callee=".toList ++ display callee ++ ", args=".toList ++ roundList (displayAll args) ++
      [')']
  | .constructor args => "Constructor(args=".toList ++ roundList (displayAll args) ++ [')']
  | .generic args => "Generic(args=".toList ++ roundList (displayAll args) ++ [')']
  | .type name => "Type(name=".toList ++ Text.quote name.toList ++ [')']
  | .operator name => "Operator(name=".toList ++ Text.quote name.toList ++ [')']
  | .typed inner qualifiers =>
    "Typed(inner=".toList ++ display inner ++ ", qualifiers=".toList ++
      roundList (qualifiers.map Qualifier.display) ++ [')']
  | .stray none => "None".toList
  | .stray (some text) => Text.quote text.toList

/-- The one-line forms of some symbols. -/
def displayAll : List Symbol → List (List Char)
  | [] => []
  | s :: ss => display s :: displayAll ss
end

theorem displayAll_eq_map (ss : List Symbol) : displayAll ss = ss.map display := by
  induction ss with
  | nil => rfl
  | cons s ss ih => simp [displayAll, ih]

/-- The one-line form of a symbol as a string. -/
def displayed (s : Symbol) : String :=
  .ofList s.display

end Symbol
end LinkerNames

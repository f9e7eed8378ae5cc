/-!
# Symbols

What a signature means, free of how it is spelled. Two symbols are the same when they are built
the same way from the same names: equality is structural and can be decided.
-/

namespace LinkerNames

/-- What a mark after a type says about it. -/
inductive Qualifier
  | reference
  | pointer
  | const
deriving DecidableEq, Repr

/-- A named thing of a program, or a part of its name. -/
inductive Symbol
  /-- The elements of a qualified name, outermost first. -/
  | path (elements : List Symbol)
  | function (callee : Symbol) (args : List Symbol)
  | constructor (args : List Symbol)
  /-- The template arguments of the element before it. -/
  | generic (args : List Symbol)
  /-- A type, or any other single name; the words of a builtin type have one space between two. -/
  | type (name : String)
  | operator (name : String)
  /-- A symbol with qualifiers, in the order of their marks. -/
  | typed (inner : Symbol) (qualifiers : List Qualifier)
  /-- A text, or nothing at all, that stands where a symbol should. -/
  | stray (text : Option String)
deriving Repr

namespace Symbol

mutual
/-- Decides whether two symbols are the same. -/
def decEq : (a b : Symbol) → Decidable (a = b)
  | .path xs, .path ys =>
    match decEqList xs ys with
    | .isTrue h => .isTrue (by rw [h])
    | .isFalse h => .isFalse (by simpa using h)
  | .function f xs, .function g ys =>
    match decEq f g, decEqList xs ys with
    | .isTrue hf, .isTrue hx => .isTrue (by rw [hf, hx])
    | .isFalse h, _ => .isFalse (by simp [h])
    | _, .isFalse h => .isFalse (by simp [h])
  | .constructor xs, .constructor ys =>
    match decEqList xs ys with
    | .isTrue h => .isTrue (by rw [h])
    | .isFalse h => .isFalse (by simpa using h)
  | .generic xs, .generic ys =>
    match decEqList xs ys with
    | .isTrue h => .isTrue (by rw [h])
    | .isFalse h => .isFalse (by simpa using h)
  | .type m, .type n =>
    if h : m = n then .isTrue (by rw [h]) else .isFalse (by simpa using h)
  | .operator m, .operator n =>
    if h : m = n then .isTrue (by rw [h]) else .isFalse (by simpa using h)
  | .typed s p, .typed t q =>
    match decEq s t with
    | .isTrue hs =>
      if hq : p = q then .isTrue (by rw [hs, hq]) else .isFalse (by simp [hq])
    | .isFalse h => .isFalse (by simp [h])
  | .stray s, .stray t =>
    if h : s = t then .isTrue (by rw [h]) else .isFalse (by simpa using h)
  | .path _, .function .. | .path _, .constructor _ | .path _, .generic _ | .path _, .type _
  | .path _, .operator _ | .path _, .typed .. | .path _, .stray _
  | .function .., .path _ | .function .., .constructor _ | .function .., .generic _
  | .function .., .type _ | .function .., .operator _ | .function .., .typed ..
  | .function .., .stray _
  | .constructor _, .path _ | .constructor _, .function .. | .constructor _, .generic _
  | .constructor _, .type _ | .constructor _, .operator _ | .constructor _, .typed ..
  | .constructor _, .stray _
  | .generic _, .path _ | .generic _, .function .. | .generic _, .constructor _
  | .generic _, .type _ | .generic _, .operator _ | .generic _, .typed .. | .generic _, .stray _
  | .type _, .path _ | .type _, .function .. | .type _, .constructor _ | .type _, .generic _
  | .type _, .operator _ | .type _, .typed .. | .type _, .stray _
  | .operator _, .path _ | .operator _, .function .. | .operator _, .constructor _
  | .operator _, .generic _ | .operator _, .type _ | .operator _, .typed .. | .operator _, .stray _
  | .typed .., .path _ | .typed .., .function .. | .typed .., .constructor _
  | .typed .., .generic _ | .typed .., .type _ | .typed .., .operator _ | .typed .., .stray _
  | .stray _, .path _ | .stray _, .function .. | .stray _, .constructor _ | .stray _, .generic _
  | .stray _, .type _ | .stray _, .operator _ | .stray _, .typed .. => .isFalse (by simp)

/-- Decides whether two lists hold the same symbols in the same order. -/
def decEqList : (as bs : List Symbol) → Decidable (as = bs)
  | [], [] => .isTrue rfl
  | [], _ :: _ | _ :: _, [] => .isFalse (by simp)
  | a :: as, b :: bs =>
    match decEq a b, decEqList as bs with
    | .isTrue h, .isTrue hs => .isTrue (by rw [h, hs])
    | .isFalse h, _ => .isFalse (by simp [h])
    | _, .isFalse h => .isFalse (by simp [h])
end

instance : DecidableEq Symbol := decEq

/-- The qualified name with these elements; there is none without any. -/
def ofElements? (elements : List Symbol) : Option Symbol :=
  if elements = [] then none else some (.path elements)

/-- Whether a symbol is a qualified name. -/
def isPath : Symbol → Bool
  | .path _ => true
  | _ => false

/-- Whether a symbol is a function. -/
def isFunction : Symbol → Bool
  | .function .. => true
  | _ => false

end Symbol
end LinkerNames

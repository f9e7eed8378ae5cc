import LinkerNames.Proofs.Encoding.Form
import LinkerNames.Proofs.Signature.Pieces
import LinkerNames.Proofs.Token.Joining
/-!
# A trailing `const`

A signature that ends with its arguments can be that of a member that leaves its object alone, with
one word more. The linker name has one letter more for it, directly inside the path of the name, and
is the same otherwise: what is said of the function is asked for by its name alone, and the
arguments find the same table as before.
-/

namespace LinkerNames

/-- A mark ends before any text. -/
theorem Lexeme.endsBefore_of_mark {w : String} (hw : w ∈ markTexts) (cs : List Char) :
    (Lexeme.ofText w).EndsBefore cs := by
  have hcolon : w ≠ ":" := by
    rintro rfl
    exact absurd hw (by decide)
  intro c _
  simp [Lexeme.ofText_mark w hw, Lexeme.takes, hcolon]

namespace Symbol

variable {t t' : Table} {callee : Symbol} {args : List Symbol} {text : List Char}

/-- A `const` function is written as the function is, with one letter more, and adds the same to the
table. -/
theorem encode_const_function (hpath : callee.isPath = true)
    (h : encode false (.function callee args) t = .ok text t') :
    ∃ inside, text = 'N' :: inside ∧
      encode true (.function callee args) t = .ok ('N' :: 'K' :: inside) t' := by
  obtain ⟨name, others, t₁, hname, hothers, rfl⟩ := encode_function_eq_ok hpath h
  cases callee with
  | path elements =>
    obtain ⟨inside, rfl, hinside⟩ := encode_path_eq_ok hname
    have hname' : encode true (.path elements) t = .ok (wrapPath true inside) t₁ := by
      rw [encode, EStateM.bind_of_ok hinside]
      rfl
    refine ⟨inside ++ 'E' :: others, by simp [wrapPath], ?_⟩
    rw [encode, hpath, Bool.not_true, Bool.and_false, if_neg (by simp)]
    refine (EStateM.bind_of_ok hname').trans ?_
    rw [EStateM.bind_of_ok hothers]
    simp [wrapPath]
  | function | constructor | generic | type | operator | typed | stray => cases hpath

theorem words_const (w : Blanks) : LinkerNames.words (.ofList w.1 ++ "const") = ["const"] :=
  (words_blanks_append w "const").trans (words_of_isWord (isWord_mark "const" (by simp)))

/-- With `const` behind it, the text of a function means the function as a member that leaves its
object alone. -/
theorem ofText_append_const {text : String} (h : ofText text = .ok (.function callee args))
    (hlast : (LinkerNames.words text).getLast? = some ")") (w : Blanks) :
    ofText (text ++ .ofList w.1 ++ "const") = .ok (.typed (.function callee args) [.const]) := by
  obtain ⟨hfits, hspellable, hwords⟩ := ofText_eq_ok_iff_words.1 h
  refine ofText_eq_ok_iff_words.2 ⟨?_, .typed hspellable nofun, ?_⟩
  · cases hfits with
    | function hcallee hargs => exact .constFunction hcallee hargs
  · rw [String.append_assoc, words_append, words_const, hwords]
    · rfl
    · rintro v hv
      obtain rfl : ")" = v := Option.some.inj (hlast.symm.trans hv)
      exact Lexeme.endsBefore_of_mark (by simp [markTexts]) _

end Symbol

/-! ## Main theorem -/

/-- A text that is accepted and has `)` for its last word is accepted with any blanks and `const`
behind it. It means the same function then, now said to be `const`. What is written for it has one
letter more, and so the linker name behind `_ZN`. Nothing else differs, nor does the table of what
can be referred back to. -/
theorem linkerName_trailing_const {text name : String} (h : linkerName text = .ok name)
    (hlast : (words text).getLast? = some ")") (w : Blanks) :
    ∃ callee args inside t,
      Symbol.ofText text = .ok (.function callee args) ∧
      Symbol.ofText (text ++ .ofList w.1 ++ "const") =
        .ok (.typed (.function callee args) [.const]) ∧
      encode false (.function callee args) [] = .ok ('N' :: inside) t ∧
      encode false (.typed (.function callee args) [.const]) [] = .ok ('N' :: 'K' :: inside) t ∧
      name = "_ZN" ++ String.ofList inside ∧
      linkerName (text ++ .ofList w.1 ++ "const") = .ok ("_ZNK" ++ String.ofList inside) := by
  obtain ⟨s, hs, hname⟩ := linkerName_eq_ok_iff.1 h
  obtain ⟨hfits, hspellable, hwords⟩ := Symbol.ofText_eq_ok_iff_words.1 hs
  obtain ⟨isConst, callee, args, rfl, hcallee, -⟩ := hfits.exists_constIf hspellable
  obtain rfl : isConst = false := Bool.eq_false_iff.2 fun hconst => by
    have hword := (Symbol.getLast?_words_constIf isConst callee args).2 hconst
    rw [← hwords, hlast] at hword
    exact absurd hword (by decide)
  have hconst := @Symbol.ofText_append_const callee args _ hs hlast w
  rw [Symbol.linkerName, Symbol.encode_constIf] at hname
  split at hname
  next code t hcode =>
    cases hname
    obtain ⟨inside, rfl, hcode'⟩ := Symbol.encode_const_function hcallee.isPath hcode
    have hmember : encode false (.typed (.function callee args) [.const]) [] =
        .ok ('N' :: 'K' :: inside) t := by
      rw [← hcode', ← Symbol.encode_constIf]
      rfl
    refine ⟨callee, args, inside, t, hs, hconst, hcode, hmember, ?_, ?_⟩
    · rw [← String.ofList_append]
      rfl
    · refine linkerName_eq_ok_iff.2 ⟨_, hconst, ?_⟩
      rw [Symbol.linkerName, hmember]
      refine congrArg Except.ok ?_
      rw [← String.ofList_append]
      rfl
  next => cases hname

/-- A line break and a tab before the `const`, and references back in the name and in an argument. -/
theorem linkerName_trailing_const_line_break :
    linkerName "a::b<c::a>::f(a::b<c *> const &, a)" = .ok "_ZN1a1bIN1cS_EE1fEKRNS_S_IP1cEE1a" ∧
      linkerName "a::b<c::a>::f(a::b<c *> const &, a)\r\n\tconst" =
        .ok "_ZNK1a1bIN1cS_EE1fEKRNS_S_IP1cEE1a" := by
  have hname : linkerName "a::b<c::a>::f(a::b<c *> const &, a)" =
      .ok "_ZN1a1bIN1cS_EE1fEKRNS_S_IP1cEE1a" :=
    Except.eq_ok_of_toOption (by decide +kernel)
  obtain ⟨callee, args, inside, t, -, -, -, -, hinside, hconst⟩ :=
    linkerName_trailing_const hname (by decide +kernel) ⟨['\r', '\n', '\t'], by decide⟩
  obtain rfl : "1a1bIN1cS_EE1fEKRNS_S_IP1cEE1a".toList = inside := by
    simpa using congrArg String.toList hinside
  exact ⟨hname, hconst⟩

end LinkerNames

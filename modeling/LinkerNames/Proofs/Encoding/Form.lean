import LinkerNames.Proofs.Encoding.Atoms
import LinkerNames.Proofs.Encoding.Total
import LinkerNames.Proofs.Symbol.Image
import Mathlib.Data.List.Forall2
/-!
# The form of linker names

Linker names have a grammar of their own, told here without symbols: what is written for a name is a
code or a name behind its length, a path is a row of elements between brackets, and a type is a name
or a path behind the letters of its qualifiers. What is written for a part of a signature has the
form of its role, whatever the table holds. From this a whole linker name has its form, with a type
for each argument (`linkerName_form`), and is made of letters, digits and underscores alone.
-/

namespace LinkerNames

/-! ## The grammar -/

/-- A number in decimal digits, with no zero in front. -/
structure IsNumeral (digits : List Char) (n : Nat) : Prop where
  isDigit : ∀ d ∈ digits, d.isDigit = true
  head_ne : ∀ d ∈ digits.head?, d ≠ '0'
  value : Nat.ofDigitChars 10 digits 0 = n

/-- What can stand in a linker name for a part of a signature, by the role of the part. -/
inductive Form : Role → List Char → Prop
  | code {entry : String × String} : entry ∈ typeCodes → Form .type entry.2.toList
  | name {digits : List Char} {name : String} : IsNumeral digits name.length → IsName name →
    name ∉ keywords → Form .type (digits ++ name.toList)
  | reference : Form .element ['S', '_']
  | elementName {w : List Char} : Form .type w → Form .element w
  | generic {types : List (List Char)} : (∀ w ∈ types, Form .argument w) →
    Form .element ('I' :: types.flatten ++ ['E'])
  | path {elements : List (List Char)} : elements ≠ [] → (∀ w ∈ elements, Form .element w) →
    Form .path ('N' :: elements.flatten ++ ['E'])
  | innerName {w : List Char} : Form .type w → Form .inner w
  | innerPath {w : List Char} : Form .path w → Form .inner w
  | argument {letters w : List Char} : (∀ c ∈ letters, c ∈ ['P', 'K', 'R']) → Form .inner w →
    Form .argument (letters ++ w)

/-- A text of the form of a linker name, with these types behind the path. -/
def IsLinkerName (isConst : Bool) (types : List (List Char)) (text : List Char) : Prop :=
  ∃ first elements, Form .type first ∧ (∀ w ∈ elements, Form .element w) ∧
    (∀ w ∈ types, Form .argument w) ∧
    text = ['_', 'Z', 'N'] ++ (if isConst then ['K'] else []) ++ first ++
      List.flatten elements ++ 'E' :: types.flatten

/-! ## Names -/

theorem head?_toDigits_ne {n : Nat} (hn : 0 < n) : ∀ d ∈ (Nat.toDigits 10 n).head?, d ≠ '0' := by
  induction n using Nat.strong_induction_on with
  | _ n ih =>
    intro d hd
    rw [Nat.toDigits_eq_if (by omega)] at hd
    split at hd
    next hlt =>
      cases hd
      have hall : ∀ m < 10, 0 < m → Nat.digitChar m ≠ '0' := by decide
      exact hall n hlt hn
    next hle =>
      -- The digits of a tenth come first, and there are some.
      rw [List.head?_append_of_ne_nil _ Nat.toDigits_ne_nil] at hd
      exact ih (n / 10) (by omega) (by omega) d hd

theorem isNumeral_toDigits {n : Nat} (hn : 0 < n) : IsNumeral (Nat.toDigits 10 n) n where
  isDigit _ hd := isDigit_of_mem_toDigits hd
  head_ne := head?_toDigits_ne hn
  value := Nat.ofDigitChars_ten_toDigits

theorem IsName.length_pos {name : String} (h : IsName name) : 0 < name.length := by
  obtain ⟨c, cs, htext, -⟩ := h
  rw [← String.length_toList, htext]
  exact Nat.succ_pos _

/-- What is written for the name of a type. -/
theorem IsTypeName.form {name : String} (h : IsTypeName name) :
    Form .type (encodeType name).toList := by
  cases hcode : typeCode? name with
  | some code =>
    rw [encodeType, hcode]
    exact .code (mem_typeCodes hcode)
  | none =>
    obtain ⟨hname, hkeyword⟩ := h.isName_of_no_code hcode
    rw [encodeType, hcode, Option.getD_none, toList_lengthPrefixed]
    exact .name (isNumeral_toDigits hname.length_pos) hname hkeyword

/-! ## What is written for parts of a signature -/

namespace Symbol

/-- This is written for a symbol when it comes up with some table. -/
def WrittenAs (s : Symbol) (text : List Char) : Prop :=
  ∃ t t', encode false s t = .ok text t'

variable {t t' : Table} {text : List Char}

theorem encodeAll_eq_ok {ss : List Symbol} (h : encodeAll ss t = .ok text t') :
    ∃ texts, text = List.flatten texts ∧ List.Forall₂ WrittenAs ss texts := by
  induction ss generalizing t text with
  | nil =>
    cases h
    exact ⟨[], rfl, .nil⟩
  | cons s ss ih =>
    rw [encodeAll, EStateM.bind_eq_ok_iff] at h
    obtain ⟨first, t₁, hfirst, h⟩ := h
    obtain ⟨others, t₂, hothers, h⟩ := EStateM.bind_eq_ok_iff.1 h
    cases h
    obtain ⟨texts, rfl, htexts⟩ := ih hothers
    exact ⟨first :: texts, rfl, .cons ⟨t, t₁, hfirst⟩ htexts⟩

/-- An element of a path is written, or referred to. -/
theorem encodeElements_eq_ok {ss : List Symbol} (h : encodeElements ss t = .ok text t') :
    ∃ texts, text = List.flatten texts ∧
      List.Forall₂ (fun s w => w = backReference ∨ WrittenAs s w) ss texts := by
  induction ss generalizing t text with
  | nil =>
    cases h
    exact ⟨[], rfl, .nil⟩
  | cons s ss ih =>
    rw [encodeElements, EStateM.bind_of_ok (show (get : Encoder Table) t = .ok t t from rfl)] at h
    split at h
    next =>
      obtain ⟨others, t₁, hothers, h⟩ := EStateM.bind_eq_ok_iff.1 h
      cases h
      obtain ⟨texts, rfl, htexts⟩ := ih hothers
      exact ⟨_ :: texts, rfl, .cons (.inl rfl) htexts⟩
    next =>
      obtain ⟨first, t₁, hfirst, h⟩ := EStateM.bind_eq_ok_iff.1 h
      obtain ⟨_, t₂, -, h⟩ := EStateM.bind_eq_ok_iff.1 h
      obtain ⟨others, t₃, hothers, h⟩ := EStateM.bind_eq_ok_iff.1 h
      cases h
      obtain ⟨texts, rfl, htexts⟩ := ih hothers
      exact ⟨first :: texts, rfl, .cons (.inr ⟨t, t₁, hfirst⟩) htexts⟩

theorem encode_path_eq_ok {pending : Bool} {es : List Symbol}
    (h : encode pending (.path es) t = .ok text t') :
    ∃ inside, text = wrapPath pending inside ∧ encodeElements es t = .ok inside t' := by
  rw [encode, EStateM.bind_eq_ok_iff] at h
  obtain ⟨inside, t₁, hinside, h⟩ := h
  cases h
  exact ⟨inside, rfl, hinside⟩

theorem encode_function_eq_ok {pending : Bool} {callee : Symbol} {args : List Symbol}
    (hpath : callee.isPath = true) (h : encode pending (.function callee args) t = .ok text t') :
    ∃ name inside t₁, encode pending callee t = .ok name t₁ ∧
      encodeAll args t₁ = .ok inside t' ∧ text = name ++ inside := by
  rw [encode, hpath, Bool.not_true, Bool.and_false, if_neg (by simp)] at h
  obtain ⟨name, t₁, hname, h⟩ := EStateM.bind_eq_ok_iff.1 h
  obtain ⟨inside, t₂, hinside, h⟩ := EStateM.bind_eq_ok_iff.1 h
  cases h
  exact ⟨name, inside, t₁, hname, hinside, rfl⟩

theorem letter_mem_codes (q : Qualifier) : q.letter ∈ ['P', 'K', 'R'] := by
  cases q <;> decide

/-- What is written for a part of a signature has the form of its role, with any table. -/
theorem Fits.form {role : Role} {s : Symbol} (h : Fits role s) (hrole : role ≠ .function)
    (hs : s.WrittenAs text) : Form role text := by
  induction h generalizing text with
  | type hname =>
    obtain ⟨t, t', h⟩ := hs
    cases h
    exact hname.form
  | elementType _ ih => exact .elementName (ih nofun hs)
  | innerType _ ih => exact .innerName (ih nofun hs)
  | innerPath _ ih => exact .innerPath (ih nofun hs)
  | generic _ ih =>
    obtain ⟨t, t', h⟩ := hs
    rw [encode, EStateM.bind_eq_ok_iff] at h
    obtain ⟨inside, t₁, hinside, h⟩ := h
    cases h
    obtain ⟨texts, rfl, htexts⟩ := encodeAll_eq_ok hinside
    refine .generic fun w hw => ?_
    obtain ⟨a, ha, haw⟩ := htexts.exists_of_mem_right hw
    exact ih a ha nofun haw
  | path hne _ ih =>
    obtain ⟨t, t', h⟩ := hs
    obtain ⟨_, rfl, hinside⟩ := encode_path_eq_ok h
    obtain ⟨texts, rfl, htexts⟩ := encodeElements_eq_ok hinside
    refine .path ?_ fun w hw => ?_
    · rintro rfl
      cases htexts
      exact hne rfl
    · obtain ⟨e, he, rfl | hew⟩ := htexts.exists_of_mem_right hw
      · exact .reference
      · exact ih e he nofun hew
  | @argument inner qualifiers hinner ih =>
    obtain ⟨t, t', h⟩ := hs
    rw [encode, hinner.isFunction_eq_false, Bool.false_and, if_neg (by simp),
      EStateM.bind_eq_ok_iff] at h
    obtain ⟨inside, t₁, hinside, h⟩ := h
    cases h
    refine .argument (fun c hc => ?_) (ih nofun ⟨t, t', hinside⟩)
    obtain ⟨q, -, rfl⟩ := List.mem_map.1 hc
    exact letter_mem_codes q
  | function | constFunction => exact absurd rfl hrole

/-- Before anything was written, a path begins with what is written for the name that it begins
with. -/
theorem encodeElements_eq_ok_of_isPathRow {es : List Symbol} (hrow : IsPathRow es)
    (hfits : ∀ e ∈ es, Fits .element e) (h : encodeElements es [] = .ok text t') :
    ∃ first others, text = first ++ List.flatten others ∧ Form .type first ∧
      ∀ w ∈ others, Form .element w := by
  obtain ⟨name, generics, others, rfl, hname, -⟩ := hrow.exists_segment hfits
  rw [encodeElements, EStateM.bind_of_ok (show (get : Encoder Table) [] = .ok [] [] from rfl),
    if_neg List.not_mem_nil] at h
  obtain ⟨_, t₁, hfirst, h⟩ := EStateM.bind_eq_ok_iff.1 h
  obtain ⟨_, t₂, -, h⟩ := EStateM.bind_eq_ok_iff.1 h
  obtain ⟨_, t₃, hothers, h⟩ := EStateM.bind_eq_ok_iff.1 h
  cases h
  cases hfirst
  obtain ⟨texts, rfl, htexts⟩ := encodeElements_eq_ok hothers
  refine ⟨_, texts, rfl, hname.form, fun w hw => ?_⟩
  obtain ⟨e, he, rfl | hew⟩ := htexts.exists_of_mem_right hw
  · exact .reference
  · exact (hfits e (List.mem_cons_of_mem _ he)).form nofun hew

/-- What is written first for a function is a linker name behind its mark, with a type for each
argument. -/
theorem isLinkerName_of_encode {isConst : Bool} {callee : Symbol} {args : List Symbol}
    (hcallee : Fits .path callee) (hspellable : callee.Spellable)
    (hargs : ∀ a ∈ args, Fits .argument a)
    (h : encode isConst (.function callee args) [] = .ok text t') :
    ∃ types, IsLinkerName isConst types (linkerMark ++ text) ∧
      List.Forall₂ WrittenAs args types := by
  obtain ⟨name, inside, t₁, hname, hinside, rfl⟩ := encode_function_eq_ok hcallee.isPath h
  obtain ⟨types, rfl, htypes⟩ := encodeAll_eq_ok hinside
  refine ⟨types, ?_, htypes⟩
  cases hcallee with
  | path hne hfits =>
    cases hspellable with
    | path hrow _ =>
      obtain ⟨elements, rfl, helements⟩ := encode_path_eq_ok hname
      obtain ⟨first, others, rfl, hfirst, hothers⟩ :=
        encodeElements_eq_ok_of_isPathRow hrow hfits helements
      refine ⟨first, others, hfirst, hothers, ?_, by simp [linkerMark, wrapPath]⟩
      intro w hw
      obtain ⟨a, ha, haw⟩ := htypes.exists_of_mem_right hw
      exact (hargs a ha).form (by rintro ⟨⟩) haw

/-- A function fit for a signature is one that leaves its object alone, or not. -/
theorem Fits.exists_constIf {s : Symbol} (h : Fits .function s) (hs : s.Spellable) :
    ∃ isConst callee args, s = constIf isConst (.function callee args) ∧ Fits .path callee ∧
      callee.Spellable ∧ ∀ a ∈ args, Fits .argument a := by
  cases h with
  | function hcallee hargs =>
    cases hs with
    | function hs _ => exact ⟨false, _, _, rfl, hcallee, hs, hargs⟩
  | constFunction hcallee hargs =>
    cases hs with
    | typed hs =>
      cases hs with
      | function hs _ => exact ⟨true, _, _, rfl, hcallee, hs, hargs⟩

theorem encode_constIf (isConst : Bool) (callee : Symbol) (args : List Symbol) :
    encode false (constIf isConst (.function callee args)) =
      encode isConst (.function callee args) := by
  cases isConst with
  | false => rfl
  | true => simp [constIf, encode, isFunction]

/-- The last word of a function says whether it leaves its object alone. -/
theorem getLast?_words_constIf (isConst : Bool) (callee : Symbol) (args : List Symbol) :
    (constIf isConst (.function callee args)).words.getLast? = some "const" ↔ isConst = true := by
  cases isConst <;> simp [constIf, words, Qualifier.word, List.getLast?_cons]

end Symbol

/-! ## Characters -/

theorem isNameChar_code : ∀ entry ∈ typeCodes, entry.2.toList.all isNameChar = true := by
  decide +kernel

theorem IsName.isNameChar {name : String} (h : IsName name) :
    ∀ c ∈ name.toList, isNameChar c = true := by
  obtain ⟨c, cs, htext, hc, hcs⟩ := h
  simp only [htext, List.mem_cons, forall_eq_or_imp]
  exact ⟨by simp [LinkerNames.isNameChar, hc], hcs⟩

theorem IsNumeral.isNameChar {digits : List Char} {n : Nat} (h : IsNumeral digits n) :
    ∀ c ∈ digits, isNameChar c = true := by
  intro c hc
  simp [LinkerNames.isNameChar, h.isDigit c hc]

theorem Form.isNameChar {role : Role} {text : List Char} (h : Form role text) :
    ∀ c ∈ text, isNameChar c = true := by
  have hletters : ∀ c ∈ ['P', 'K', 'R', 'N', 'I', 'E', 'S', '_'],
      LinkerNames.isNameChar c = true :=
    List.all_eq_true.1 (by decide)
  induction h with
  | code hmem => exact List.all_eq_true.1 (isNameChar_code _ hmem)
  | name hdigits hname _ =>
    intro c hc
    rcases List.mem_append.1 hc with hc | hc
    · exact hdigits.isNameChar c hc
    · exact hname.isNameChar c hc
  | reference => exact fun c hc => hletters c (by simp_all)
  | elementName _ ih | innerName _ ih | innerPath _ ih => exact ih
  | generic _ ih | path _ _ ih =>
    intro c hc
    simp only [List.cons_append, List.mem_cons, List.mem_append, List.mem_flatten,
      List.not_mem_nil, or_false] at hc
    rcases hc with rfl | ⟨w, hw, hc⟩ | rfl
    · exact hletters _ (by simp)
    · exact ih w hw c hc
    · exact hletters _ (by simp)
  | argument hq _ ih =>
    intro c hc
    rcases List.mem_append.1 hc with hc | hc
    · exact hletters c (List.mem_append_left ['N', 'I', 'E', 'S', '_'] (hq c hc))
    · exact ih c hc

/-- What is written for a name begins with a code or with a digit. -/
theorem Form.eq_cons_of_type {text : List Char} (h : Form .type text) :
    ∃ c cs, text = c :: cs ∧ c ≠ 'K' := by
  cases h with
  | @code entry hmem =>
    have hfixed : entry.2.toList ∈ fixedTexts :=
      List.mem_cons_of_mem _ (List.mem_map_of_mem (f := (·.2.toList)) hmem)
    obtain ⟨c, cs, htext, -, hc⟩ := fixedText_eq_cons hfixed
    refine ⟨c, cs, htext, ?_⟩
    rintro rfl
    exact hc (by decide)
  | @name digits name hdigits hname _ =>
    cases digits with
    | nil =>
      have hvalue := hdigits.value
      have hpos := hname.length_pos
      rw [Nat.ofDigitChars_nil] at hvalue
      omega
    | cons d ds =>
      refine ⟨d, ds ++ name.toList, rfl, ?_⟩
      rintro rfl
      exact absurd (hdigits.isDigit 'K' List.mem_cons_self) (by decide)

namespace IsLinkerName

variable {isConst : Bool} {types : List (List Char)} {text : List Char}

theorem isNameChar (h : IsLinkerName isConst types text) :
    ∀ c ∈ text, isNameChar c = true := by
  obtain ⟨first, elements, hfirst, helements, htypes, rfl⟩ := h
  have hletters : ∀ c ∈ ['_', 'Z', 'N', 'K', 'E'], LinkerNames.isNameChar c = true :=
    List.all_eq_true.1 (by decide)
  have hflatten {role : Role} {parts : List (List Char)} (hparts : ∀ w ∈ parts, Form role w) :
      ∀ c ∈ List.flatten parts, LinkerNames.isNameChar c = true := by
    intro c hc
    obtain ⟨w, hw, hc⟩ := List.mem_flatten.1 hc
    exact (hparts w hw).isNameChar c hc
  intro c hc
  simp only [List.mem_append] at hc
  rcases hc with (((hc | hc) | hc) | hc) | hc
  · exact hletters c (List.mem_append_left ['K', 'E'] hc)
  · exact hletters c (by cases isConst <;> simp_all)
  · exact hfirst.isNameChar c hc
  · exact hflatten helements c hc
  · rcases List.mem_cons.1 hc with rfl | hc
    · exact hletters _ (by simp)
    · exact hflatten htypes c hc

/-- The letter for `const` shows in the text. -/
theorem prefix_iff (h : IsLinkerName isConst types text) :
    ['_', 'Z', 'N', 'K'] <+: text ↔ isConst = true := by
  obtain ⟨first, elements, hfirst, -, -, rfl⟩ := h
  obtain ⟨c, cs, rfl, hc⟩ := hfirst.eq_cons_of_type
  cases isConst <;> simp [Ne.symm hc]

end IsLinkerName

/-! ## Main theorem -/

/-- Every accepted text has a linker name, made of letters, digits and underscores alone and of the
form of a linker name: behind its mark stand the elements of a path, of which the first is a name,
and behind the path one type for each argument, in their order. The letter for `const` comes first
in the path exactly when `const` is the last word of the text. -/
theorem linkerName_form {text : String} {p : Phrase} (h : parse text = .ok p) :
    ∃ name isConst callee args types, linkerName text = .ok name ∧
      Symbol.ofText text = .ok (.constIf isConst (.function callee args)) ∧
      (∀ c ∈ name.toList, isNameChar c = true) ∧
      IsLinkerName isConst types name.toList ∧
      List.Forall₂ Symbol.WrittenAs args types ∧
      (['_', 'Z', 'N', 'K'] <+: name.toList ↔ (words text).getLast? = some "const") ∧
      (isConst = true ↔ (words text).getLast? = some "const") := by
  obtain ⟨s, hs, -⟩ := exists_symbol_of_parse h
  have hmeans : Symbol.ofText text = .ok s := Symbol.ofText_eq_ok_iff.2 ⟨p, h, hs⟩
  obtain ⟨hfits, hspellable, hwords⟩ := Symbol.ofText_eq_ok_iff_words.1 hmeans
  obtain ⟨isConst, callee, args, rfl, hcallee, hspellable, hargs⟩ :=
    hfits.exists_constIf hspellable
  have hconst : (words text).getLast? = some "const" ↔ isConst = true := by
    rw [hwords]
    exact Symbol.getLast?_words_constIf isConst callee args
  have hname : linkerName text =
      (Symbol.constIf isConst (.function callee args)).linkerName.mapError .encode := by
    rw [linkerName, hmeans]
    rfl
  have hencoded := hfits.linkerName_eq
  rw [Symbol.linkerName, Symbol.encode_constIf] at hencoded
  cases hcode : encode isConst (.function callee args) [] with
  | error e t' =>
    rw [hcode] at hencoded
    cases hencoded
  | ok code t' =>
    obtain ⟨types, hform, htypes⟩ := Symbol.isLinkerName_of_encode hcallee hspellable hargs hcode
    refine ⟨.ofList (linkerMark ++ code), isConst, callee, args, types, ?_, hmeans, ?_⟩
    · rw [hname, Symbol.linkerName, Symbol.encode_constIf, hcode]
      rfl
    · rw [String.toList_ofList]
      exact ⟨hform.isNameChar, hform, htypes, hform.prefix_iff.trans hconst.symm, hconst.symm⟩

/-- Two arguments of a member that leaves its object alone, with template arguments and references
back. -/
theorem linkerName_form_templates : ∃ types,
    linkerName "N::Map<unsigned  long long int>::N::f(std::string const*, N::A<char>&) const" =
        .ok "_ZNK1N3MapIyES_1fEKPSsRNS_1AIcEE" ∧
      IsLinkerName true types "_ZNK1N3MapIyES_1fEKPSsRNS_1AIcEE".toList ∧ types.length = 2 := by
  have hmeans : Symbol.ofText
      "N::Map<unsigned  long long int>::N::f(std::string const*, N::A<char>&) const" =
        .ok (.constIf true (.function
          (.path [.type "N", .type "Map", .generic [.typed (.type "unsigned long long int") []],
            .type "N", .type "f"])
          [.typed (.type "std::string") [.const, .pointer],
            .typed (.path [.type "N", .type "A", .generic [.typed (.type "char") []]])
              [.reference]])) :=
    Except.eq_ok_of_toOption (by decide +kernel)
  have hlinked : linkerName
      "N::Map<unsigned  long long int>::N::f(std::string const*, N::A<char>&) const" =
        .ok "_ZNK1N3MapIyES_1fEKPSsRNS_1AIcEE" :=
    Except.eq_ok_of_toOption (by decide +kernel)
  obtain ⟨p, hp, -⟩ := Symbol.ofText_eq_ok_iff.1 hmeans
  obtain ⟨name, isConst, callee, args, types, hname, hsymbol, -, hform, htypes, -, hconst⟩ :=
    linkerName_form hp
  obtain rfl : "_ZNK1N3MapIyES_1fEKPSsRNS_1AIcEE" = name :=
    Except.ok.inj (hlinked.symm.trans hname)
  obtain rfl : isConst = true := hconst.2 (by decide +kernel)
  have hinj := Except.ok.inj (hmeans.symm.trans hsymbol)
  simp only [Symbol.constIf, if_true, Symbol.typed.injEq, Symbol.function.injEq, and_true] at hinj
  refine ⟨types, hlinked, hform, ?_⟩
  rw [← htypes.length_eq, ← hinj.2]
  rfl

end LinkerNames

import LinkerNames.Proofs.Encoding.TrailingConst
/-!
# Further arguments

The arguments of a signature can be followed by those of another. Nothing that was written before
changes then: the further arguments find the table that the first have left, and what is written for
them comes behind. So the linker name goes on where it ended (`linkerName_further_arguments`).
-/

namespace LinkerNames

/-! ## Words -/

/-- A round bracket or a comma begins a lexeme of its own, whatever comes before. -/
theorem Lexeme.endsBefore_punctuation {w : String} (hw : w ∈ ["(", ",", ")"]) (l : Lexeme)
    (cs : List Char) : l.EndsBefore (w.toList ++ cs) := by
  obtain ⟨c, hc, hblank, hname, hcolon⟩ : ∃ c, w.toList = [c] ∧ isBlank c = false ∧
      isNameChar c = false ∧ c ≠ ':' := by
    simp only [List.mem_cons, List.not_mem_nil, or_false] at hw
    rcases hw with rfl | rfl | rfl
    · exact ⟨'(', by decide⟩
    · exact ⟨',', by decide⟩
    · exact ⟨')', by decide⟩
  rw [hc]
  rintro _ ⟨⟩
  unfold takes
  split
  · exact hblank
  · exact hname
  · exact hname
  · simp [hcolon]
  · rfl

/-- A round bracket or a comma parts the words of a text into those before it and those behind. -/
theorem words_append_punctuation {w : String} (hw : w ∈ ["(", ",", ")"]) (text text' : String) :
    words (text ++ w ++ text') = words text ++ w :: words text' := by
  have hmark : w ∈ markTexts := (by simp [markTexts] : ["(", ",", ")"] ⊆ markTexts) hw
  have hword : words w = [w] := by
    refine words_of_isWord (Symbol.isWord_mark w ?_)
    exact (by simp : ["(", ",", ")"] ⊆ ["::", ",", "(", ")", "<", ">", "&", "*", "const"]) hw
  rw [String.append_assoc, words_append, words_append, hword, List.singleton_append]
  · intro v hv
    rw [hword] at hv
    obtain rfl : w = v := Option.some.inj hv
    exact Lexeme.endsBefore_of_mark hmark _
  · intro v _
    rw [String.toList_append]
    exact Lexeme.endsBefore_punctuation hw _ _

theorem words_append_closing (text : String) : words (text ++ ")") = words text ++ [")"] := by
  have hempty : words "" = [] := by decide +kernel
  have hclosed := words_append_punctuation (w := ")") (by simp) text ""
  rwa [String.append_empty, hempty] at hclosed

/-- A name of a type that begins with another word than the names of builtin types and of the
standard library is a single word. -/
theorem IsTypeName.eq_nil_of_words {name w : String} {ws : List String} (h : IsTypeName name)
    (hwords : words name = w :: ws) (hbuiltin : w ∉ builtinWords) (hstd : w ≠ "std") : ws = [] := by
  cases h with
  | builtin h =>
    obtain ⟨-, hall, -⟩ := words_builtin _ h
    exact absurd (hall w (hwords ▸ List.mem_cons_self)) hbuiltin
  | standard h =>
    rw [words_standard _ h] at hwords
    exact absurd (List.cons.inj hwords).1.symm hstd
  | plain hname hkeyword =>
    rw [words_plain hname hkeyword] at hwords
    exact (List.cons.inj hwords).2.symm

namespace Symbol

variable {t t' : Table} {callee : Symbol} {args args' : List Symbol} {text : List Char}

/-- The elements of a path behind the first begin with a mark. -/
theorem head?_elementWords {es : List Symbol} (hfits : ∀ e ∈ es, Fits .element e) :
    ∀ w ∈ (elementWords es).head?, w ∈ ["::", "<"] := by
  cases es with
  | nil => nofun
  | cons e es =>
    cases hfits e List.mem_cons_self with
    | elementType htype =>
      cases htype with
      | type => rintro _ ⟨⟩; decide
    | generic => rintro _ ⟨⟩; decide

/-- A path with a bracket behind its first word is that word alone. -/
theorem words_path_of_append {w : String} {ws ws' : List String} (hcallee : Fits .path callee)
    (hspellable : callee.Spellable) (hbuiltin : w ∉ builtinWords) (hstd : w ≠ "std")
    (h : callee.words ++ "(" :: ws = w :: "(" :: ws') : callee = .path [.type w] ∧ ws = ws' := by
  cases hcallee with
  | path hne hfits =>
    cases hspellable with
    | path hrow _ =>
      obtain ⟨name, generics, others, rfl, hname, -⟩ := hrow.exists_segment hfits
      have hhead := head?_elementWords fun e he => hfits e (List.mem_cons_of_mem _ he)
      obtain ⟨v, vs, hv⟩ := List.exists_cons_of_ne_nil hname.words_ne_nil
      change (LinkerNames.words name ++ elementWords (generics ++ others)) ++ _ = _ at h
      rw [hv, List.cons_append, List.cons_append, List.append_assoc, List.cons.injEq] at h
      obtain ⟨rfl, h⟩ := h
      obtain rfl := hname.eq_nil_of_words hv hbuiltin hstd
      -- A bracket begins no element, so there are none behind the first.
      cases hwords : elementWords (generics ++ others) with
      | nil =>
        rw [hwords] at h
        rw [eq_nil_of_elementWords hwords, hname.eq_of_words hv]
        exact ⟨rfl, (List.cons.inj h).2⟩
      | cons x xs =>
        rw [hwords] at h
        obtain rfl : x = "(" := (List.cons.inj h).1
        exact absurd (hhead "(" (by rw [hwords]; rfl)) (by decide)

theorem argumentWords_eq_cons (hne : args ≠ []) :
    argumentWords args = "," :: (argumentWords args).tail := by
  cases args with
  | nil => exact absurd rfl hne
  | cons => rfl

/-! ## Encoding -/

theorem encodeAll_append_eq_ok {ss ts : List Symbol} (h : encodeAll (ss ++ ts) t = .ok text t') :
    ∃ first rest t₁, encodeAll ss t = .ok first t₁ ∧ encodeAll ts t₁ = .ok rest t' ∧
      text = first ++ rest := by
  induction ss generalizing t text with
  | nil => exact ⟨[], text, t, rfl, h, rfl⟩
  | cons s ss ih =>
    rw [List.cons_append, encodeAll, EStateM.bind_eq_ok_iff] at h
    obtain ⟨w, t₁, hw, h⟩ := h
    obtain ⟨ws, t₂, hws, h⟩ := EStateM.bind_eq_ok_iff.1 h
    cases h
    obtain ⟨first, rest, t₃, hfirst, hrest, rfl⟩ := ih hws
    refine ⟨w ++ first, rest, t₃, ?_, hrest, (List.append_assoc _ _ _).symm⟩
    rw [encodeAll, EStateM.bind_of_ok hw, EStateM.bind_of_ok hfirst]
    rfl

/-- What is written for a function goes on with what is written for its last arguments, which find
the table that all before them have left. -/
theorem encode_function_append_eq_ok {pending : Bool} (hpath : callee.isPath = true)
    (h : encode pending (.function callee (args ++ args')) t = .ok text t') :
    ∃ first rest t₁, encode pending (.function callee args) t = .ok first t₁ ∧
      encodeAll args' t₁ = .ok rest t' ∧ text = first ++ rest := by
  obtain ⟨name, inside, t₁, hname, hinside, rfl⟩ := encode_function_eq_ok hpath h
  obtain ⟨first, rest, t₂, hfirst, hrest, rfl⟩ := encodeAll_append_eq_ok hinside
  refine ⟨name ++ first, rest, t₂, ?_, hrest, (List.append_assoc _ _ _).symm⟩
  rw [encode, hpath, Bool.not_true, Bool.and_false, if_neg (by simp)]
  refine (EStateM.bind_of_ok hname).trans ?_
  rw [EStateM.bind_of_ok hfirst]
  rfl

end Symbol

/-! ## Signatures that can go on -/

/-- A text is the signature of a function with at least one argument. -/
def TakesArguments (text : String) : Prop :=
  ∃ isConst callee args,
    Symbol.ofText text = .ok (.constIf isConst (.function callee args)) ∧ args ≠ []

/-- A text that a bracket closes to the signature of a function with at least one argument. -/
structure IsOpen (text : String) (callee : Symbol) (args : List Symbol) : Prop where
  ne_nil : args ≠ []
  fits : Symbol.Fits .function (.function callee args)
  spellable : Symbol.Spellable (.function callee args)
  words_eq : words text = callee.words ++ "(" :: (Symbol.argumentWords args).tail

/-- The bracket is the last word, so nothing more is said of the function. -/
theorem TakesArguments.exists_isOpen {text : String} (h : TakesArguments (text ++ ")")) :
    ∃ callee args, IsOpen text callee args := by
  obtain ⟨isConst, callee, args, hs, hne⟩ := h
  obtain ⟨hfits, hspellable, hwords⟩ := Symbol.ofText_eq_ok_iff_words.1 hs
  rw [words_append_closing] at hwords
  -- If the function were said to be `const`, that would be the last word.
  obtain rfl : isConst = false := Bool.eq_false_iff.2 fun hconst => by
    have hlast := (Symbol.getLast?_words_constIf isConst callee args).2 hconst
    rw [← hwords, List.getLast?_concat] at hlast
    exact absurd hlast (by decide)
  refine ⟨callee, args, hne, hfits, hspellable, List.append_cancel_right (hwords.trans ?_)⟩
  simp [Symbol.constIf, Symbol.words]

namespace IsOpen

variable {text further : String} {callee callee' : Symbol} {args args' : List Symbol}

theorem ofText (h : IsOpen text callee args) :
    Symbol.ofText (text ++ ")") = .ok (.function callee args) := by
  refine Symbol.ofText_eq_ok_iff_words.2 ⟨h.fits, h.spellable, ?_⟩
  rw [words_append_closing, h.words_eq]
  simp [Symbol.words]

/-- Arguments are taken from one signature to another with all their words. -/
theorem append (h : IsOpen text callee args) (h' : IsOpen ("f(" ++ further) callee' args') :
    callee' = .path [.type "f"] ∧ IsOpen (text ++ "," ++ further) callee (args ++ args') := by
  obtain ⟨hne, hfits, hspellable, hwords⟩ := h
  obtain ⟨hne', hfits', hspellable', hwords'⟩ := h'
  cases hfits with
  | function hcallee hargs =>
    cases hspellable with
    | function hspellable hspellables =>
      cases hfits' with
      | function hcallee' hargs' =>
        cases hspellable' with
        | function hspellable' hspellables' =>
          have hname : words "f" = ["f"] := by decide +kernel
          have hopening := words_append_punctuation (w := "(") (by simp) "f" further
          rw [hname] at hopening
          obtain ⟨hf, hfurther⟩ := Symbol.words_path_of_append hcallee' hspellable' (by decide)
            (by decide) (hwords'.symm.trans hopening)
          refine ⟨hf, by simp [hne], .function hcallee ?_, .function hspellable ?_, ?_⟩
          · exact fun a ha => (List.mem_append.1 ha).elim (hargs a) (hargs' a)
          · exact fun a ha => (List.mem_append.1 ha).elim (hspellables a) (hspellables' a)
          · rw [words_append_punctuation (by simp), hwords, ← hfurther,
              Symbol.argumentWords_append, Symbol.argumentWords_eq_cons hne,
              Symbol.argumentWords_eq_cons hne']
            simp

end IsOpen

/-! ## Main theorem -/

/-- Let a bracket close a text to a signature, and another text be what stands between the brackets
of a signature, with at least one argument each. Put together, with a comma in between, they are
closed to a signature of the first function with all arguments. What is written for it begins with
what is written for the function without the further arguments. These find the table that is left,
and what is written for them comes behind; so the one linker name begins the other. -/
theorem linkerName_further_arguments {text further : String} (h : TakesArguments (text ++ ")"))
    (h' : TakesArguments ("f(" ++ further ++ ")")) :
    ∃ callee args args' name rest t t',
      Symbol.ofText (text ++ ")") = .ok (.function callee args) ∧
      Symbol.ofText ("f(" ++ further ++ ")") = .ok (.function (.path [.type "f"]) args') ∧
      Symbol.ofText (text ++ "," ++ further ++ ")") = .ok (.function callee (args ++ args')) ∧
      encode false (.function callee args) [] = .ok name t ∧
      encode false (.function callee (args ++ args')) [] = .ok (name ++ rest) t' ∧
      encodeAll args' t = .ok rest t' ∧
      linkerName (text ++ ")") = .ok ("_Z" ++ String.ofList name) ∧
      linkerName (text ++ "," ++ further ++ ")") =
        .ok ("_Z" ++ String.ofList name ++ String.ofList rest) := by
  obtain ⟨callee, args, hopen⟩ := h.exists_isOpen
  obtain ⟨callee', args', hopen'⟩ := h'.exists_isOpen
  obtain ⟨rfl, hboth⟩ := hopen.append hopen'
  have hlinker := hboth.fits.linkerName_eq
  rw [Symbol.linkerName] at hlinker
  split at hlinker
  next code t' hcode =>
    have hpath : callee.isPath = true := by
      cases hopen.fits with
      | function hcallee _ => exact hcallee.isPath
    obtain ⟨name, rest, t, hname, hrest, rfl⟩ := Symbol.encode_function_append_eq_ok hpath hcode
    refine ⟨callee, args, args', name, rest, t, t', hopen.ofText, hopen'.ofText, hboth.ofText,
      hname, hcode, hrest, ?_, ?_⟩
    · refine linkerName_eq_ok_iff.2 ⟨_, hopen.ofText, ?_⟩
      rw [Symbol.linkerName, hname]
      exact congrArg Except.ok String.ofList_append
    · refine linkerName_eq_ok_iff.2 ⟨_, hboth.ofText, ?_⟩
      rw [Symbol.linkerName, hcode]
      refine congrArg Except.ok ?_
      rw [String.append_assoc, ← String.ofList_append]
      exact String.ofList_append
  next => cases hlinker

/-- The further arguments refer back to elements of the first. -/
theorem linkerName_further_arguments_referring :
    linkerName ("a::f(a::b<a::c> *" ++ ")") = .ok "_ZN1a1fEPNS_1bINS_1cEEE" ∧
      linkerName ("a::f(a::b<a::c> *" ++ "," ++ "c::b, a::c const &" ++ ")") =
        .ok "_ZN1a1fEPNS_1bINS_1cEEENS_S_EKRNS_S_E" ∧
      ∃ rest, "_ZN1a1fEPNS_1bINS_1cEEENS_S_EKRNS_S_E" =
        "_ZN1a1fEPNS_1bINS_1cEEE" ++ String.ofList rest := by
  have hfirst : Symbol.ofText ("a::f(a::b<a::c> *" ++ ")") = .ok (.constIf false
      (.function (.path [.type "a", .type "f"])
        [.typed (.path [.type "a", .type "b",
          .generic [.typed (.path [.type "a", .type "c"]) []]]) [.pointer]])) :=
    Except.eq_ok_of_toOption (by decide +kernel)
  have hfurther : Symbol.ofText ("f(" ++ "c::b, a::c const &" ++ ")") = .ok (.constIf false
      (.function (.path [.type "f"]) [.typed (.path [.type "c", .type "b"]) [],
        .typed (.path [.type "a", .type "c"]) [.const, .reference]])) :=
    Except.eq_ok_of_toOption (by decide +kernel)
  have hname : linkerName ("a::f(a::b<a::c> *" ++ ")") = .ok "_ZN1a1fEPNS_1bINS_1cEEE" :=
    Except.eq_ok_of_toOption (by decide +kernel)
  have hname' : linkerName ("a::f(a::b<a::c> *" ++ "," ++ "c::b, a::c const &" ++ ")") =
      .ok "_ZN1a1fEPNS_1bINS_1cEEENS_S_EKRNS_S_E" :=
    Except.eq_ok_of_toOption (by decide +kernel)
  obtain ⟨_, _, _, name, rest, _, _, -, -, -, -, -, -, hfirst, hboth⟩ :=
    linkerName_further_arguments ⟨_, _, _, hfirst, List.cons_ne_nil _ _⟩
      ⟨_, _, _, hfurther, List.cons_ne_nil _ _⟩
  refine ⟨hname, hname', rest, ?_⟩
  rw [Except.ok.inj (hname.symm.trans hfirst)]
  exact Except.ok.inj (hname'.symm.trans hboth)

end LinkerNames

import LinkerNames.Proofs.Encoding.Repetition
/-!
# Wrappers that say nothing

A wrapper without qualifiers writes nothing, wherever it stands. Still it can show. The encoder asks
whether qualifiers are said of a function, and whether the name of a `const` function is a path, and
a wrapper is neither. And it compares the elements of paths as they are built, so an element in a
wrapper is another element than the one without.

That is all. Where wrappers leave alone what is said of functions, they change neither whether there
is a linker name nor what it is, but for the elements that repeat an earlier one: the names are the
same if and only if these are the same (`linkerName_rewrapped`).
-/

namespace LinkerNames
namespace Symbol

/-- Whether a symbol is a function with a path for its name. -/
def hasPath : Symbol → Bool
  | .function callee _ => callee.isPath
  | _ => false

/-- Both are functions or none is, with paths for their names or without. -/
structure FunctionAlike (s s' : Symbol) : Prop where
  isFunction : s'.isFunction = s.isFunction
  hasPath : s'.hasPath = s.hasPath

/-- The second symbol is the first with wrappers without qualifiers around any of what stands in it,
or around all of it. `Said` is to hold of what other qualifiers are said of, before and after. -/
inductive Rewrapped (Said : Symbol → Symbol → Prop) : Symbol → Symbol → Prop
  | wrapper {s s' : Symbol} : Rewrapped Said s s' → Rewrapped Said s (.typed s' [])
  | path {es : List (Symbol × Symbol)} : (∀ e ∈ es, Rewrapped Said e.1 e.2) →
    Rewrapped Said (.path (es.map (·.1))) (.path (es.map (·.2)))
  | function {callee callee' : Symbol} {args : List (Symbol × Symbol)} :
    Rewrapped Said callee callee' → (∀ a ∈ args, Rewrapped Said a.1 a.2) →
    Rewrapped Said (.function callee (args.map (·.1))) (.function callee' (args.map (·.2)))
  | constructor {args : List (Symbol × Symbol)} : (∀ a ∈ args, Rewrapped Said a.1 a.2) →
    Rewrapped Said (.constructor (args.map (·.1))) (.constructor (args.map (·.2)))
  | generic {args : List (Symbol × Symbol)} : (∀ a ∈ args, Rewrapped Said a.1 a.2) →
    Rewrapped Said (.generic (args.map (·.1))) (.generic (args.map (·.2)))
  | type {name : String} : Rewrapped Said (.type name) (.type name)
  | operator {name : String} : Rewrapped Said (.operator name) (.operator name)
  | typed {inner inner' : Symbol} {qualifiers : List Qualifier} : Rewrapped Said inner inner' →
    (qualifiers ≠ [] → Said inner inner') →
    Rewrapped Said (.typed inner qualifiers) (.typed inner' qualifiers)
  | stray {text : Option String} : Rewrapped Said (.stray text) (.stray text)

end Symbol

/-- The same reason, with its symbol rewrapped. -/
inductive EncodeError.Rewrapped (Said : Symbol → Symbol → Prop) : EncodeError → EncodeError → Prop
  | unsupported {s s' : Symbol} : s.Rewrapped Said s' →
    Rewrapped Said (.unsupported s) (.unsupported s')
  | constWithoutPath {callee callee' : Symbol} : callee.Rewrapped Said callee' →
    Rewrapped Said (.constWithoutPath callee) (.constWithoutPath callee')
  | notSymbol {s s' : Symbol} : s.Rewrapped Said s' → Rewrapped Said (.notSymbol s) (.notSymbol s')

namespace Symbol

variable {Said : Symbol → Symbol → Prop} {s s' : Symbol}

/-! ## What is refused -/

/-- Of two rows of pairs of reasons, the first reasons belong together. -/
theorem rel_or {R : EncodeError → EncodeError → Prop} {a a' b b' : Option EncodeError}
    (h : Option.Rel R a a') (h' : Option.Rel R b b') : Option.Rel R (a.or b) (a'.or b') := by
  cases h with
  | some hab => exact .some hab
  | none => exact h'

theorem rel_findSome?_allParts {R : EncodeError → EncodeError → Prop} {ss : List (Symbol × Symbol)}
    (ih : ∀ s ∈ ss, Option.Rel R ((s.1.parts false).findSome? Part.offence?)
      ((s.2.parts false).findSome? Part.offence?)) :
    Option.Rel R ((allParts (ss.map (·.1))).findSome? Part.offence?)
      ((allParts (ss.map (·.2))).findSome? Part.offence?) := by
  induction ss with
  | nil => exact .none
  | cons s ss ihs =>
    rw [List.map_cons, List.map_cons, allParts, allParts, List.findSome?_append,
      List.findSome?_append]
    exact rel_or (ih s List.mem_cons_self) (ihs fun t ht => ih t (List.mem_cons_of_mem s ht))

/-- The first part without encoding is the same but for wrappers. Only of a function it may be said
that it is `const`. -/
theorem Rewrapped.rel_offence (h : s.Rewrapped FunctionAlike s') (isConst : Bool)
    (hconst : isConst = true → s.isFunction = true ∧ s.FunctionAlike s') :
    Option.Rel (EncodeError.Rewrapped FunctionAlike) ((s.parts isConst).findSome? Part.offence?)
      ((s'.parts isConst).findSome? Part.offence?) := by
  have hnothing {p : Prop} : false = true → p := (absurd · Bool.false_ne_true)
  induction h generalizing isConst with
  | @wrapper s s' _ ih =>
    -- A wrapper is no function, so nothing is said of this one.
    obtain rfl : isConst = false := Bool.eq_false_iff.2 fun h => by
      obtain ⟨hfunction, halike⟩ := hconst h
      exact Bool.false_ne_true (halike.isFunction.trans hfunction)
    have hsame : (false || (s'.isFunction && decide (([] : List Qualifier) ≠ []))) = false := by
      simp
    rw [parts, hsame]
    exact ih false hnothing
  | path _ ih => exact rel_findSome?_allParts fun e he => ih e he false hnothing
  | @function callee callee' args hcallee _ ih ih' =>
    rw [parts, parts, List.findSome?_cons, List.findSome?_cons, Part.offence?, Part.offence?]
    have hpath : (isConst && !callee'.isPath) = (isConst && !callee.isPath) := by
      cases isConst with
      | false => rfl
      | true => exact congrArg (!·) (hconst rfl).2.hasPath
    rw [hpath]
    by_cases hrefused : (isConst && !callee.isPath) = true
    · rw [if_pos hrefused, if_pos hrefused]
      exact .some (.constWithoutPath hcallee)
    · rw [if_neg hrefused, if_neg hrefused, List.findSome?_append, List.findSome?_append]
      exact rel_or (ih false hnothing) (rel_findSome?_allParts fun a ha => ih' a ha false hnothing)
  | constructor hargs => exact .some (.unsupported (.constructor hargs))
  | generic _ ih => exact rel_findSome?_allParts fun a ha => ih a ha false hnothing
  | type => exact .none
  | operator => exact .some (.unsupported .operator)
  | @typed inner inner' qualifiers _ hsaid ih =>
    obtain rfl : isConst = false :=
      Bool.eq_false_iff.2 fun h => Bool.false_ne_true (hconst h).1
    have hsame : (inner'.isFunction && decide (qualifiers ≠ [])) =
        (inner.isFunction && decide (qualifiers ≠ [])) := by
      by_cases hq : qualifiers = []
      · simp [hq]
      · rw [(hsaid hq).isFunction]
    have hinner := ih (inner.isFunction && decide (qualifiers ≠ [])) fun h => by
      obtain ⟨hfunction, hq⟩ := Bool.and_eq_true_iff.1 h
      exact ⟨hfunction, hsaid (of_decide_eq_true hq)⟩
    rw [parts, parts, hsame, Bool.false_or]
    exact hinner
  | stray => exact .some (.notSymbol .stray)

/-! ## What is written -/

theorem insides_allOccurrences {ss : List (Symbol × Symbol)}
    (ih : ∀ s ∈ ss, insides s.2.occurrences = insides s.1.occurrences) :
    insides (allOccurrences (ss.map (·.2))) = insides (allOccurrences (ss.map (·.1))) := by
  induction ss with
  | nil => rfl
  | cons s ss ihs =>
    rw [List.map_cons, List.map_cons, allOccurrences, allOccurrences, insides_append,
      insides_append, ih s List.mem_cons_self, ihs fun t ht => ih t (List.mem_cons_of_mem s ht)]

theorem insides_elementOccurrences {ss : List (Symbol × Symbol)}
    (ih : ∀ s ∈ ss, insides s.2.occurrences = insides s.1.occurrences) :
    insides (elementOccurrences (ss.map (·.2))) = insides (elementOccurrences (ss.map (·.1))) := by
  induction ss with
  | nil => rfl
  | cons s ss ihs =>
    have hs := ih s List.mem_cons_self
    rw [List.map_cons, List.map_cons, elementOccurrences, elementOccurrences, insides_append,
      insides_append, insides_cons, insides_cons, hs, length_eq_of_insides hs,
      ihs fun t ht => ih t (List.mem_cons_of_mem s ht)]

/-- There are as many elements as before, with as many in each. -/
theorem Rewrapped.insides_eq (h : s.Rewrapped Said s') :
    insides s'.occurrences = insides s.occurrences := by
  induction h with
  | wrapper _ ih => exact ih
  | path _ ih => exact insides_elementOccurrences ih
  | function _ _ ih ih' =>
    rw [occurrences, occurrences, insides_append, insides_append, ih, insides_allOccurrences ih']
  | constructor _ ih | generic _ ih => exact insides_allOccurrences ih
  | type | operator | stray => rfl
  | typed _ _ ih => exact ih

variable {leave : Nat → Bool}

theorem printAll_sketchAll {ss : List (Symbol × Symbol)}
    (hlength : ∀ s ∈ ss, s.2.occurrences.length = s.1.occurrences.length)
    (ih : ∀ s ∈ ss, ∀ n, (s.2.sketch leave n).print false = (s.1.sketch leave n).print false)
    (n : Nat) : Sketch.printAll (sketchAll leave n (ss.map (·.2))) =
      Sketch.printAll (sketchAll leave n (ss.map (·.1))) := by
  induction ss generalizing n with
  | nil => rfl
  | cons s ss ihs =>
    rw [List.map_cons, List.map_cons, sketchAll, sketchAll, Sketch.printAll, Sketch.printAll,
      ih s List.mem_cons_self, hlength s List.mem_cons_self,
      ihs (fun t ht => hlength t (List.mem_cons_of_mem s ht))
        fun t ht => ih t (List.mem_cons_of_mem s ht)]

theorem printAll_sketchElements {ss : List (Symbol × Symbol)}
    (hlength : ∀ s ∈ ss, s.2.occurrences.length = s.1.occurrences.length)
    (ih : ∀ s ∈ ss, ∀ n, (s.2.sketch leave n).print false = (s.1.sketch leave n).print false)
    (n : Nat) : Sketch.printAll (sketchElements leave n (ss.map (·.2))) =
      Sketch.printAll (sketchElements leave n (ss.map (·.1))) := by
  induction ss generalizing n with
  | nil => rfl
  | cons s ss ihs =>
    rw [List.map_cons, List.map_cons, sketchElements, sketchElements, Sketch.printAll,
      Sketch.printAll, hlength s List.mem_cons_self,
      ihs (fun t ht => hlength t (List.mem_cons_of_mem s ht))
        fun t ht => ih t (List.mem_cons_of_mem s ht)]
    split
    · rfl
    · rw [ih s List.mem_cons_self]

/-- With references in the same places the same is written. -/
theorem Rewrapped.print_sketch (h : s.Rewrapped FunctionAlike s') (n : Nat) (pending : Bool) :
    (s'.sketch leave n).print pending = (s.sketch leave n).print pending := by
  have hlength {args : List (Symbol × Symbol)} (hargs : ∀ a ∈ args, a.1.Rewrapped FunctionAlike a.2)
      (a : Symbol × Symbol) (ha : a ∈ args) : a.2.occurrences.length = a.1.occurrences.length :=
    length_eq_of_insides (hargs a ha).insides_eq
  induction h generalizing n pending with
  | wrapper _ ih =>
    rw [sketch, Sketch.print, if_neg (by simp)]
    exact ih n pending
  | path hes ih =>
    exact congrArg (fun text => 'N' :: (_ ++ (text ++ ['E'])))
      (printAll_sketchElements (hlength hes) (fun e he n => ih e he n false) n)
  | function hcallee hargs ih ih' =>
    rw [sketch, sketch, Sketch.print, Sketch.print, ih, length_eq_of_insides hcallee.insides_eq,
      printAll_sketchAll (hlength hargs) fun a ha n => ih' a ha n false]
  | constructor | operator | stray => rfl
  | generic hargs ih =>
    exact congrArg (fun text => 'I' :: (text ++ ['E']))
      (printAll_sketchAll (hlength hargs) (fun a ha n => ih a ha n false) n)
  | type => rfl
  | @typed inner inner' qualifiers _ hsaid ih =>
    rw [sketch, sketch, Sketch.print, Sketch.print, isFunction_sketch, isFunction_sketch, ih n true,
      ih n pending]
    by_cases hq : qualifiers = []
    · simp [hq]
    · rw [(hsaid hq).isFunction]

end Symbol

/-! ## Main theorem -/

/-- Put wrappers without qualifiers around anything that stands in a symbol, or around all of it,
but not around a function that other qualifiers are said of, nor around the path that is its name.
If the symbol has no linker name, then the new one has none for the same reason. If it has one, so
has the new symbol, and the names are the same if and only if the same elements repeat an earlier
one, for an element in a wrapper is not the same as the element without. -/
theorem linkerName_rewrapped {s s' : Symbol} (h : s.Rewrapped Symbol.FunctionAlike s') :
    (∀ why, s.linkerName = .error why →
      ∃ why', s'.linkerName = .error why' ∧ why.Rewrapped Symbol.FunctionAlike why') ∧
    ∀ name, s.linkerName = .ok name →
      ∃ name', s'.linkerName = .ok name' ∧
        (name' = name ↔ ∀ i, repeats [] s.occurrences i = repeats [] s'.occurrences i) := by
  have hrel := h.rel_offence false (absurd · Bool.false_ne_true)
  rw [← Symbol.firstOffence?_events_eq, ← Symbol.firstOffence?_events_eq] at hrel
  cases hs : Event.firstOffence? (s.events false) with
  | some why =>
    rw [hs] at hrel
    cases hs' : Event.firstOffence? (s'.events false) with
    | none => rw [hs'] at hrel; cases hrel
    | some why' =>
      rw [hs'] at hrel
      rw [Symbol.linkerName_of_some hs, Symbol.linkerName_of_some hs']
      cases hrel with
      | some hwhy =>
        constructor
        · rintro _ ⟨⟩
          exact ⟨why', rfl, hwhy⟩
        · rintro _ ⟨⟩
  | none =>
    rw [hs] at hrel
    cases hs' : Event.firstOffence? (s'.events false) with
    | some why' => rw [hs'] at hrel; cases hrel
    | none =>
      rw [Symbol.linkerName_of_none hs, Symbol.linkerName_of_none hs']
      constructor
      · rintro _ ⟨⟩
      rintro _ ⟨⟩
      refine ⟨_, rfl, ?_⟩
      have hsupported := Symbol.supported_of_firstOffence? hs
      rw [Symbol.marked, Symbol.marked, h.print_sketch, ← hsupported.sketch_eq_iff
        s.nested_occurrences.hides_repeats
        (s'.nested_occurrences.hides_repeats.of_insides h.insides_eq)
        (Symbol.repeats_eq_behind h.insides_eq)]
      constructor
      · intro heq
        have hprint := List.append_cancel_left (String.ofList_injective heq)
        refine (hsupported.showsSketch _ _ 0 false [] [] ?_).1
        rw [hprint]
      · intro heq
        rw [heq]

/-- Wrappers around the whole, the name, both elements of the name, an argument and what it points
to. -/
theorem linkerName_rewrapped_everywhere :
    let bare (s : Symbol) : Symbol := .typed s []
    (bare (.function (bare (.path [bare (.type "a"), bare (.type "a")]))
      [bare (.typed (bare (.type "int")) [.pointer])])).linkerName = .ok "_ZN1aS_EPi" := by
  intro bare
  have hbare {s : Symbol} (h : s.Rewrapped Symbol.FunctionAlike s) :
      s.Rewrapped Symbol.FunctionAlike (bare s) := .wrapper h
  have hname : (Symbol.path [.type "a", .type "a"]).Rewrapped Symbol.FunctionAlike
      (.path [bare (.type "a"), bare (.type "a")]) :=
    @Symbol.Rewrapped.path _ [(.type "a", bare (.type "a")), (.type "a", bare (.type "a"))]
      (by simpa using hbare .type)
  have hargument : (Symbol.typed (.type "int") [.pointer]).Rewrapped Symbol.FunctionAlike
      (.typed (bare (.type "int")) [.pointer]) := .typed (hbare .type) fun _ => ⟨rfl, rfl⟩
  have h := @Symbol.Rewrapped.function _ _ _ [(_, bare _)] (.wrapper hname)
    (by simpa using Symbol.Rewrapped.wrapper hargument)
  obtain ⟨name', hname', hiff⟩ := (linkerName_rewrapped (.wrapper h)).2 "_ZN1aS_EPi"
    (Except.eq_ok_of_toOption (by decide +kernel))
  obtain rfl : name' = "_ZN1aS_EPi" := hiff.2 fun i => by
    rcases Nat.lt_or_ge i 2 with hi | hi
    · revert i
      decide +kernel
    · rw [repeats_of_length_le hi, repeats_of_length_le hi]
  exact hname'

/-- An element in a wrapper does not repeat the element without. And with a wrapper around its name a
function can no longer be `const`, as with a wrapper between the qualifier and the function. -/
theorem linkerName_rewrapped_apart :
    (¬ ∀ s s' : Symbol, s.Rewrapped (fun _ _ => True) s' →
      s'.linkerName.toOption = s.linkerName.toOption) ∧
    ∃ s s₁ s₂ : Symbol, s.Rewrapped (fun _ _ => True) s₁ ∧ s.Rewrapped (fun _ _ => True) s₂ ∧
      s.linkerName = .ok "_ZNK1aE" ∧ s₁.linkerName.toOption = none ∧
      s₂.linkerName = .ok "_ZKN1aE" := by
  constructor
  · intro h
    have hwrapped := @Symbol.Rewrapped.path (fun _ _ => True)
      [(.type "a", .type "a"), (.type "a", .typed (.type "a") [])]
      (List.forall_mem_cons.2 ⟨.type, List.forall_mem_singleton.2 (.wrapper .type)⟩)
    exact absurd (h _ _ hwrapped) (by decide +kernel)
  · have hname : (Symbol.path [.type "a"]).Rewrapped (fun _ _ => True) (.path [.type "a"]) :=
      @Symbol.Rewrapped.path _ [(.type "a", .type "a")] (List.forall_mem_singleton.2 .type)
    refine ⟨.typed (.function (.path [.type "a"]) []) [.const],
      .typed (.function (.typed (.path [.type "a"]) []) []) [.const],
      .typed (.typed (.function (.path [.type "a"]) []) []) [.const], ?_, ?_,
      Except.eq_ok_of_toOption (by decide +kernel), by decide +kernel,
      Except.eq_ok_of_toOption (by decide +kernel)⟩
    · exact .typed (@Symbol.Rewrapped.function _ _ _ [] (.wrapper hname) (by simp)) fun _ => trivial
    · exact .typed (.wrapper (@Symbol.Rewrapped.function _ _ _ [] hname (by simp))) fun _ => trivial

end LinkerNames

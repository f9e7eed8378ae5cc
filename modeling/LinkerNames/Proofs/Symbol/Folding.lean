import LinkerNames.Proofs.Runs
import LinkerNames.Proofs.Signature.Derivation
import LinkerNames.Proofs.Token.Row
import LinkerNames.Symbol.Fold
/-!
# Every signature means a symbol

Trees of derivations have a meaning, and of all symbols they mean only some: a function has a path
for its name, the elements of a path are types and template arguments, and arguments are types and
paths with qualifiers. `Symbol.Fits` says which symbol can stand where.
-/

namespace LinkerNames

/-- A name that a signature can give to a type. -/
inductive IsTypeName : String → Prop
  | builtin {name : String} : name ∈ builtinSpellings → IsTypeName name
  | standard {name : String} : name ∈ standardNames → IsTypeName ("std::" ++ name)
  | plain {name : String} : IsName name → name ∉ keywords → name ∉ builtinWords → IsTypeName name

/-- What a symbol is in the whole that it is a part of. -/
inductive Role
  | type
  /-- An element of a path. -/
  | element
  | path
  /-- What qualifiers can be said about. -/
  | inner
  | argument
  | function

/-- A symbol of a signature, fit for its role. -/
inductive Symbol.Fits : Role → Symbol → Prop
  | type {name : String} : IsTypeName name → Fits .type (.type name)
  | elementType {s : Symbol} : Fits .type s → Fits .element s
  | generic {args : List Symbol} : (∀ a ∈ args, Fits .argument a) → Fits .element (.generic args)
  | path {elements : List Symbol} : elements ≠ [] → (∀ e ∈ elements, Fits .element e) →
    Fits .path (.path elements)
  | innerType {s : Symbol} : Fits .type s → Fits .inner s
  | innerPath {s : Symbol} : Fits .path s → Fits .inner s
  | argument {s : Symbol} {qualifiers : List Qualifier} : Fits .inner s →
    Fits .argument (.typed s qualifiers)
  | function {name : Symbol} {args : List Symbol} : Fits .path name →
    (∀ a ∈ args, Fits .argument a) → Fits .function (.function name args)
  | constFunction {name : Symbol} {args : List Symbol} : Fits .path name →
    (∀ a ∈ args, Fits .argument a) → Fits .function (.typed (.function name args) [.const])

/-- The role of what the phrases of a category mean. -/
def Category.role : Category → Role
  | .type => .type
  | .generic | .segment | .segments => .element
  | .path => .path
  | .element => .inner
  | .typedElement | .elements | .list _ _ => .argument
  | .function => .function

namespace Symbol

/-! ## Rows of phrases -/

theorem ofPhrases_cons_of_ok {p : Phrase} {ps : List Phrase} {s : Symbol} {ss : List Symbol}
    (hp : ofPhrase p = .ok s) (hps : ofPhrases ps = .ok ss) :
    ofPhrases (p :: ps) = .ok (s :: ss) := by
  rw [ofPhrases, hp, hps]
  rfl

theorem exists_of_ofPhrases_cons {p : Phrase} {ps : List Phrase} {ss : List Symbol}
    (h : ofPhrases (p :: ps) = .ok ss) :
    ∃ t ts, ss = t :: ts ∧ ofPhrase p = .ok t ∧ ofPhrases ps = .ok ts := by
  rw [ofPhrases, Except.bind_eq_ok_iff] at h
  obtain ⟨t, ht, h⟩ := h
  obtain ⟨ts, hts, h⟩ := Except.bind_eq_ok_iff.1 h
  cases h
  exact ⟨t, ts, rfl, ht, hts⟩

theorem ofPhrases_singleton {p : Phrase} {s : Symbol} (h : ofPhrase p = .ok s) :
    ofPhrases [p] = .ok [s] :=
  ofPhrases_cons_of_ok h rfl

theorem exists_of_ofPhrases_singleton {p : Phrase} {ss : List Symbol}
    (h : ofPhrases [p] = .ok ss) : ∃ s, ss = [s] ∧ ofPhrase p = .ok s := by
  obtain ⟨s, ts, rfl, hs, hts⟩ := exists_of_ofPhrases_cons h
  cases hts
  exact ⟨s, rfl, hs⟩

theorem ne_nil_of_ofPhrases {ps : List Phrase} {ss : List Symbol} (h : ofPhrases ps = .ok ss)
    (hne : ps ≠ []) : ss ≠ [] := by
  obtain ⟨p, ps, rfl⟩ := List.exists_cons_of_ne_nil hne
  obtain ⟨t, ts, rfl, -, -⟩ := exists_of_ofPhrases_cons h
  simp

theorem ofPhrases_append_of_ok {ps qs : List Phrase} {ss ts : List Symbol}
    (hp : ofPhrases ps = .ok ss) (hq : ofPhrases qs = .ok ts) :
    ofPhrases (ps ++ qs) = .ok (ss ++ ts) := by
  induction ps generalizing ss with
  | nil =>
    cases hp
    exact hq
  | cons p ps ih =>
    obtain ⟨t, us, rfl, ht, hus⟩ := exists_of_ofPhrases_cons hp
    exact ofPhrases_cons_of_ok ht (ih hus)

/-- Only `const` is taken apart from the arguments, and only behind all of them. -/
theorem ofArguments_cons {p : Phrase} {ps : List Phrase} (h : p.rule = .const → ps ≠ []) :
    ofArguments (p :: ps) = (do
      let s ← ofPhrase p
      let (ss, isConst) ← ofArguments ps
      return (s :: ss, isConst)) := by
  rw [ofArguments]
  rintro _ _ _ rfl rfl
  exact h rfl rfl

theorem rule_ne_const {p : Phrase} {s : Symbol} (h : ofPhrase p = .ok s) : p.rule ≠ .const := by
  obtain ⟨rule, text, place, children⟩ := p
  rintro rfl
  simp [ofPhrase, throw, throwThe, MonadExceptOf.throw] at h

/-- The phrases after a name mean its arguments, and a `const` after them is none. -/
theorem ofArguments_of_ok {ps : List Phrase} {ss : List Symbol} (h : ofPhrases ps = .ok ss) :
    ofArguments ps = .ok (ss, false) ∧
      ∀ last : Phrase, last.rule = .const → ofArguments (ps ++ [last]) = .ok (ss, true) := by
  induction ps generalizing ss with
  | nil =>
    cases h
    refine ⟨rfl, ?_⟩
    rintro ⟨_, _, _, _⟩ rfl
    rfl
  | cons p ps ih =>
    obtain ⟨s, us, rfl, hs, hus⟩ := exists_of_ofPhrases_cons h
    obtain ⟨ih₁, ih₂⟩ := ih hus
    have hconst := rule_ne_const hs
    refine ⟨?_, fun last hlast => ?_⟩
    · rw [ofArguments_cons (absurd · hconst), hs, ih₁]
      rfl
    · rw [List.cons_append, ofArguments_cons (absurd · hconst), hs, ih₂ last hlast]
      rfl

/-! ## Single phrases -/

theorem ofPhrase_type (place : Place) (words : List Phrase) :
    ofPhrase (.branch .type place words) = .ok (.type (spelling (words.map (·.text)))) := by
  rw [Phrase.branch, ofPhrase]
  rfl

theorem ofPhrase_generic {parts : List Phrase} {args : List Symbol} (place : Place)
    (h : ofPhrases parts = .ok args) :
    ofPhrase (.branch .generic place parts) = .ok (.generic args) := by
  rw [Phrase.branch, ofPhrase, h]
  rfl

theorem ofPhrase_path {parts : List Phrase} {elements : List Symbol} (place : Place)
    (h : ofPhrases parts = .ok elements) (hne : elements ≠ []) :
    ofPhrase (.branch .path place parts) = .ok (.path elements) := by
  rw [Phrase.branch, ofPhrase, h]
  simp [ofElements?, hne, Bind.bind, Except.bind, Pure.pure, Except.pure]

theorem ofPhrase_element (place : Place) (inner : Phrase) :
    ofPhrase (.branch .element place [inner]) = ofPhrase inner := by
  rw [Phrase.branch, ofPhrase]

theorem rule_of_markLeaf {t : Token} {mark : Phrase} (h : MarkLeaf t mark) :
    mark.rule ∈ [Rule.const, .pointer, .reference] := by
  cases h <;> simp [Phrase.leaf]

/-- Marks are qualifiers. -/
theorem exists_qualifiers {marks : List Phrase}
    (h : ∀ m ∈ marks, m.rule ∈ [Rule.const, .pointer, .reference]) :
    ∃ qualifiers, marks.mapM Qualifier.ofMark = .ok qualifiers := by
  induction marks with
  | nil => exact ⟨[], rfl⟩
  | cons m marks ih =>
    obtain ⟨hm, hmarks⟩ := List.forall_mem_cons.1 h
    obtain ⟨q, hq⟩ : ∃ q, Qualifier.ofMark m = .ok q := by
      rw [Qualifier.ofMark]
      obtain hrule | hrule | hrule : m.rule = .const ∨ m.rule = .pointer ∨ m.rule = .reference := by
        simpa using hm
      all_goals exact ⟨_, by rw [hrule]⟩
    obtain ⟨qs, hqs⟩ := ih hmarks
    refine ⟨q :: qs, ?_⟩
    rw [List.mapM_cons, hq, hqs]
    rfl

theorem ofPhrase_typedElement {inner : Phrase} {marks : List Phrase} {s : Symbol}
    {qualifiers : List Qualifier} (place : Place) (hs : ofPhrase inner = .ok s)
    (hq : marks.mapM Qualifier.ofMark = .ok qualifiers) :
    ofPhrase (.branch .typedElement place (inner :: marks)) = .ok (.typed s qualifiers) := by
  rw [Phrase.branch, ofPhrase, hs, hq]
  rfl

theorem ofPhrase_function {name : Phrase} {others : List Phrase} {callee : Symbol}
    {args : List Symbol} {isConst : Bool} (place : Place) (hname : ofPhrase name = .ok callee)
    (hothers : ofArguments others = .ok (args, isConst)) :
    ofPhrase (.branch .function place (name :: others)) =
      .ok (constIf isConst (.function callee args)) := by
  rw [Phrase.branch, ofPhrase, hname, hothers]
  rfl

end Symbol

/-! ## Derived phrases -/

theorem IsTypeName.of_standardAhead {root scope name : Token} {rest : List Token}
    (h : StandardAhead (root :: scope :: name :: rest)) :
    IsTypeName (root.text ++ scope.text ++ name.text) := by
  cases h with
  | mk _ hroot hscope _ hname =>
    rw [hroot, hscope]
    exact .standard hname

/-- What is derived has a meaning, and each symbol of it is fit for its role. -/
theorem Derives.exists_symbols {best : Bool} {cat : Category} {i r : List Token}
    {ps : List Phrase} (h : Derives best cat i r ps) (hi : Named i) :
    ∃ ss, Symbol.ofPhrases ps = .ok ss ∧ ∀ s ∈ ss, Symbol.Fits cat.role s := by
  have hone {role : Role} {p : Phrase} {s : Symbol} (hp : Symbol.ofPhrase p = .ok s)
      (hs : Symbol.Fits role s) :
      ∃ ss, Symbol.ofPhrases [p] = .ok ss ∧ ∀ s ∈ ss, Symbol.Fits role s :=
    ⟨[s], Symbol.ofPhrases_singleton hp, by simpa using hs⟩
  induction h with
  | standard hs =>
    refine hone (Symbol.ofPhrase_type _ _) (.type ?_)
    simpa [spelling_singleton] using IsTypeName.of_standardAhead hs
  | @builtin words _ hw =>
    refine hone (Symbol.ofPhrase_type _ _) (.type (.builtin ?_))
    rw [List.map_map]
    exact hw.spelled
  | @plain t _ hk hw =>
    obtain ⟨hname, hkeyword⟩ := hi t List.mem_cons_self hk
    have hspelled : spelling ([Phrase.leaf .word t].map (·.text)) = t.text :=
      spelling_singleton t.text
    refine hone (Symbol.ofPhrase_type _ _) (.type ?_)
    rw [hspelled]
    exact .plain hname hkeyword hw
  | generic _ ih =>
    obtain ⟨args, hargs, hfits⟩ := ih hi
    exact hone (Symbol.ofPhrase_generic _ hargs) (.generic hfits)
  | segment _ ih =>
    obtain ⟨ss, hss, hfits⟩ := ih hi
    exact ⟨ss, hss, fun s hs => .elementType (hfits s hs)⟩
  | segmentGeneric h _ ih ih' =>
    -- What is named in a row is named in what remains of it.
    obtain ⟨ss, hss, hfits⟩ := ih hi
    obtain ⟨ts, hts, hfits'⟩ := ih' (hi.mono h.suffix.subset)
    refine ⟨ss ++ ts, Symbol.ofPhrases_append_of_ok hss hts, fun s hs => ?_⟩
    rcases List.mem_append.1 hs with hs | hs
    · exact .elementType (hfits s hs)
    · exact hfits' s hs
  | last _ ih | single _ ih => exact ih hi
  | scope h _ _ ih ih' | comma h _ _ ih ih' =>
    obtain ⟨ss, hss, hfits⟩ := ih hi
    obtain ⟨ts, hts, hfits'⟩ :=
      ih' (hi.mono fun t ht => h.suffix.subset (List.mem_cons_of_mem _ ht))
    refine ⟨ss ++ ts, Symbol.ofPhrases_append_of_ok hss hts, fun s hs => ?_⟩
    exact (List.mem_append.1 hs).elim (hfits s) (hfits' s)
  | path h ih =>
    obtain ⟨elements, helements, hfits⟩ := ih hi
    have hne := Symbol.ne_nil_of_ofPhrases helements h.ne_nil_of_segments
    exact hone (Symbol.ofPhrase_path _ helements hne) (.path hne hfits)
  | elementType _ ih =>
    obtain ⟨ss, hss, hfits⟩ := ih hi
    obtain ⟨s, rfl, hs⟩ := Symbol.exists_of_ofPhrases_singleton hss
    exact hone ((Symbol.ofPhrase_element _ _).trans hs) (.innerType (hfits s (by simp)))
  | elementPath _ _ ih =>
    obtain ⟨ss, hss, hfits⟩ := ih hi
    obtain ⟨s, rfl, hs⟩ := Symbol.exists_of_ofPhrases_singleton hss
    exact hone ((Symbol.ofPhrase_element _ _).trans hs) (.innerPath (hfits s (by simp)))
  | typedElement _ hm ih =>
    obtain ⟨ss, hss, hfits⟩ := ih hi
    obtain ⟨s, rfl, hs⟩ := Symbol.exists_of_ofPhrases_singleton hss
    obtain ⟨qs, hqs⟩ := Symbol.exists_qualifiers fun m hmem => by
      obtain ⟨t, -, ht⟩ := hm.exists_of_mem_right hmem
      exact Symbol.rule_of_markLeaf ht
    exact hone (Symbol.ofPhrase_typedElement _ hs hqs) (.argument (hfits s (by simp)))
  | empty => exact ⟨[], rfl, by simp⟩
  | list _ _ _ ih => exact ih (hi.mono (List.subset_cons_self _ _))
  | function h _ ih ih' =>
    obtain ⟨ss, hss, hfits⟩ := ih hi
    obtain ⟨callee, rfl, hcallee⟩ := Symbol.exists_of_ofPhrases_singleton hss
    obtain ⟨args, hargs, hfits'⟩ := ih' (hi.mono h.suffix.subset)
    exact hone (Symbol.ofPhrase_function _ hcallee (Symbol.ofArguments_of_ok hargs).1)
      (.function (hfits callee (by simp)) hfits')
  | constFunction h _ _ ih ih' =>
    obtain ⟨ss, hss, hfits⟩ := ih hi
    obtain ⟨callee, rfl, hcallee⟩ := Symbol.exists_of_ofPhrases_singleton hss
    obtain ⟨args, hargs, hfits'⟩ := ih' (hi.mono h.suffix.subset)
    exact hone (Symbol.ofPhrase_function _ hcallee ((Symbol.ofArguments_of_ok hargs).2 _ rfl))
      (.constFunction (hfits callee (by simp)) hfits')

end LinkerNames

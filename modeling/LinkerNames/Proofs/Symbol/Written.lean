import LinkerNames.Proofs.Symbol.Folding
import LinkerNames.Proofs.Token.Written
import Mathlib.Data.List.Chain
/-!
# Symbols in words

A symbol is written with the words of its names and the marks between them, and its text has a
blank between two words. Not every fit symbol can be read again: template arguments follow a type,
a name of the standard library is a type of its own where nothing follows it, and a path that is a
single type is no path where it stands as an element. `Symbol.Spellable` says so, and
`IsPathRow.exists_segment` takes a path that can be read apart as the notation does.
-/

namespace LinkerNames

/-- The word that a qualifier is written with. -/
def Qualifier.word : Qualifier → String
  | .reference => "&"
  | .pointer => "*"
  | .const => "const"

namespace Symbol

/-- What parts an element of a path from the one before it; template arguments follow at once. -/
def separator : Symbol → List String
  | .generic _ => []
  | _ => ["::"]

mutual
/-- The words that a symbol is written with. -/
def words : Symbol → List String
  | .path elements => (elementWords elements).tail
  | .function callee args => words callee ++ "(" :: ((argumentWords args).tail ++ [")"])
  | .generic args => "<" :: ((argumentWords args).tail ++ [">"])
  | .type name => LinkerNames.words name
  | .typed inner qualifiers => words inner ++ qualifiers.map Qualifier.word
  | .constructor _ | .operator _ | .stray _ => []

/-- The words of the elements of a path, each behind what parts it from the one before. -/
def elementWords : List Symbol → List String
  | [] => []
  | s :: ss => separator s ++ (words s ++ elementWords ss)

/-- The words of some arguments, each behind a comma. -/
def argumentWords : List Symbol → List String
  | [] => []
  | s :: ss => "," :: (words s ++ argumentWords ss)
end

/-- A text for a symbol. -/
def toText (s : Symbol) : String :=
  spelling s.words

theorem elementWords_append (ss ts : List Symbol) :
    elementWords (ss ++ ts) = elementWords ss ++ elementWords ts := by
  induction ss with
  | nil => rfl
  | cons s ss ih => simp [elementWords, ih]

theorem eq_nil_of_elementWords {ss : List Symbol} (h : elementWords ss = []) : ss = [] := by
  cases ss with
  | nil => rfl
  | cons s ss => cases s <;> cases h

theorem argumentWords_append (ss ts : List Symbol) :
    argumentWords (ss ++ ts) = argumentWords ss ++ argumentWords ts := by
  induction ss with
  | nil => rfl
  | cons s ss ih => simp [argumentWords, ih]

end Symbol

/-! ## Names of types -/

/-- A name of the standard library, in full. -/
def IsStandard (name : String) : Prop :=
  ∃ x ∈ standardNames, name = "std::" ++ x

instance (text : String) : Decidable (Lexeme.IsWord text) :=
  inferInstanceAs (Decidable (_ ∧ _))

theorem isWord_builtinWord :
    ∀ w ∈ builtinWords, Lexeme.IsWord w ∧ (Lexeme.ofText w).kind = .identifier := by
  decide +kernel

theorem isWord_standardName :
    ∀ w ∈ "std" :: standardNames, Lexeme.IsWord w ∧ (Lexeme.ofText w).kind = .identifier := by
  decide +kernel

theorem words_builtin : ∀ name ∈ builtinSpellings,
    words name ≠ [] ∧ (∀ w ∈ words name, w ∈ builtinWords) ∧ spelling (words name) = name := by
  decide +kernel

theorem words_standard : ∀ x ∈ standardNames, words ("std::" ++ x) = ["std", "::", x] := by
  decide +kernel

theorem words_plain {name : String} (h : IsName name) (hk : name ∉ keywords) :
    words name = [name] :=
  words_of_isWord (Lexeme.isWord_of_isName h hk).1

theorem not_isStandard_builtin : ∀ name ∈ builtinSpellings, ¬ IsStandard name ∧ name ≠ "std" := by
  unfold IsStandard
  decide +kernel

theorem IsStandard.ne_std {name : String} (h : IsStandard name) : name ≠ "std" := by
  obtain ⟨x, hx, rfl⟩ := h
  revert x
  decide +kernel

/-- No name goes on with a colon, as the names of the standard library do in full. -/
theorem IsName.not_isStandard {name : String} (h : IsName name) : ¬ IsStandard name := by
  rintro ⟨x, -, rfl⟩
  obtain ⟨c, cs, htext, hc, hcs⟩ := h
  have hcolon : ':' ∈ c :: cs := by
    rw [← htext, String.toList_append]
    exact List.mem_append_left _ (by decide)
  rcases List.mem_cons.1 hcolon with rfl | hmem
  · exact absurd hc (by decide)
  · exact absurd (hcs ':' hmem) (by decide)

/-- Only a name itself is written as a single word. -/
theorem IsTypeName.eq_of_words {name w : String} (h : IsTypeName name) (hw : words name = [w]) :
    name = w := by
  cases h with
  | builtin h =>
    obtain ⟨-, -, hspelled⟩ := words_builtin _ h
    rw [← hspelled, hw, spelling_singleton]
  | standard h =>
    rw [words_standard _ h] at hw
    simp at hw
  | plain h hk =>
    rw [words_plain h hk] at hw
    exact List.singleton_inj.1 hw

theorem IsTypeName.words_ne_nil {name : String} (h : IsTypeName name) : words name ≠ [] := by
  cases h with
  | builtin h => exact (words_builtin _ h).1
  | standard h => simp [words_standard _ h]
  | plain h hk => simp [words_plain h hk]

/-! ## Words are words -/

namespace Symbol

theorem isWord_mark : ∀ w ∈ ["::", ",", "(", ")", "<", ">", "&", "*", "const"],
    Lexeme.IsWord w := by
  decide +kernel

theorem isWord_of_mem_elementWords {ss : List Symbol}
    (h : ∀ s ∈ ss, ∀ w ∈ s.words, Lexeme.IsWord w) :
    ∀ w ∈ elementWords ss, Lexeme.IsWord w := by
  induction ss with
  | nil => exact fun _ hw => nomatch hw
  | cons s ss ih =>
    intro w hw
    rcases List.mem_append.1 hw with hw | hw
    · have hmark : w = "::" := by
        cases s <;> simp_all [separator]
      exact isWord_mark w (by simp [hmark])
    rcases List.mem_append.1 hw with hw | hw
    · exact h s List.mem_cons_self w hw
    · exact ih (fun t ht => h t (List.mem_cons_of_mem s ht)) w hw

theorem isWord_of_mem_argumentWords {ss : List Symbol}
    (h : ∀ s ∈ ss, ∀ w ∈ s.words, Lexeme.IsWord w) :
    ∀ w ∈ argumentWords ss, Lexeme.IsWord w := by
  induction ss with
  | nil => exact fun _ hw => nomatch hw
  | cons s ss ih =>
    intro w hw
    rcases List.mem_cons.1 hw with rfl | hw
    · exact isWord_mark _ (by simp)
    rcases List.mem_append.1 hw with hw | hw
    · exact h s List.mem_cons_self w hw
    · exact ih (fun t ht => h t (List.mem_cons_of_mem s ht)) w hw

/-- A list between brackets is made of words if its members are. -/
theorem isWord_of_mem_list {opening closing : String} {ss : List Symbol}
    (ho : Lexeme.IsWord opening) (hc : Lexeme.IsWord closing)
    (h : ∀ s ∈ ss, ∀ w ∈ s.words, Lexeme.IsWord w) :
    ∀ w ∈ opening :: ((argumentWords ss).tail ++ [closing]), Lexeme.IsWord w := by
  intro w hw
  rcases List.mem_cons.1 hw with rfl | hw
  · exact ho
  rcases List.mem_append.1 hw with hw | hw
  · exact isWord_of_mem_argumentWords h w (List.mem_of_mem_tail hw)
  · exact List.mem_singleton.1 hw ▸ hc

/-- What a signature means is written with words. -/
theorem Fits.isWord_of_mem_words {role : Role} {s : Symbol} (h : Fits role s) :
    ∀ w ∈ s.words, Lexeme.IsWord w := by
  have hqualifiers (qualifiers : List Qualifier) :
      ∀ w ∈ qualifiers.map Qualifier.word, Lexeme.IsWord w := by
    intro w hw
    obtain ⟨q, -, rfl⟩ := List.mem_map.1 hw
    cases q <;> exact isWord_mark _ (by decide)
  have hround {ss : List Symbol} (h : ∀ s ∈ ss, ∀ w ∈ s.words, Lexeme.IsWord w) :=
    isWord_of_mem_list (isWord_mark "(" (by simp)) (isWord_mark ")" (by simp)) h
  induction h with
  | type => exact fun w hw => LinkerNames.isWord_of_mem_words hw
  | elementType _ ih | innerType _ ih | innerPath _ ih => exact ih
  | generic _ ih =>
    exact isWord_of_mem_list (isWord_mark "<" (by simp)) (isWord_mark ">" (by simp)) ih
  | path _ _ ih => exact fun w hw => isWord_of_mem_elementWords ih w (List.mem_of_mem_tail hw)
  | argument _ ih =>
    exact fun w hw => (List.mem_append.1 hw).elim (ih w) (hqualifiers _ w)
  | function _ _ ih ih' => exact fun w hw => (List.mem_append.1 hw).elim (ih w) (hround ih' w)
  | constFunction _ _ ih ih' =>
    intro w hw
    rcases List.mem_append.1 hw with hw | hw
    · exact (List.mem_append.1 hw).elim (ih w) (hround ih' w)
    · exact hqualifiers [.const] w hw

end Symbol

/-! ## Symbols that can be read -/

/-- Two elements that can stand side by side: template arguments follow a type, and nothing follows
a name of the standard library. -/
def Joins (e e' : Symbol) : Prop :=
  (∀ args, e' = .generic args → ∃ name, e = .type name) ∧
    ∀ name, e = .type name → ¬ IsStandard name

/-- The elements of a path that can be read. At its end `std` and a name are one type. -/
structure IsPathRow (elements : List Symbol) : Prop where
  ne_nil : elements ≠ []
  head : ∀ args, elements.head? ≠ some (.generic args)
  chain : elements.IsChain Joins
  apart : ∀ x ∈ standardNames, ¬ [.type "std", .type x] <:+ elements

/-- A symbol that can be read, if it is fit for a role. -/
inductive Symbol.Spellable : Symbol → Prop
  | type {name : String} : Spellable (.type name)
  | generic {args : List Symbol} : (∀ a ∈ args, Spellable a) → Spellable (.generic args)
  | path {elements : List Symbol} : IsPathRow elements → (∀ e ∈ elements, Spellable e) →
    Spellable (.path elements)
  | typed {inner : Symbol} {qualifiers : List Qualifier} : Spellable inner →
    (∀ name, inner ≠ .path [.type name]) → Spellable (.typed inner qualifiers)
  | function {callee : Symbol} {args : List Symbol} : Spellable callee →
    (∀ a ∈ args, Spellable a) → Spellable (.function callee args)

namespace IsPathRow

variable {name : String} {elements : List Symbol}

theorem type (name : String) : IsPathRow [.type name] where
  ne_nil := by simp
  head := by simp
  chain := .singleton _
  apart x _ h := by simpa using h.length_le

theorem generic (hname : ¬ IsStandard name) (args : List Symbol) :
    IsPathRow [.type name, .generic args] where
  ne_nil := by simp
  head := by simp
  chain := by simpa [Joins] using hname
  apart x _ h := by simpa using h.eq_of_length rfl

/-- A type before a path, that is not the `std` of a name of the standard library. -/
theorem type_cons (h : IsPathRow elements) (hname : ¬ IsStandard name)
    (hapart : name = "std" → ∀ x ∈ standardNames, elements ≠ [.type x]) :
    IsPathRow (.type name :: elements) where
  ne_nil := by simp
  head := by simp
  chain := by
    obtain ⟨e, es, rfl⟩ := List.exists_cons_of_ne_nil h.ne_nil
    refine .cons_cons ⟨fun _ _ => ⟨name, rfl⟩, ?_⟩ h.chain
    rintro _ ⟨⟩
    exact hname
  apart x hx hs := by
    rcases List.suffix_cons_iff.1 hs with heq | hs
    · obtain ⟨hhead, htail⟩ := List.cons.inj heq
      cases hhead
      exact hapart rfl x hx htail.symm
    · exact h.apart x hx hs

/-- A type with template arguments before a path. -/
theorem generic_cons (h : IsPathRow elements) (hname : ¬ IsStandard name) (args : List Symbol) :
    IsPathRow (.type name :: .generic args :: elements) where
  ne_nil := by simp
  head := by simp
  chain := by
    obtain ⟨e, es, rfl⟩ := List.exists_cons_of_ne_nil h.ne_nil
    refine .cons_cons ⟨fun _ _ => ⟨name, rfl⟩, ?_⟩ (.cons_cons ⟨?_, nofun⟩ h.chain)
    · rintro _ ⟨⟩
      exact hname
    · rintro args rfl
      exact absurd rfl (h.head args)
  apart x hx hs := by
    rcases List.suffix_cons_iff.1 hs with heq | hs
    · simp at heq
    rcases List.suffix_cons_iff.1 hs with heq | hs
    · simp at heq
    · exact h.apart x hx hs

/-- What remains of a path behind some of its elements, if it does not begin with arguments. -/
theorem of_suffix {others : List Symbol} (h : IsPathRow elements) (hs : others <:+ elements)
    (hne : others ≠ []) (hhead : ∀ args, others.head? ≠ some (.generic args)) :
    IsPathRow others where
  ne_nil := hne
  head := hhead
  chain := h.chain.suffix hs
  apart x hx hs' := h.apart x hx (hs'.trans hs)

/-- A path that can be read is a segment, that is a type and perhaps its template arguments, and
what remains is nothing or a path again. -/
theorem exists_segment (h : IsPathRow elements) (hfits : ∀ e ∈ elements, Symbol.Fits .element e) :
    ∃ name generics others, elements = .type name :: (generics ++ others) ∧ IsTypeName name ∧
      (generics = [] ∨ ∃ args, generics = [.generic args]) ∧
      (generics ++ others ≠ [] → ¬ IsStandard name) ∧ (others = [] ∨ IsPathRow others) := by
  obtain ⟨e, es, rfl⟩ := List.exists_cons_of_ne_nil h.ne_nil
  obtain ⟨name, rfl, hname⟩ : ∃ name, e = .type name ∧ IsTypeName name := by
    cases hfits e List.mem_cons_self with
    | elementType htype =>
      cases htype with
      | type hname => exact ⟨_, rfl, hname⟩
    | generic => exact absurd rfl (h.head _)
  have hstandard : es ≠ [] → ¬ IsStandard name := by
    intro hne
    obtain ⟨e, es, rfl⟩ := List.exists_cons_of_ne_nil hne
    exact (List.isChain_cons_cons.1 h.chain).1.2 name rfl
  by_cases hgeneric : ∃ args others, es = .generic args :: others
  · obtain ⟨args, others, rfl⟩ := hgeneric
    refine ⟨name, [.generic args], others, rfl, hname, .inr ⟨args, rfl⟩, hstandard, ?_⟩
    refine or_iff_not_imp_left.2 fun hne => h.of_suffix ⟨[_, _], rfl⟩ hne fun as has => ?_
    -- Template arguments follow a type, so there are not two lists of them in a row.
    obtain ⟨others, rfl⟩ := List.head?_eq_some_iff.1 has
    have hjoins := (List.isChain_cons_cons.1 (List.isChain_cons_cons.1 h.chain).2).1
    obtain ⟨_, h⟩ := hjoins.1 as rfl
    cases h
  · refine ⟨name, [], es, rfl, hname, .inl rfl, hstandard, ?_⟩
    refine or_iff_not_imp_left.2 fun hne => h.of_suffix (List.suffix_cons _ _) hne fun as has => ?_
    obtain ⟨others, rfl⟩ := List.head?_eq_some_iff.1 has
    exact hgeneric ⟨as, others, rfl⟩

theorem elementWords (h : IsPathRow elements) :
    Symbol.elementWords elements = "::" :: (Symbol.elementWords elements).tail := by
  obtain ⟨e, es, rfl⟩ := List.exists_cons_of_ne_nil h.ne_nil
  cases e with
  | generic args => exact absurd rfl (h.head args)
  | _ => rfl

/-- Two paths one after the other have a mark between their words. -/
theorem elementWords_append {others : List Symbol} (h : IsPathRow elements)
    (h' : IsPathRow others) :
    (Symbol.elementWords (elements ++ others)).tail =
      (Symbol.elementWords elements).tail ++ "::" :: (Symbol.elementWords others).tail := by
  rw [Symbol.elementWords_append, ← h'.elementWords, h.elementWords]
  rfl

/-- A path of a single word is a type. -/
theorem eq_type_of_elementWords {w : String} (h : IsPathRow elements)
    (hfits : ∀ e ∈ elements, Symbol.Fits .element e)
    (hw : (Symbol.elementWords elements).tail = [w]) : elements = [.type w] := by
  obtain ⟨name, generics, others, rfl, hname, -, -, -⟩ := h.exists_segment hfits
  have hsplit : words name ++ Symbol.elementWords (generics ++ others) = [w] := hw
  obtain ⟨v, vs, hv⟩ := List.exists_cons_of_ne_nil hname.words_ne_nil
  rw [hv, List.cons_append, List.cons.injEq, List.append_eq_nil_iff] at hsplit
  obtain ⟨rfl, rfl, hnil⟩ := hsplit
  rw [Symbol.eq_nil_of_elementWords hnil, hname.eq_of_words hv]

end IsPathRow
end LinkerNames

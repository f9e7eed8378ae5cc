import LinkerNames.Proofs.Signature.Acceptance
import LinkerNames.Proofs.Symbol.Written
/-!
# What is derived is written

What a row of tokens is derived as means a symbol with the words of the row, and that can be read.
The best choices of a derivation are those that make it so: a name of the standard library is taken
wherever there is one, so none is left in two pieces, and a plain type is no path.

For types and for marks the way back is here too.
-/

namespace LinkerNames

/-! ## Types -/

/-- A type with this name is ahead in the first row, up to where the second begins. -/
structure TypeAhead (name : String) (input rest : List Token) : Prop where
  spells : Spells (words name) input rest
  alone : IsStandard name → ∀ t ∈ rest.head?, t.text ≠ "::" ∧ t.text ≠ "<"
  plain : name = "std" → ¬ StandardAhead input

namespace Symbol

variable {i r : List Token}

theorem kind_of_faithful (hi : Faithful i) {t : Token} (ht : t ∈ i)
    (hkind : (Lexeme.ofText t.text).kind = .identifier) : t.kind = .identifier := by
  rw [hi t ht, hkind]

/-- Three words are a name of the standard library if nothing goes on behind them. -/
theorem standardAhead_of_spells (hi : Faithful i) {x : String} (hx : x ∈ standardNames)
    (hspells : Spells ["std", "::", x] i r)
    (hr : ∀ t ∈ r.head?, t.text ≠ "::" ∧ t.text ≠ "<") :
    ∃ root scope name, i = root :: scope :: name :: r ∧ root.text = "std" ∧ scope.text = "::" ∧
      name.text = x ∧ StandardAhead (root :: scope :: name :: r) := by
  simp only [spells_cons_iff, spells_nil_iff] at hspells
  obtain ⟨root, _, rfl, hroot, scope, _, rfl, hscope, name, _, rfl, rfl, rfl⟩ := hspells
  refine ⟨root, scope, name, rfl, hroot, hscope, rfl, .mk ?_ hroot hscope ?_ hx hr⟩
  · exact kind_of_faithful hi (by simp) (hroot ▸ (isWord_standardName _ (by simp)).2)
  · exact kind_of_faithful hi (by simp) (isWord_standardName _ (List.mem_cons_of_mem _ hx)).2

theorem ofPhrase_word (place : Place) (word : Phrase) :
    ofPhrase (.branch .type place [word]) = .ok (.type word.text) := by
  rw [ofPhrase_type, List.map_singleton, spelling_singleton]

/-- What is derived as a type is a type ahead. -/
theorem typeAhead_of_derives {ps : List Phrase} (h : Derives true .type i r ps)
    (hi : Faithful i) : ∃ name, ofPhrases ps = .ok [.type name] ∧ TypeAhead name i r := by
  cases h with
  | @standard root scope name _ hs =>
    refine ⟨_, ofPhrases_singleton (ofPhrase_word _ _), ?_⟩
    cases hs with
    | mk hk hroot hscope hk' hname hfollow =>
      have hstandard : IsStandard ("std::" ++ name.text) := ⟨_, hname, rfl⟩
      rw [hroot, hscope]
      refine ⟨?_, fun _ => hfollow, fun h => absurd h hstandard.ne_std⟩
      change Spells (LinkerNames.words ("std::" ++ name.text)) _ _
      rw [words_standard _ hname]
      exact ⟨[root, scope, name], rfl, by simp [hroot, hscope]⟩
  | @builtin taken _ hw =>
    have hmeaning := ofPhrases_singleton (ofPhrase_type (rowPlace taken) (taken.map (.leaf .word)))
    rw [List.map_map] at hmeaning
    obtain ⟨hstandard, hstd⟩ := not_isStandard_builtin _ hw.spelled
    refine ⟨_, hmeaning, ?_, fun h => absurd h hstandard, fun h => absurd h hstd⟩
    refine ⟨taken, rfl, (words_spelling fun w hw' => ?_).symm⟩
    obtain ⟨t, ht, rfl⟩ := List.mem_map.1 hw'
    exact (isWord_builtinWord _ (Token.isBuiltinWord_iff.1 (hw.isBuiltinWord t ht)).2).1
  | @plain t _ hk hw hs =>
    obtain ⟨hname, hkeyword⟩ := hi.named t List.mem_cons_self hk
    refine ⟨t.text, ofPhrases_singleton (ofPhrase_word _ _), ?_,
      fun h => absurd h hname.not_isStandard, fun _ => hs rfl⟩
    rw [words_plain hname hkeyword]
    exact ⟨[t], rfl, rfl⟩

/-- No more words of builtin types are ahead, so what was taken is the longest spelling. -/
theorem longestBuiltin_of_follow {taken : List Token}
    (hr : ∀ t ∈ r.head?, t.text ∉ builtinWords) : LongestBuiltin taken r := by
  rintro more others hne rfl hlonger
  obtain ⟨t, ts, rfl⟩ := List.exists_cons_of_ne_nil hne
  exact hr t rfl (Token.isBuiltinWord_iff.1 (hlonger.isBuiltinWord t (by simp))).2

/-- A type ahead is derived. -/
theorem derives_of_typeAhead {name : String} (h : TypeAhead name i r) (hname : IsTypeName name)
    (hi : Faithful i) (hr : ∀ t ∈ r.head?, t.text ∉ builtinWords) :
    ∃ p, Derives true .type i r [p] ∧ ofPhrase p = .ok (.type name) := by
  cases hname with
  | builtin hb =>
    obtain ⟨hne, hwords, hspelled⟩ := words_builtin _ hb
    obtain ⟨taken, rfl, htaken⟩ := h.spells
    have hspells : SpellsBuiltin taken := by
      refine ⟨fun hnil => hne (by rw [← htaken, hnil]; rfl), fun t ht => ?_, ?_⟩
      · have hword := hwords t.text (htaken ▸ List.mem_map_of_mem ht)
        exact Token.isBuiltinWord_iff.2 ⟨kind_of_faithful hi (List.mem_append_left _ ht)
          (isWord_builtinWord _ hword).2, hword⟩
      · change spelling (taken.map (·.text)) ∈ builtinSpellings
        rwa [htaken, hspelled]
    refine ⟨_, .builtin hspells fun _ => longestBuiltin_of_follow hr, ?_⟩
    rw [ofPhrase_type, List.map_map]
    change Except.ok (Symbol.type (spelling (taken.map (·.text)))) = _
    rw [htaken, hspelled]
  | @standard x hx =>
    have hspells := h.spells
    rw [words_standard _ hx] at hspells
    obtain ⟨root, scope, _, rfl, hroot, hscope, rfl, hs⟩ :=
      standardAhead_of_spells hi hx hspells (h.alone ⟨x, hx, rfl⟩)
    refine ⟨_, .standard hs, ?_⟩
    rw [ofPhrase_word, hroot, hscope]
    rfl
  | plain hn hk hw =>
    have hspells := h.spells
    rw [words_plain hn hk, spells_cons_iff] at hspells
    obtain ⟨t, _, rfl, rfl, hnil⟩ := hspells
    obtain rfl := spells_nil_iff.1 hnil
    have hkind := kind_of_faithful hi List.mem_cons_self
      (congrArg Lexeme.kind (Lexeme.isWord_of_isName hn hk).2)
    refine ⟨_, .plain hkind hw fun _ hs => ?_, ofPhrase_word _ _⟩
    have hroot : t.text = "std" := by
      cases hs
      assumption
    exact h.plain hroot hs

/-! ## Marks -/

theorem exists_mark {t : Token} {q : Qualifier} (h : t.text = q.word) :
    ∃ m, MarkLeaf t m ∧ Qualifier.ofMark m = .ok q := by
  cases q with
  | const => exact ⟨_, .const h, rfl⟩
  | pointer => exact ⟨_, .pointer h, rfl⟩
  | reference => exact ⟨_, .reference h, rfl⟩

theorem exists_word_of_mark {t : Token} {m : Phrase} (h : MarkLeaf t m) :
    ∃ q, Qualifier.ofMark m = .ok q ∧ t.text = q.word := by
  cases h with
  | const h => exact ⟨.const, rfl, h⟩
  | pointer h => exact ⟨.pointer, rfl, h⟩
  | reference h => exact ⟨.reference, rfl, h⟩

/-- Tokens with the words of qualifiers are their marks. -/
theorem exists_marks {marks : List Token} {qualifiers : List Qualifier}
    (h : marks.map (·.text) = qualifiers.map Qualifier.word) :
    ∃ after : List Phrase, List.Forall₂ MarkLeaf marks after ∧
      after.mapM Qualifier.ofMark = .ok qualifiers := by
  induction qualifiers generalizing marks with
  | nil =>
    rw [List.map_eq_nil_iff.1 h]
    exact ⟨[], .nil, rfl⟩
  | cons q qs ih =>
    obtain ⟨t, ts, rfl, ht, hts⟩ := List.map_eq_cons_iff.1 h
    obtain ⟨m, hm, hq⟩ := exists_mark ht
    obtain ⟨ms, hms, hqs⟩ := ih hts
    refine ⟨m :: ms, .cons hm hms, ?_⟩
    rw [List.mapM_cons, hq, hqs]
    rfl

theorem exists_words_of_marks {marks : List Token} {after : List Phrase}
    (h : List.Forall₂ MarkLeaf marks after) :
    ∃ qualifiers, after.mapM Qualifier.ofMark = .ok qualifiers ∧
      marks.map (·.text) = qualifiers.map Qualifier.word := by
  induction h with
  | nil => exact ⟨[], rfl, rfl⟩
  | cons ht _ ih =>
    obtain ⟨q, hq, hword⟩ := exists_word_of_mark ht
    obtain ⟨qs, hqs, hwords⟩ := ih
    refine ⟨q :: qs, ?_, by rw [List.map_cons, List.map_cons, hword, hwords]⟩
    rw [List.mapM_cons, hq, hqs]
    rfl

end Symbol

/-! ## What is derived is written -/

/-- The words that symbols of a category are written with. -/
def Category.words (cat : Category) (ss : List Symbol) : List String :=
  match cat with
  | .segment | .segments => (Symbol.elementWords ss).tail
  | .typedElement | .elements => (Symbol.argumentWords ss).tail
  | .list opening closing => opening :: ((Symbol.argumentWords ss).tail ++ [closing])
  | .type | .generic | .path | .element | .function => ss.flatMap Symbol.words

/-- What else is known of symbols of a category. -/
def Category.Shape (cat : Category) (input rest : List Token) (ss : List Symbol) : Prop :=
  match cat with
  | .type => ∃ name, ss = [.type name] ∧ TypeAhead name input rest
  | .segment => ∃ name, ss = [.type name] ∧ TypeAhead name input rest ∨
      ∃ args, ss = [.type name, .generic args] ∧ ¬ IsStandard name
  | .segments => IsPathRow ss
  | .element => ∀ name, ss ≠ [.path [.type name]]
  | .generic => ∃ args, ss = [.generic args]
  | .typedElement | .elements => ss ≠ []
  | .path | .list _ _ | .function => True

namespace Symbol

theorem argumentWords_append_tail {ss ts : List Symbol} (hs : ss ≠ []) (ht : ts ≠ []) :
    (argumentWords (ss ++ ts)).tail =
      (argumentWords ss).tail ++ "," :: (argumentWords ts).tail := by
  obtain ⟨s, ss, rfl⟩ := List.exists_cons_of_ne_nil hs
  obtain ⟨t, ts, rfl⟩ := List.exists_cons_of_ne_nil ht
  rw [argumentWords_append]
  rfl

theorem isPathRow_of_segment {i r : List Token} {ss : List Symbol}
    (h : Category.segment.Shape i r ss) : IsPathRow ss := by
  obtain ⟨name, ⟨rfl, -⟩ | ⟨args, rfl, hname⟩⟩ := h
  · exact .type name
  · exact .generic hname args

/-- Only a plain type means a path that is a single type. -/
theorem isPlainType_of_ofPhrase {best : Bool} {i r : List Token} {p : Phrase} {name : String}
    (h : Derives best .path i r [p]) (hi : Named i) (hp : ofPhrase p = .ok (.path [.type name])) :
    p.IsPlainType := by
  obtain ⟨parts, rfl, hparts⟩ := h.exists_segments_of_path
  obtain ⟨elements, helements, -⟩ := hparts.exists_symbols hi
  rw [ofPhrase_path _ helements (ne_nil_of_ofPhrases helements hparts.ne_nil_of_segments)] at hp
  cases hp
  obtain ⟨t, ts, rfl⟩ := List.exists_cons_of_ne_nil hparts.ne_nil_of_segments
  obtain ⟨_, _, hcons, -, hts⟩ := exists_of_ofPhrases_cons helements
  obtain ⟨rfl, rfl⟩ := List.cons.inj hcons
  cases ts with
  | nil =>
    obtain ⟨place, words, heq⟩ := hparts.type_of_segments_singleton.eq_singleton_of_type
    rw [List.singleton_inj.1 heq]
    exact ⟨_, rfl, rfl⟩
  | cons u us =>
    obtain ⟨_, _, hnil, -, -⟩ := exists_of_ofPhrases_cons hts
    cases hnil

/-- Behind a segment and its mark a path goes on. -/
theorem isPathRow_append {i m r : List Token} {mark : Token} {ss ts : List Symbol}
    (hi : Faithful i) (hss : Category.segment.Shape i (mark :: m) ss) (hmark : mark.text = "::")
    (hts : IsPathRow ts) (hm : Spells (elementWords ts).tail m r) (hr : Stops r) :
    IsPathRow (ss ++ ts) := by
  obtain ⟨name, ⟨rfl, h⟩ | ⟨args, rfl, hname⟩⟩ := hss
  · have hname : ¬ IsStandard name := fun h' => (h.alone h' mark rfl).1 hmark
    refine hts.type_cons hname ?_
    -- The type `std` and a name of the standard library would have been one type.
    rintro rfl x hx rfl
    refine h.plain rfl ?_
    have hx' : (elementWords [.type x]).tail = [x] := by
      change LinkerNames.words x ++ [] = _
      rw [List.append_nil, words_of_isWord (isWord_standardName x (List.mem_cons_of_mem _ hx)).1]
    have hstd : LinkerNames.words "std" = ["std"] :=
      words_of_isWord (isWord_standardName "std" List.mem_cons_self).1
    have hwords : Spells ["std", "::", x] i r := by
      refine spells_append_iff.2 ⟨_, hstd ▸ h.spells, ?_⟩
      exact spells_cons_iff.2 ⟨mark, m, rfl, hmark, hx' ▸ hm⟩
    obtain ⟨_, _, _, rfl, -, -, -, hs⟩ :=
      standardAhead_of_spells hi hx hwords fun t ht => (hr t ht).2
    exact hs
  · exact hts.generic_cons hname args

end Symbol

/-- What is derived has the words of what it means, and that can be read. -/
theorem Derives.exists_written {cat : Category} {i r : List Token} {ps : List Phrase}
    (h : Derives true cat i r ps) (hi : Faithful i) (hfollow : cat.Follow r) :
    ∃ ss, Symbol.ofPhrases ps = .ok ss ∧ Spells (cat.words ss) i r ∧ (∀ s ∈ ss, s.Spellable) ∧
      cat.Shape i r ss := by
  have htype {i r : List Token} {ps : List Phrase} (h : Derives true .type i r ps)
      (hi : Faithful i) :
      ∃ ss, Symbol.ofPhrases ps = .ok ss ∧ Spells (Category.type.words ss) i r ∧
        (∀ s ∈ ss, s.Spellable) ∧ Category.type.Shape i r ss := by
    obtain ⟨name, hmeaning, hahead⟩ := Symbol.typeAhead_of_derives h hi
    refine ⟨_, hmeaning, ?_, by simpa using Symbol.Spellable.type, name, rfl, hahead⟩
    simpa [Category.words, Symbol.words] using hahead.spells
  induction h with
  | standard hs => exact htype (.standard hs) hi
  | builtin hw hmax => exact htype (.builtin hw hmax) hi
  | plain hk hw hs => exact htype (.plain hk hw hs) hi
  | generic _ ih =>
    obtain ⟨args, hargs, hwords, hspellable, -⟩ := ih hi (.inr rfl)
    refine ⟨_, Symbol.ofPhrases_singleton (Symbol.ofPhrase_generic _ hargs), ?_, ?_, args, rfl⟩
    · simpa [Category.words, Symbol.words] using hwords
    · simpa using Symbol.Spellable.generic hspellable
  | segment _ ih =>
    obtain ⟨_, hss, hwords, hspellable, name, rfl, hahead⟩ := ih hi hfollow
    refine ⟨_, hss, ?_, hspellable, name, .inl ⟨rfl, hahead⟩⟩
    simpa [Category.words, Symbol.words, Symbol.elementWords, Symbol.separator] using hwords
  | segmentGeneric h h' ih ih' =>
    cases h' with
    | generic h' =>
      obtain ⟨first, m, rfl, hfirst⟩ := Reader.head_of_list h'
      obtain ⟨_, hss, hwords, hspellable, name, rfl, hahead⟩ :=
        ih hi fun t ht => by cases ht; rw [hfirst]; decide
      obtain ⟨_, hts, hwords', hspellable', args, rfl⟩ :=
        ih' (hi.mono h.suffix.subset) trivial
      refine ⟨_, Symbol.ofPhrases_append_of_ok hss hts, ?_, ?_, name, .inr ⟨args, rfl, ?_⟩⟩
      · have hboth := spells_append_iff.2 ⟨_, hahead.spells, hwords'⟩
        simpa [Category.words, Symbol.words, Symbol.elementWords, Symbol.separator] using hboth
      · exact fun s hs => (List.mem_append.1 hs).elim (hspellable s) (hspellable' s)
      · exact fun h => (hahead.alone h first rfl).2 hfirst
  | last h ih =>
    obtain ⟨ss, hss, hwords, hspellable, hshape⟩ := ih hi fun t ht => (hfollow t ht).1
    exact ⟨ss, hss, hwords, hspellable, Symbol.isPathRow_of_segment hshape⟩
  | scope h hmark h' ih ih' =>
    obtain ⟨ss, hss, hwords, hspellable, hshape⟩ :=
      ih hi fun t ht => by cases ht; rw [hmark]; decide
    have hi' := hi.mono fun t ht => h.suffix.subset (List.mem_cons_of_mem _ ht)
    obtain ⟨ts, hts, hwords', hspellable', hrow⟩ := ih' hi' hfollow
    refine ⟨_, Symbol.ofPhrases_append_of_ok hss hts, ?_, ?_,
      Symbol.isPathRow_append hi hshape hmark hrow hwords' hfollow⟩
    · change Spells (Symbol.elementWords (ss ++ ts)).tail _ _
      rw [(Symbol.isPathRow_of_segment hshape).elementWords_append hrow]
      exact spells_append_iff.2 ⟨_, hwords, spells_cons_iff.2 ⟨_, _, rfl, hmark, hwords'⟩⟩
    · exact fun s hs => (List.mem_append.1 hs).elim (hspellable s) (hspellable' s)
  | path _ ih =>
    obtain ⟨ss, hss, hwords, hspellable, hrow⟩ := ih hi hfollow
    refine ⟨_, Symbol.ofPhrases_singleton (Symbol.ofPhrase_path _ hss hrow.ne_nil), ?_, ?_, trivial⟩
    · simpa [Category.words, Symbol.words] using hwords
    · simpa using Symbol.Spellable.path hrow hspellable
  | elementType _ ih =>
    obtain ⟨_, hss, hwords, hspellable, name, rfl, -⟩ := ih hi fun t ht => (hfollow t ht).1
    obtain ⟨_, ⟨⟩, hs⟩ := Symbol.exists_of_ofPhrases_singleton hss
    refine ⟨_, Symbol.ofPhrases_singleton ((Symbol.ofPhrase_element _ _).trans hs), hwords,
      hspellable, fun _ => ?_⟩
    simp
  | elementPath h hplain ih =>
    obtain ⟨ss, hss, hwords, hspellable, -⟩ := ih hi hfollow
    obtain ⟨s, rfl, hs⟩ := Symbol.exists_of_ofPhrases_singleton hss
    refine ⟨_, Symbol.ofPhrases_singleton ((Symbol.ofPhrase_element _ _).trans hs), hwords,
      hspellable, fun name hname => ?_⟩
    rw [List.singleton_inj.1 hname] at hs
    exact hplain rfl (Symbol.isPlainType_of_ofPhrase h hi.named hs)
  | typedElement _ hm ih =>
    obtain ⟨ss, hss, hwords, hspellable, hshape⟩ := ih hi (Reader.stops_marks hm hfollow)
    obtain ⟨s, rfl, hs⟩ := Symbol.exists_of_ofPhrases_singleton hss
    obtain ⟨qualifiers, hq, hmarks⟩ := Symbol.exists_words_of_marks hm
    refine ⟨_, Symbol.ofPhrases_singleton (Symbol.ofPhrase_typedElement _ hs hq), ?_, ?_,
      List.cons_ne_nil _ _⟩
    · have hwords' := spells_append_iff.2 ⟨_, hwords, _, rfl, hmarks⟩
      simpa [Category.words, Symbol.argumentWords, Symbol.words] using hwords'
    · have hinner := hspellable s List.mem_cons_self
      simpa using Symbol.Spellable.typed hinner fun name hname => hshape name (by rw [hname])
  | single _ ih => exact ih hi hfollow
  | comma h hmark _ ih ih' =>
    obtain ⟨ss, hss, hwords, hspellable, hne⟩ := ih hi (Reader.stops_separator (.inr hmark)).1
    have hi' := hi.mono fun t ht => h.suffix.subset (List.mem_cons_of_mem _ ht)
    obtain ⟨ts, hts, hwords', hspellable', hne'⟩ := ih' hi' hfollow
    refine ⟨_, Symbol.ofPhrases_append_of_ok hss hts, ?_, ?_,
      List.append_ne_nil_of_left_ne_nil hne ts⟩
    · change Spells (Symbol.argumentWords (ss ++ ts)).tail _ _
      rw [Symbol.argumentWords_append_tail hne hne']
      exact spells_append_iff.2 ⟨_, hwords, spells_cons_iff.2 ⟨_, _, rfl, hmark, hwords'⟩⟩
    · exact fun s hs => (List.mem_append.1 hs).elim (hspellable s) (hspellable' s)
  | empty ho hc =>
    refine ⟨[], rfl, spells_cons_iff.2 ⟨_, _, rfl, ho, ?_⟩, by simp, trivial⟩
    exact hc ▸ spells_singleton _ _
  | list ho _ hc ih =>
    obtain ⟨ss, hss, hwords, hspellable, -⟩ :=
      ih (hi.mono (List.subset_cons_self _ _)) (Reader.stops_separator (.inl (hc ▸ hfollow))).1
    refine ⟨ss, hss, spells_cons_iff.2 ⟨_, _, rfl, ho, ?_⟩, hspellable, trivial⟩
    exact spells_append_iff.2 ⟨_, hwords, hc ▸ spells_singleton _ _⟩
  | function h h' ih ih' =>
    obtain ⟨first, m, rfl, hfirst⟩ := Reader.head_of_list h'
    obtain ⟨ss, hss, hwords, hspellable, -⟩ := ih hi (stops_cons (by rw [hfirst]; decide))
    obtain ⟨callee, rfl, hcallee⟩ := Symbol.exists_of_ofPhrases_singleton hss
    obtain ⟨args, hargs, hwords', hspellable', -⟩ := ih' (hi.mono h.suffix.subset) (.inl rfl)
    refine ⟨_, Symbol.ofPhrases_singleton (Symbol.ofPhrase_function _ hcallee
      (Symbol.ofArguments_of_ok hargs).1), ?_, ?_, trivial⟩
    · have hboth := spells_append_iff.2 ⟨_, hwords, hwords'⟩
      simpa [Category.words, Symbol.words, Symbol.constIf] using hboth
    · simpa [Symbol.constIf] using
        Symbol.Spellable.function (hspellable callee List.mem_cons_self) hspellable'
  | @constFunction _ _ rest mark _ _ h h' hmark ih ih' =>
    obtain ⟨first, m, rfl, hfirst⟩ := Reader.head_of_list h'
    obtain ⟨ss, hss, hwords, hspellable, -⟩ := ih hi (stops_cons (by rw [hfirst]; decide))
    obtain ⟨callee, rfl, hcallee⟩ := Symbol.exists_of_ofPhrases_singleton hss
    obtain ⟨args, hargs, hwords', hspellable', -⟩ := ih' (hi.mono h.suffix.subset) (.inl rfl)
    refine ⟨_, Symbol.ofPhrases_singleton (Symbol.ofPhrase_function _ hcallee
      ((Symbol.ofArguments_of_ok hargs).2 _ rfl)), ?_, ?_, trivial⟩
    · have hconst : Spells ["const"] (mark :: rest) rest := hmark ▸ spells_singleton mark rest
      have hboth := spells_append_iff.2 ⟨_, hwords, spells_append_iff.2 ⟨_, hwords', hconst⟩⟩
      simpa [Category.words, Symbol.words, Symbol.constIf, Qualifier.word] using hboth
    · have hconst : Symbol.Spellable (.typed (.function callee args) [.const]) :=
        .typed (.function (hspellable callee List.mem_cons_self) hspellable') (by simp)
      simpa [Symbol.constIf] using hconst

end LinkerNames

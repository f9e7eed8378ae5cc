import LinkerNames.Proofs.Encoding.Total
import LinkerNames.Proofs.Symbol.Spelled
/-!
# The symbols of signatures

A text means a symbol if and only if the symbol is fit to be a function, can be read, and has the
words of the text. So every such symbol is meant by a text, and two texts that mean the same have
the same lexemes: all that is lost on the way are blanks.

What is derived is written, as we have seen. Here we derive what is written, along the symbol.
-/

namespace LinkerNames

/-! ## What is written can be derived -/

/-- Wherever the words of a symbol stand it is derived and meant. -/
def Symbol.ReadAs (cat : Category) (s : Symbol) : Prop :=
  ∀ i r, Faithful i → Spells s.words i r → cat.Follow r →
    ∃ p, Derives true cat i r [p] ∧ ofPhrase p = .ok s

/-- A symbol of a role is read where it is written. Of the elements of a path only template
arguments are read alone, and of what has qualifiers a path that is a single type is not read as a
path. -/
def Role.Reads (role : Role) (s : Symbol) : Prop :=
  match role with
  | .type => True
  | .element => ∀ args, s = .generic args → s.ReadAs .generic
  | .path => s.ReadAs .path
  | .inner => (∀ name, s ≠ .path [.type name]) → s.ReadAs .element
  | .argument => s.ReadAs .typedElement
  | .function => s.ReadAs .function

namespace Symbol

variable {i r : List Token}

theorem derives_elements {ss : List Symbol} (hne : ss ≠ [])
    (hss : ∀ s ∈ ss, ReadAs .typedElement s) (hi : Faithful i)
    (hwords : Spells (argumentWords ss).tail i r) (hr : Stops r) :
    ∃ ps, Derives true .elements i r ps ∧ ofPhrases ps = .ok ss := by
  induction ss generalizing i with
  | nil => exact absurd rfl hne
  | cons s ss ih =>
    have hsplit : Spells (s.words ++ argumentWords ss) i r := hwords
    obtain ⟨m, hs, hrest⟩ := spells_append_iff.1 hsplit
    have hread := hss s List.mem_cons_self i m hi hs
    cases ss with
    | nil =>
      obtain rfl := spells_nil_iff.1 hrest
      obtain ⟨p, hp, hmeaning⟩ := hread hr
      exact ⟨_, .single hp, ofPhrases_singleton hmeaning⟩
    | cons s' ss =>
      obtain ⟨mark, m', rfl, hmark, hrest⟩ := spells_cons_iff.1 hrest
      obtain ⟨p, hp, hmeaning⟩ := hread (Reader.stops_separator (.inr hmark)).1
      have hi' := hi.mono fun t ht => hs.suffix.subset (List.mem_cons_of_mem mark ht)
      obtain ⟨ps, hps, hmeanings⟩ := ih (List.cons_ne_nil _ _)
        (fun x hx => hss x (List.mem_cons_of_mem s hx)) hi' hrest
      exact ⟨_, .comma hp hmark hps, ofPhrases_cons_of_ok hmeaning hmeanings⟩

theorem derives_list {opening closing : String} (hc : Reader.IsClosing closing) {ss : List Symbol}
    (hss : ∀ s ∈ ss, ReadAs .typedElement s) (hi : Faithful i)
    (hwords : Spells (opening :: ((argumentWords ss).tail ++ [closing])) i r) :
    ∃ ps, Derives true (.list opening closing) i r ps ∧ ofPhrases ps = .ok ss := by
  obtain ⟨first, m, rfl, hfirst, hwords⟩ := spells_cons_iff.1 hwords
  obtain ⟨m', hinside, hclosing⟩ := spells_append_iff.1 hwords
  obtain ⟨last, _, rfl, hlast, hnil⟩ := spells_cons_iff.1 hclosing
  obtain rfl := spells_nil_iff.1 hnil
  by_cases hne : ss = []
  · subst hne
    obtain rfl := spells_nil_iff.1 hinside
    exact ⟨[], .empty hfirst hlast, rfl⟩
  · obtain ⟨ps, hps, hmeanings⟩ := derives_elements hne hss (hi.mono (List.subset_cons_self _ _))
      hinside (Reader.stops_separator (.inl (hlast ▸ hc))).1
    exact ⟨ps, .list hfirst hps hlast, hmeanings⟩

theorem typeAhead_of_head {name : String} (h : Spells (LinkerNames.words name) i r)
    (halone : IsStandard name → ∀ t ∈ r.head?, t.text ≠ "<")
    (hr : ∀ t ∈ r.head?, t.text ≠ "::") : TypeAhead name i r := by
  refine ⟨h, fun hs t ht => ⟨hr t ht, halone hs t ht⟩, ?_⟩
  rintro rfl hs
  rw [words_of_isWord (isWord_standardName "std" List.mem_cons_self).1] at h
  obtain ⟨t, _, rfl, -, hnil⟩ := spells_cons_iff.1 h
  obtain rfl := spells_nil_iff.1 hnil
  exact StandardAhead.not_of_head hr hs

/-- A type before a path that is not read as one type together with it. -/
theorem typeAhead_of_scope {name : String} {others : List Symbol} {mark : Token} {m : List Token}
    {ps : List Phrase} (hrow : IsPathRow (.type name :: others)) (hothers : IsPathRow others)
    (hfits : ∀ e ∈ others, Fits .element e)
    (h : Spells (LinkerNames.words name) i (mark :: m)) (hname : ¬ IsStandard name)
    (hwords : Spells (elementWords others).tail m r) (hm : Derives true .segments m r ps) :
    TypeAhead name i (mark :: m) := by
  refine ⟨h, fun hs => absurd hs hname, ?_⟩
  rintro rfl hs
  rw [words_of_isWord (isWord_standardName "std" List.mem_cons_self).1] at h
  obtain ⟨t, _, rfl, -, hnil⟩ := spells_cons_iff.1 h
  obtain rfl := spells_nil_iff.1 hnil
  -- The path behind would be a single name, which the row of elements rules out.
  obtain ⟨_, x, following, ⟨⟩, -, hx, hend⟩ := hs.tail
  obtain rfl : r = following := hm.rest_of_standardName_segments hx hend
  obtain ⟨taken, htaken, hsingle⟩ := hwords
  obtain rfl : [x] = taken := List.append_cancel_right htaken
  have hother := hothers.eq_type_of_elementWords hfits hsingle.symm
  exact hrow.apart x.text hx (hother ▸ List.suffix_refl _)

theorem derives_segments {es : List Symbol} (hrow : IsPathRow es)
    (hfits : ∀ e ∈ es, Fits .element e)
    (hes : ∀ e ∈ es, ∀ args, e = .generic args → ReadAs .generic e) (hi : Faithful i)
    (hwords : Spells (elementWords es).tail i r) (hr : Stops r) :
    ∃ ps, Derives true .segments i r ps ∧ ofPhrases ps = .ok es := by
  induction hn : es.length using Nat.strongRecOn generalizing es i with
  | ind n ih =>
    obtain ⟨name, generics, others, rfl, hname, hgenerics, hstandard, hothers⟩ :=
      hrow.exists_segment hfits
    have hsplit : Spells (LinkerNames.words name ++ (elementWords generics ++ elementWords others))
        i r := by
      rwa [← elementWords_append]
    obtain ⟨m, htype, hrest⟩ := spells_append_iff.1 hsplit
    obtain ⟨m', hinside, hbehind⟩ := spells_append_iff.1 hrest
    have hscope (hothers : IsPathRow others) : ∃ mark m'' ps, m' = mark :: m'' ∧
        mark.text = "::" ∧ Spells (elementWords others).tail m'' r ∧
        Derives true .segments m'' r ps ∧ ofPhrases ps = .ok others := by
      rw [hothers.elementWords] at hbehind
      obtain ⟨mark, m'', rfl, hmark, hbehind⟩ := spells_cons_iff.1 hbehind
      have hsub : others ⊆ .type name :: (generics ++ others) := by simp
      have hi' := hi.mono fun t ht => htype.suffix.subset
        (hinside.suffix.subset (List.mem_cons_of_mem mark ht))
      have hlt : others.length < n := by
        simp only [← hn, List.length_cons, List.length_append]
        omega
      obtain ⟨ps, hps, hmeanings⟩ := ih others.length hlt hothers
        (fun e he => hfits e (hsub he)) (fun e he => hes e (hsub he)) hi' hbehind rfl
      exact ⟨mark, m'', ps, rfl, hmark, hbehind, hps, hmeanings⟩
    -- The segment comes first, then nothing or a path behind it.
    have hfinish {parts : List Phrase} (hparts : Derives true .segment i m' parts)
        (hmeaning : ofPhrases parts = .ok (.type name :: generics)) :
        ∃ ps, Derives true .segments i r ps ∧
          ofPhrases ps = .ok (.type name :: (generics ++ others)) := by
      rcases hothers with rfl | hothers
      · obtain rfl := spells_nil_iff.1 hbehind
        exact ⟨_, .last hparts, by simpa using hmeaning⟩
      · obtain ⟨mark, m'', ps, rfl, hmark, -, hps, hmeanings⟩ := hscope hothers
        exact ⟨_, .scope hparts hmark hps, ofPhrases_append_of_ok hmeaning hmeanings⟩
    rcases hgenerics with rfl | ⟨args, rfl⟩
    · obtain rfl := spells_nil_iff.1 hinside
      obtain ⟨hahead, hfollow⟩ : TypeAhead name i m ∧ ∀ t ∈ m.head?, t.text ∉ builtinWords := by
        rcases hothers with rfl | hothers
        · obtain rfl := spells_nil_iff.1 hbehind
          exact ⟨typeAhead_of_head htype (fun _ t ht => (hr t ht).2.2) fun t ht => (hr t ht).2.1,
            fun t ht => (hr t ht).1⟩
        · obtain ⟨mark, m'', ps, rfl, hmark, hbehind, hps, -⟩ := hscope hothers
          refine ⟨typeAhead_of_scope hrow hothers (fun e he => hfits e (List.mem_cons_of_mem _ he))
            htype (hstandard hothers.ne_nil) hbehind hps, fun t ht => ?_⟩
          cases ht
          rw [hmark]
          decide
      obtain ⟨p, hp, hmeaning⟩ := derives_of_typeAhead hahead hname hi hfollow
      exact hfinish (.segment hp) (ofPhrases_singleton hmeaning)
    · have hgeneric : Spells (words (.generic args)) m m' := by
        simpa [elementWords, separator] using hinside
      obtain ⟨first, _, rfl, hfirst, -⟩ := spells_cons_iff.1 hgeneric
      have hahead := typeAhead_of_head htype (fun h => absurd h (hstandard (by simp)))
        (by rintro t ⟨⟩; rw [hfirst]; decide)
      obtain ⟨p, hp, hmeaning⟩ := derives_of_typeAhead hahead hname hi
        (by rintro t ⟨⟩; rw [hfirst]; decide)
      obtain ⟨q, hq, hmeaning'⟩ := hes (.generic args) (by simp) args rfl _ m'
        (hi.mono hp.suffix.subset) hgeneric trivial
      exact hfinish (.segmentGeneric hp hq)
        (ofPhrases_cons_of_ok hmeaning (ofPhrases_singleton hmeaning'))

/-- A path of one plain type means one type. -/
theorem ofPhrase_of_isPlainType {p : Phrase} (h : Derives true .path i r [p]) (hi : Faithful i)
    (hp : p.IsPlainType) : ∃ name, ofPhrase p = .ok (.path [.type name]) := by
  obtain ⟨parts, rfl, hparts⟩ := h.exists_segments_of_path
  obtain ⟨t, hchildren, -⟩ := hp
  cases hchildren
  obtain ⟨name, hmeaning, -⟩ := typeAhead_of_derives hparts.type_of_segments_singleton hi
  exact ⟨name, ofPhrase_path _ hmeaning (List.cons_ne_nil _ _)⟩

theorem derives_function {name : Symbol} {args : List Symbol} {m : List Token}
    (hname : ReadAs .path name) (hargs : ∀ a ∈ args, ReadAs .typedElement a) (hi : Faithful i)
    (hwords : Spells name.words i m)
    (hwords' : Spells ("(" :: ((argumentWords args).tail ++ [")"])) m r) :
    ∃ p ps, Derives true .path i m [p] ∧ Derives true (.list "(" ")") m r ps ∧
      ofPhrase p = .ok name ∧ ofPhrases ps = .ok args := by
  obtain ⟨ps, hps, hmeanings⟩ :=
    derives_list (.inl rfl) hargs (hi.mono hwords.suffix.subset) hwords'
  obtain ⟨first, m, rfl, hfirst⟩ := Reader.head_of_list hps
  obtain ⟨p, hp, hmeaning⟩ := hname i _ hi hwords (stops_cons (by rw [hfirst]; decide))
  exact ⟨p, ps, hp, hps, hmeaning, hmeanings⟩

/-- A symbol that can be read is read where it is written, in the category of its role. -/
theorem Fits.reads {role : Role} {s : Symbol} (h : Fits role s) (hs : s.Spellable) :
    role.Reads s := by
  induction h with
  | type => trivial
  | elementType h =>
    rintro args rfl
    cases h
  | generic _ ih =>
    rintro _ ⟨⟩ i r hi hwords -
    cases hs with
    | generic hs =>
      obtain ⟨ps, hps, hmeanings⟩ :=
        derives_list (.inr rfl) (fun a ha => ih a ha (hs a ha)) hi hwords
      exact ⟨_, .generic hps, ofPhrase_generic _ hmeanings⟩
  | path hne hfits ih =>
    intro i r hi hwords hr
    cases hs with
    | path hrow hs =>
      obtain ⟨ps, hps, hmeanings⟩ :=
        derives_segments hrow hfits (fun e he => ih e he (hs e he)) hi hwords hr
      exact ⟨_, .path hps, ofPhrase_path _ hmeanings hne⟩
  | innerType h =>
    intro _ i r hi hwords hr
    cases h with
    | type hname =>
      have hahead :=
        typeAhead_of_head hwords (fun _ t ht => (hr t ht).2.2) fun t ht => (hr t ht).2.1
      obtain ⟨p, hp, hmeaning⟩ := derives_of_typeAhead hahead hname hi fun t ht => (hr t ht).1
      exact ⟨_, .elementType hp, (ofPhrase_element _ _).trans hmeaning⟩
  | innerPath _ ih =>
    intro hinner i r hi hwords hr
    obtain ⟨p, hp, hmeaning⟩ := ih hs i r hi hwords hr
    refine ⟨_, .elementPath hp fun _ hplain => ?_, (ofPhrase_element _ _).trans hmeaning⟩
    obtain ⟨name, hname⟩ := ofPhrase_of_isPlainType hp hi hplain
    exact hinner name (Except.ok.inj (hmeaning.symm.trans hname))
  | argument _ ih =>
    intro i r hi hwords hr
    cases hs with
    | typed hs hinner =>
      obtain ⟨_, hwords, marks, rfl, hmarks⟩ := spells_append_iff.1 hwords
      obtain ⟨after, hafter, hq⟩ := exists_marks hmarks
      obtain ⟨p, hp, hmeaning⟩ := ih hs hinner i _ hi hwords (Reader.stops_marks hafter hr)
      exact ⟨_, .typedElement hp hafter, ofPhrase_typedElement _ hmeaning hq⟩
  | function _ _ ih ih' =>
    intro i r hi hwords _
    cases hs with
    | function hs hs' =>
      obtain ⟨m, hname, hargs⟩ := spells_append_iff.1 hwords
      obtain ⟨p, q, hp, hq, hmeaning, hmeanings⟩ :=
        derives_function (ih hs) (fun a ha => ih' a ha (hs' a ha)) hi hname hargs
      exact ⟨_, .function hp hq, ofPhrase_function _ hmeaning (ofArguments_of_ok hmeanings).1⟩
  | constFunction _ _ ih ih' =>
    intro i r hi hwords _
    cases hs with
    | typed hs =>
      cases hs with
      | function hs hs' =>
        obtain ⟨m', hfunction, hconst⟩ := spells_append_iff.1 hwords
        obtain ⟨mark, _, rfl, hmark, hnil⟩ := spells_cons_iff.1 hconst
        obtain rfl := spells_nil_iff.1 hnil
        obtain ⟨m, hname, hargs⟩ := spells_append_iff.1 hfunction
        obtain ⟨p, q, hp, hq, hmeaning, hmeanings⟩ :=
          derives_function (ih hs) (fun a ha => ih' a ha (hs' a ha)) hi hname hargs
        exact ⟨_, .constFunction hp hq hmark,
          ofPhrase_function _ hmeaning ((ofArguments_of_ok hmeanings).2 (.leaf .const mark) rfl)⟩

end Symbol

/-! ## Rows and whole texts -/

/-- The readers read a row that is derived. -/
theorem signature_of_derives {row : List Token} {last : Token} {p : Phrase}
    (hrow : Named (row ++ [last])) (hlast : last.toLexeme = .finish)
    (h : Derives true .function row [] [p]) :
    ∃ c, Reader.signature ⟨row ++ [last], last⟩ = .ok p c := by
  have hfunction := Reader.function_of_derives hlast hrow (h.append_finish hlast)
    (by simp [hlast, Lexeme.finish])
  exact ⟨_, signature_eq_ok_iff.2 ⟨_, last, hfunction,
    Reader.expect_cons (by simp [Expected.admits, hlast, Lexeme.finish])⟩⟩

/-- A text is read as what its tokens are derived as. -/
theorem parse_of_derives {text : String} {row : List Token} {last : Token} {p : Phrase}
    (htokens : tokens text = row ++ [last]) (hlast : last.toLexeme = .finish)
    (h : Derives true .function row [] [p]) : parse text = .ok p := by
  rw [parse_eq_ok_iff_signature, ofText_eq text htokens]
  exact signature_of_derives (htokens ▸ named_tokens text) hlast h

/-- A row is derived as what means a symbol if and only if the symbol is fit, can be read, and has
the words of the row. -/
theorem Symbol.exists_derives_iff {row : List Token} (hrow : Faithful row) {s : Symbol} :
    (∃ p, Derives true .function row [] [p] ∧ ofPhrase p = .ok s) ↔
      Fits .function s ∧ s.Spellable ∧ row.map (·.text) = s.words := by
  constructor
  · rintro ⟨p, hp, hs⟩
    obtain ⟨ss, hss, hspells, hspellable, -⟩ := hp.exists_written hrow trivial
    obtain ⟨ss', hss', hfits⟩ := hp.exists_symbols hrow.named
    obtain rfl : ss' = ss := Except.ok.inj (hss'.symm.trans hss)
    obtain ⟨s', rfl, hs'⟩ := exists_of_ofPhrases_singleton hss
    obtain rfl : s' = s := Except.ok.inj (hs'.symm.trans hs)
    refine ⟨hfits s' List.mem_cons_self, hspellable s' List.mem_cons_self, ?_⟩
    obtain ⟨taken, htaken, htexts⟩ := hspells
    rw [List.append_nil] at htaken
    rw [htaken, htexts]
    exact List.append_nil _
  · rintro ⟨hfits, hspellable, heq⟩
    exact hfits.reads hspellable row [] hrow (heq ▸ spells_self row) trivial

/-- A text means the symbols that are fit, can be read, and have its words. -/
theorem Symbol.ofText_eq_ok_iff_words {text : String} {s : Symbol} :
    ofText text = .ok s ↔ Fits .function s ∧ s.Spellable ∧ LinkerNames.words text = s.words := by
  obtain ⟨row, last, htokens, hlast, hkinds⟩ := tokens_eq_append_finish text
  have hrow : Faithful row := (faithful_tokens text).mono (htokens ▸ List.subset_append_left _ _)
  have hwords : LinkerNames.words text = row.map (·.text) := by
    rw [LinkerNames.words, htokens, List.dropLast_concat]
  rw [ofText_eq_ok_iff, hwords, ← exists_derives_iff hrow]
  constructor
  · rintro ⟨p, hp, hs⟩
    exact ⟨p, Derives.of_append_finish (r := []) hlast (derives_of_parse htokens hlast hkinds hp),
      hs⟩
  · rintro ⟨p, hp, hs⟩
    exact ⟨p, parse_of_derives htokens hlast hp, hs⟩

/-- The text of a symbol means the symbol, if any text does. -/
theorem Symbol.ofText_toText_eq_ok_iff {s : Symbol} :
    ofText s.toText = .ok s ↔ Fits .function s ∧ s.Spellable := by
  rw [ofText_eq_ok_iff_words]
  constructor
  · rintro ⟨hfits, hspellable, -⟩
    exact ⟨hfits, hspellable⟩
  · rintro ⟨hfits, hspellable⟩
    exact ⟨hfits, hspellable, words_spelling hfits.isWord_of_mem_words⟩

/-! ## Main theorem -/

/-- The symbols that texts mean are those that are fit to be a function and can be read. Each of
them is what its own text means, and texts that mean the same have the same lexemes. -/
theorem ofText_image :
    (∀ s, (∃ text, Symbol.ofText text = .ok s) ↔ Symbol.Fits .function s ∧ s.Spellable) ∧
      (∀ s, Symbol.Fits .function s ∧ s.Spellable ↔ Symbol.ofText s.toText = .ok s) ∧
      ∀ text text' s, Symbol.ofText text = .ok s → Symbol.ofText text' = .ok s →
        (tokens text).map Token.toLexeme = (tokens text').map Token.toLexeme := by
  refine ⟨fun s => ⟨?_, ?_⟩, fun s => Symbol.ofText_toText_eq_ok_iff.symm, ?_⟩
  · rintro ⟨text, h⟩
    obtain ⟨hfits, hspellable, -⟩ := Symbol.ofText_eq_ok_iff_words.1 h
    exact ⟨hfits, hspellable⟩
  · intro h
    exact ⟨s.toText, Symbol.ofText_toText_eq_ok_iff.2 h⟩
  · intro text text' s h h'
    obtain ⟨-, -, hwords⟩ := Symbol.ofText_eq_ok_iff_words.1 h
    obtain ⟨-, -, hwords'⟩ := Symbol.ofText_eq_ok_iff_words.1 h'
    rw [map_toLexeme_tokens_eq, map_toLexeme_tokens_eq, hwords, hwords']

/-- Blanks and lines do not matter to what a text means. -/
theorem ofText_image_blanks :
    (tokens "a::f(int) const").map Token.toLexeme =
      (tokens "a :: f ( int )const").map Token.toLexeme := by
  have hleft : Symbol.ofText "a::f(int) const" = .ok (.typed
      (.function (.path [.type "a", .type "f"]) [.typed (.type "int") []]) [.const]) :=
    Except.eq_ok_of_toOption (by decide +kernel)
  have hright : Symbol.ofText "a :: f ( int )const" = .ok (.typed
      (.function (.path [.type "a", .type "f"]) [.typed (.type "int") []]) [.const]) :=
    Except.eq_ok_of_toOption (by decide +kernel)
  exact ofText_image.2.2 _ _ _ hleft hright

end LinkerNames

import LinkerNames.Proofs.Signature.Continuation
import LinkerNames.Proofs.Signature.Impasse
import LinkerNames.Proofs.Symbol.Image
/-!
# Where a text is rejected

A text that is no signature is rejected at the first of its tokens that cannot stand where it
stands: what comes before is the beginning of some signature, and together with the token it is of
none. Each thing that is expected there could have stood in its place.

For the beginnings, rows of tokens that were made up have to be the tokens of some text. That the
meaning of a row can be written again gives a text with the same lexemes.
-/

namespace LinkerNames

/-- These lexemes are the beginning of a text that is accepted. -/
def Begins (ls : List Lexeme) : Prop :=
  ∃ text p, parse text = .ok p ∧ ls <+: (tokens text).map Token.toLexeme

/-- The rejection of a text is for the token between two rows, which is the first that cannot stand
where it stands, and hopes for what could have stood there. -/
structure Rejection.At (why : Rejection) (text : String) (before : List Token) (t : Token)
    (after : List Token) : Prop where
  token_eq : why.token = t
  place_eq : why.place = t.place
  tokens_eq : tokens text = before ++ t :: after
  begins : Begins (before.map Token.toLexeme)
  not_begins : ¬ Begins ((before ++ [t]).map Token.toLexeme)
  possible : ∀ x ∈ why.expected, ∃ u : Token, x.admits u = true ∧
    Begins ((before ++ [u]).map Token.toLexeme)

theorem Begins.of_append {ls ms : List Lexeme} (h : Begins (ls ++ ms)) : Begins ls := by
  obtain ⟨text, p, hp, hprefix⟩ := h
  exact ⟨text, p, hp, (List.prefix_append ls ms).trans hprefix⟩

/-- Nothing comes behind the end of the input. -/
theorem not_begins_of_finish (ls : List Lexeme) (l : Lexeme) :
    ¬ Begins (ls ++ [.finish] ++ [l]) := by
  rintro ⟨text, p, -, hprefix⟩
  obtain ⟨row, last, htokens, -, hkinds⟩ := tokens_eq_append_finish text
  rw [htokens, List.map_append, List.map_singleton, List.prefix_concat_iff] at hprefix
  have hmem : Lexeme.finish ∈ row.map Token.toLexeme := by
    rcases hprefix with heq | hprefix
    · rw [← List.append_inj_left' heq rfl]
      simp
    · exact hprefix.subset (by simp)
  obtain ⟨t, ht, hfinish⟩ := List.mem_map.1 hmem
  exact hkinds t ht (congrArg Lexeme.kind hfinish)

/-! ## Rows that are the tokens of texts -/

/-- What can be derived of a row is accepted as a text with the same lexemes. -/
theorem exists_text_of_derives {row : List Token} {ps : List Phrase} (hrow : Faithful row)
    (h : Derives false .function row [] ps) :
    ∃ text p, parse text = .ok p ∧
      (tokens text).map Token.toLexeme = row.map Token.toLexeme ++ [.finish] := by
  obtain ⟨qs, hq⟩ := (h.exists_best trivial).resolve_right fun h => h.1
  obtain ⟨q, rfl⟩ := hq.eq_singleton_of_function
  obtain ⟨ss, hss, -⟩ := hq.exists_symbols hrow.named
  obtain ⟨s, rfl, hs⟩ := Symbol.exists_of_ofPhrases_singleton hss
  obtain ⟨hfits, hspellable, hwords⟩ := (Symbol.exists_derives_iff hrow).1 ⟨q, hq, hs⟩
  have htext := Symbol.ofText_toText_eq_ok_iff.2 ⟨hfits, hspellable⟩
  obtain ⟨p, hp, -⟩ := Symbol.ofText_eq_ok_iff.1 htext
  refine ⟨s.toText, p, hp, ?_⟩
  rw [map_toLexeme_tokens_eq, (Symbol.ofText_eq_ok_iff_words.1 htext).2.2, ← hwords,
    hrow.map_toLexeme]

/-- A row with the lexemes of an accepted text is read. -/
theorem exists_signature_of_lexemes {text : String} {p : Phrase} (h : parse text = .ok p)
    {row : List Token} (hrow : Faithful row)
    (hlexemes : row.map Token.toLexeme = (tokens text).map Token.toLexeme) (fin : Token)
    (hfin : row.getLast? = some fin) :
    fin.toLexeme = .finish ∧ ∃ q c, Reader.signature ⟨row, fin⟩ = .ok q c := by
  obtain ⟨front, rfl⟩ := List.getLast?_eq_some_iff.1 hfin
  rw [map_toLexeme_tokens_eq, List.map_append, List.map_singleton] at hlexemes
  obtain ⟨hfront, hlast⟩ := List.append_inj' hlexemes rfl
  have hlast : fin.toLexeme = .finish := List.singleton_inj.1 hlast
  have hfaithful : Faithful front := hrow.mono (List.subset_append_left _ _)
  obtain ⟨s, hs, -⟩ := exists_symbol_of_parse h
  obtain ⟨hfits, hspellable, hwords⟩ :=
    Symbol.ofText_eq_ok_iff_words.1 (Symbol.ofText_eq_ok_iff.2 ⟨p, h, hs⟩)
  have htexts : front.map (·.text) = s.words := by
    rw [← hwords, ← Lexeme.map_text_ofText fun w hw => isWord_of_mem_words hw, ← hfront,
      List.map_map]
    rfl
  obtain ⟨q, hq, -⟩ := (Symbol.exists_derives_iff hfaithful).2 ⟨hfits, hspellable, htexts⟩
  exact ⟨hlast, q, signature_of_derives hrow.named hlast hq⟩

/-! ## Where reading is stuck -/

/-- What can be made whole is the beginning of a text. -/
theorem begins_of_completes {taken more : List Token} {t : Token} (htaken : Faithful taken)
    (hmore : Faithful (t :: more)) (h : Item.signature.Completes taken (t :: more)) :
    Begins ((taken ++ [t]).map Token.toLexeme) := by
  obtain ⟨front, last, heq, hlast, ps, h⟩ := h
  have hrow : Faithful (taken ++ front) :=
    htaken.append (hmore.mono (heq ▸ List.subset_append_left _ _))
  rw [heq, ← List.append_assoc] at h
  obtain ⟨text, p, hp, hlexemes⟩ :=
    exists_text_of_derives hrow (Derives.of_append_finish (r := []) hlast h)
  refine ⟨text, p, hp, more.map Token.toLexeme, ?_⟩
  rw [hlexemes, ← hlast, ← List.map_singleton, ← List.map_append, ← List.map_append,
    List.append_assoc, List.append_assoc, ← heq]
  rfl

/-- What is refused whatever comes behind is the beginning of no text. -/
theorem RefusedAt.not_begins {before x : List Token} {t : Token}
    (h : RefusedAt .signature (before ++ t :: x) t x) (hrow : Faithful (before ++ [t])) :
    ¬ Begins ((before ++ [t]).map Token.toLexeme) := by
  rintro ⟨text, p, hp, ls, hprefix⟩
  obtain ⟨taken, heq, hrefused⟩ := h
  obtain rfl : before = taken := List.append_cancel_right heq
  obtain ⟨front, x', htokens, hfront, -⟩ := List.map_eq_append_iff.1 hprefix.symm
  -- The tokens behind in the other text, put behind here.
  have hbehind : Faithful x' := (faithful_tokens text).mono (htokens ▸ List.subset_append_right _ _)
  have hnew : Faithful (before ++ t :: x') := by simpa using hrow.append hbehind
  have hlexemes : (before ++ t :: x').map Token.toLexeme = (tokens text).map Token.toLexeme := by
    rw [List.append_cons, List.map_append, ← hfront, ← List.map_append, ← htokens]
  obtain ⟨hfin, q, c, hread⟩ := exists_signature_of_lexemes hp hnew hlexemes _
    (List.getLast?_eq_some_getLast (by simp))
  obtain ⟨e, c', hfails⟩ := hrefused x' _ hfin hnew.named
  rw [hread] at hfails
  cases hfails

/-! ## Main theorem -/

/-- A text that is no signature is rejected at the first token that cannot stand where it stands,
and all that is expected there could have stood there. -/
theorem parse_error_at {text : String} {e : ParseError} (h : parse text = .error e) :
    ∃ why before t after, e = .rejected why ∧ why.At text before t after := by
  obtain ⟨row, last, htokens, hlast, -⟩ := tokens_eq_append_finish text
  have hfaithful : Faithful (row ++ [last]) := htokens ▸ faithful_tokens text
  obtain ⟨r, es, rfl, hstuck⟩ := exists_stuck_of_parse htokens hlast h
  obtain ⟨before, hrow, hcontinues⟩ := hstuck.continues
  have hbefore : Faithful before := hfaithful.mono (hrow ▸ List.subset_append_left _ _)
  have hpossible : ∀ x ∈ es, ∃ u : Token, x.admits u = true ∧
      Begins ((before ++ [u]).map Token.toLexeme) := by
    intro x hx
    obtain ⟨u, more, hu, hmore, hcompletes⟩ := hcontinues x hx
    exact ⟨u, hu, begins_of_completes hbefore hmore hcompletes⟩
  obtain ⟨x, hx⟩ := List.exists_mem_of_ne_nil es hstuck.expected_ne_nil
  obtain ⟨u, -, hu⟩ := hpossible x hx
  rw [List.map_append, List.map_singleton] at hu
  cases r with
  | nil =>
    -- All tokens would be taken, the end of the input too.
    rw [List.append_nil] at hrow
    rw [← hrow, List.map_append, List.map_singleton, hlast] at hu
    exact absurd hu (not_begins_of_finish _ _)
  | cons t after =>
    refine ⟨_, before, t, after, rfl, rfl, rfl, htokens.trans hrow, hu.of_append, ?_, hpossible⟩
    refine (hrow ▸ hstuck.refusedAt).not_begins ?_
    rw [hrow] at hfaithful
    exact hfaithful.mono (by simp)

/-- Behind a builtin type of two words, which may be the first template argument, a name is one word
too many. -/
theorem parse_error_at_third_word : ∃ why before t after,
    parse "std::f<unsigned long x>()" = .error (.rejected why) ∧
      why.At "std::f<unsigned long x>()" before t after := by
  have herror : (parse "std::f<unsigned long x>()").toOption.isNone = true := by decide +kernel
  cases h : parse "std::f<unsigned long x>()" with
  | ok p =>
    rw [h] at herror
    cases herror
  | error e =>
    obtain ⟨why, before, t, after, rfl, hat⟩ := parse_error_at h
    exact ⟨why, before, t, after, rfl, hat⟩

end LinkerNames

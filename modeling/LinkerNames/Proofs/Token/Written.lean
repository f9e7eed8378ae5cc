import LinkerNames.Proofs.Signature.Spelling
import LinkerNames.Proofs.Token.Row
import Mathlib.Data.List.TakeWhile
/-!
# Words, and texts made of them

What a token is can be told from its text: scanned alone, it is the same lexeme again. So a row of
tokens is known from its words, and a text with these words, a blank between two, has such a row
(`words_spelling`).
-/

namespace LinkerNames
namespace Lexeme

/-- What a text is as a lexeme, if it is a single one. -/
def ofText (text : String) : Lexeme :=
  (scan text.toList).headD finish

/-- A text that is a single lexeme and says something. -/
def IsWord (text : String) : Prop :=
  scan text.toList = [ofText text, finish] ∧ (ofText text).kind ≠ .blank

/-! ## Scanning a lexeme again -/

theorem markFrom_text (c : Char) (cs : List Char) :
    ∃ ds, (markFrom c cs).1.text.toList = c :: ds ∧ markFrom c ds = ((markFrom c cs).1, []) := by
  unfold markFrom
  split
  next => exact ⟨[':'], by simp, rfl⟩
  next => exact ⟨[], String.toList_ofList, by simp⟩

theorem takeWhile_again (p : Char → Bool) (cs : List Char) :
    (cs.takeWhile p).takeWhile p = cs.takeWhile p ∧ (cs.takeWhile p).dropWhile p = [] := by
  have h : ∀ d ∈ cs.takeWhile p, p d = true := fun d hd =>
    List.all_eq_true.1 List.all_takeWhile d hd
  exact ⟨List.takeWhile_eq_self_iff.2 h, List.dropWhile_eq_nil_iff.2 h⟩

/-- The first lexeme of a text is that of its own text. -/
theorem first_text (c : Char) (cs : List Char) :
    ∃ ds, (first c cs).1.text.toList = c :: ds ∧ first c ds = ((first c cs).1, []) := by
  unfold first
  split
  next =>
    obtain ⟨htake, hdrop⟩ := takeWhile_again isBlank cs
    exact ⟨cs.takeWhile isBlank, by simp [blanksFrom], by rw [blanksFrom, htake, hdrop]; rfl⟩
  split
  next =>
    obtain ⟨htake, hdrop⟩ := takeWhile_again isNameChar cs
    exact ⟨cs.takeWhile isNameChar, by simp [nameFrom, ofName],
      by rw [nameFrom, htake, hdrop]; rfl⟩
  next => exact markFrom_text c cs

/-- Each lexeme of a text but its end is a single lexeme, scanned alone. -/
theorem scan_text_of_mem {cs : List Char} {l : Lexeme} (h : l ∈ scan cs) (hl : l ≠ finish) :
    scan l.text.toList = [l, finish] := by
  fun_induction scan cs with
  | case1 => exact absurd (List.mem_singleton.1 h) hl
  | case2 c cs ih =>
    rcases List.mem_cons.1 h with rfl | h
    · obtain ⟨ds, htext, hfirst⟩ := first_text c cs
      rw [htext, scan_cons, hfirst, scan_nil]
    · exact ih h

/-- A lexeme of a text is what its own text is. -/
theorem ofText_text_of_mem {cs : List Char} {l : Lexeme} (h : l ∈ scan cs) :
    ofText l.text = l := by
  by_cases hl : l = finish
  · rw [hl]
    exact congrArg (List.headD · finish) scan_nil
  · rw [ofText, scan_text_of_mem h hl]
    rfl

theorem isWord_of_mem {cs : List Char} {l : Lexeme} (h : l ∈ scan cs) (hl : l ≠ finish)
    (hblank : l.kind ≠ .blank) : IsWord l.text := by
  have hof := ofText_text_of_mem h
  exact ⟨by rw [hof, scan_text_of_mem h hl], by rwa [hof]⟩

/-- A name is a word, and an identifier if it is no keyword. -/
theorem isWord_of_isName {text : String} (h : IsName text) (hk : text ∉ keywords) :
    IsWord text ∧ ofText text = ⟨.identifier, text⟩ := by
  obtain ⟨c, cs, htext, hc, hcs⟩ := h
  have hblank : ¬ isBlank c = true := by
    intro hblank
    simp only [isBlank, Bool.or_eq_true, beq_iff_eq, or_assoc] at hblank
    rcases hblank with rfl | rfl | rfl | rfl <;> exact absurd hc (by decide)
  have hof : String.ofList (c :: cs) = text := by rw [← htext, String.ofList_toList]
  have hscan : scan text.toList = [⟨.identifier, text⟩, finish] := by
    rw [htext, scan_cons, first, if_neg hblank, if_pos hc, nameFrom,
      List.takeWhile_eq_self_iff.2 hcs, List.dropWhile_eq_nil_iff.2 hcs, scan_nil, hof, ofName,
      if_neg hk]
  have htext : ofText text = ⟨.identifier, text⟩ := by rw [ofText, hscan]; rfl
  exact ⟨⟨by rw [hscan, htext], by simp [htext]⟩, htext⟩

/-! ## Words with blanks between them -/

/-- A lexeme that says something ends before a blank as it ends before nothing. -/
theorem first_append_blank {c : Char} {cs rest : List Char} {l : Lexeme}
    (h : first c cs = (l, [])) (hl : l.kind ≠ .blank) :
    first c (cs ++ ' ' :: rest) = (l, ' ' :: rest) := by
  unfold first at h ⊢
  split at h
  next =>
    obtain ⟨rfl, -⟩ := Prod.mk.inj h
    exact absurd rfl hl
  next hblank =>
    rw [if_neg hblank]
    split at h
    next hname =>
      rw [if_pos hname]
      obtain ⟨rfl, hdrop⟩ := Prod.mk.inj h
      have hall := List.dropWhile_eq_nil_iff.1 hdrop
      rw [nameFrom, List.takeWhile_append_of_pos hall, List.dropWhile_append_of_pos hall,
        List.takeWhile_cons_of_neg (by decide), List.dropWhile_cons_of_neg (by decide),
        List.append_nil, List.takeWhile_eq_self_iff.2 hall]
    next hname =>
      rw [if_neg hname]
      unfold markFrom at h ⊢
      split at h
      next =>
        obtain ⟨rfl, rfl⟩ := Prod.mk.inj h
        rfl
      next =>
        obtain ⟨rfl, rfl⟩ := Prod.mk.inj h
        simp

theorem IsWord.text_ofText {text : String} (h : IsWord text) : (ofText text).text = text := by
  have hflat := flatMap_text_scan text.toList
  rw [h.1] at hflat
  exact String.toList_injective (by simpa [finish] using hflat)

theorem map_text_ofText {words : List String} (h : ∀ w ∈ words, IsWord w) :
    (words.map ofText).map Lexeme.text = words := by
  rw [List.map_map]
  exact (List.map_congr_left fun w hw => (h w hw).text_ofText).trans (List.map_id words)

/-- A word begins with no blank, and is scanned as itself where a blank follows. -/
theorem IsWord.exists_cons {text : String} (h : IsWord text) :
    ∃ c cs, text.toList = c :: cs ∧ isBlank c = false ∧
      ∀ rest, scan (text.toList ++ ' ' :: rest) = ofText text :: scan (' ' :: rest) := by
  obtain ⟨hscan, hkind⟩ := h
  cases htext : text.toList with
  | nil => simp [htext] at hscan
  | cons c cs =>
    rw [htext, scan_cons] at hscan
    obtain ⟨hfirst, hrest⟩ := List.cons.inj hscan
    have hnil : (first c cs).2 = [] := by
      cases hcs : (first c cs).2 with
      | nil => rfl
      | cons d ds =>
        rw [hcs, scan_cons] at hrest
        exact absurd (congrArg Lexeme.kind (List.cons.inj hrest).1) (kind_first d ds)
    have hpair : first c cs = (ofText text, []) := Prod.ext hfirst hnil
    refine ⟨c, cs, rfl, ?_, fun rest => ?_⟩
    · rw [← Bool.not_eq_true]
      intro hblank
      rw [first, if_pos hblank] at hpair
      rw [← (Prod.mk.inj hpair).1] at hkind
      exact hkind rfl
    · rw [List.cons_append, scan_cons, first_append_blank hpair hkind]

/-- A blank before something else is a lexeme of its own. -/
theorem scan_blank_cons {c : Char} (hc : isBlank c = false) (cs : List Char) :
    scan (' ' :: c :: cs) = ⟨.blank, " "⟩ :: scan (c :: cs) := by
  rw [scan_cons, first, if_pos (by decide), blanksFrom, List.takeWhile_cons_of_neg (by simp [hc]),
    List.dropWhile_cons_of_neg (by simp [hc])]

/-- Words are scanned as what they are, and blanks between them. -/
theorem filter_scan_spelling {words : List String} (h : ∀ w ∈ words, IsWord w) :
    (scan (spelling words).toList).filter (·.kind != .blank) = words.map ofText ++ [finish] := by
  have hkind {w : String} (hw : IsWord w) (ls : List Lexeme) :
      (ofText w :: ls).filter (·.kind != .blank) = ofText w :: ls.filter (·.kind != .blank) :=
    List.filter_cons_of_pos (by simpa using hw.2)
  induction words with
  | nil =>
    change (scan []).filter _ = _
    rw [scan_nil]
    rfl
  | cons v ws ih =>
    have hv := h v List.mem_cons_self
    cases ws with
    | nil =>
      rw [spelling_singleton, hv.1, hkind hv]
      rfl
    | cons w ws =>
      have hws : ∀ x ∈ w :: ws, IsWord x := fun x hx => h x (List.mem_cons_of_mem v hx)
      obtain ⟨-, -, -, -, hscan⟩ := hv.exists_cons
      obtain ⟨c, cs, hw, hc, -⟩ := (hws w List.mem_cons_self).exists_cons
      obtain ⟨ds, hds⟩ : ∃ ds, (spelling (w :: ws)).toList = c :: ds := by
        cases ws with
        | nil => exact ⟨cs, by rw [spelling_singleton, hw]⟩
        | cons x xs => exact ⟨_, by rw [toList_spelling_cons_cons, hw, List.cons_append]⟩
      rw [toList_spelling_cons_cons, hscan, hkind hv, hds,
        scan_blank_cons hc, List.filter_cons_of_neg (by simp), ← hds, ih hws]
      rfl

end Lexeme

/-! ## Rows of tokens -/

/-- The words of a text: what its tokens say, the end of the input left out. -/
def words (text : String) : List String :=
  (tokens text).dropLast.map (·.text)

/-- The tokens of the first row, up to where the second begins, spell these words. -/
def Spells (ws : List String) (input rest : List Token) : Prop :=
  ∃ taken, input = taken ++ rest ∧ taken.map (·.text) = ws

theorem spells_nil_iff {i r : List Token} : Spells [] i r ↔ i = r := by
  simp [Spells]

theorem spells_cons_iff {w : String} {ws : List String} {i r : List Token} :
    Spells (w :: ws) i r ↔ ∃ t m, i = t :: m ∧ t.text = w ∧ Spells ws m r := by
  constructor
  · rintro ⟨taken, rfl, htaken⟩
    obtain ⟨t, ts, rfl, ht, hts⟩ := List.map_eq_cons_iff.1 htaken
    exact ⟨t, ts ++ r, rfl, ht, ts, rfl, hts⟩
  · rintro ⟨t, m, rfl, rfl, taken, rfl, rfl⟩
    exact ⟨t :: taken, rfl, rfl⟩

theorem spells_singleton (t : Token) (r : List Token) : Spells [t.text] (t :: r) r :=
  ⟨[t], rfl, rfl⟩

theorem spells_append_iff {vs ws : List String} {i r : List Token} :
    Spells (vs ++ ws) i r ↔ ∃ m, Spells vs i m ∧ Spells ws m r := by
  constructor
  · rintro ⟨taken, rfl, htaken⟩
    obtain ⟨ts, us, rfl, hts, hus⟩ := List.map_eq_append_iff.1 htaken
    exact ⟨us ++ r, ⟨ts, List.append_assoc .., hts⟩, us, rfl, hus⟩
  · rintro ⟨m, ⟨ts, rfl, rfl⟩, us, rfl, rfl⟩
    exact ⟨ts ++ us, (List.append_assoc ..).symm, List.map_append⟩

theorem Spells.suffix {ws : List String} {i r : List Token} (h : Spells ws i r) : r <:+ i := by
  obtain ⟨taken, rfl, -⟩ := h
  exact List.suffix_append taken r

theorem spells_self (row : List Token) : Spells (row.map (·.text)) row [] :=
  ⟨row, (List.append_nil row).symm, rfl⟩

/-- Each token of a row is what its text is as a lexeme. -/
def Faithful (row : List Token) : Prop :=
  ∀ t ∈ row, t.toLexeme = .ofText t.text

theorem Faithful.mono {row row' : List Token} (h : Faithful row) (hsub : row' ⊆ row) :
    Faithful row' :=
  fun t ht => h t (hsub ht)

theorem Faithful.named {row : List Token} (h : Faithful row) : Named row := by
  intro t ht hk
  have htext := congrArg Lexeme.text (h t ht)
  have hmem : Lexeme.ofText t.text ∈ Lexeme.scan t.text.toList := by
    rw [Lexeme.ofText]
    cases hscan : Lexeme.scan t.text.toList with
    | nil =>
      obtain ⟨ls, hls, -⟩ := Lexeme.scan_eq_append_finish t.text.toList
      simp [hls] at hscan
    | cons l ls => exact List.mem_cons_self
  have := Lexeme.identifier_of_mem_scan _ _ hmem (by rw [← h t ht]; exact hk)
  rwa [← htext] at this

theorem faithful_tokens (text : String) : Faithful (tokens text) :=
  fun _ ht => (Lexeme.ofText_text_of_mem (toLexeme_mem_scan ht)).symm

/-- Rows with the same texts have the same lexemes. -/
theorem Faithful.map_toLexeme {row : List Token} (h : Faithful row) :
    row.map Token.toLexeme = (row.map (·.text)).map .ofText := by
  rw [List.map_map]
  exact List.map_congr_left h

theorem isWord_of_mem_words {text w : String} (h : w ∈ words text) : Lexeme.IsWord w := by
  obtain ⟨row, last, htokens, -, hrow⟩ := tokens_eq_append_finish text
  rw [words, htokens, List.dropLast_concat] at h
  obtain ⟨t, ht, rfl⟩ := List.mem_map.1 h
  have hmem : t ∈ tokens text := htokens ▸ List.mem_append_left _ ht
  refine Lexeme.isWord_of_mem (toLexeme_mem_scan hmem) (fun hfinish => ?_) ?_
  · exact hrow t ht (congrArg Lexeme.kind hfinish)
  · simpa [Token.matters] using (List.mem_filter.1 hmem).2

theorem map_toLexeme_tokens (text : String) :
    (tokens text).map Token.toLexeme =
      (Lexeme.scan text.toList).filter (·.kind != .blank) := by
  rw [tokens, allTokens, locate, ← map_toLexeme_locateFrom .start (Lexeme.scan text.toList),
    List.filter_map, map_toLexeme_locateFrom]
  rfl

/-- The lexemes of a text are told by its words. -/
theorem map_toLexeme_tokens_eq (text : String) :
    (tokens text).map Token.toLexeme = (words text).map .ofText ++ [.finish] := by
  obtain ⟨row, last, htokens, hlast, -⟩ := tokens_eq_append_finish text
  have hrow : Faithful row := (faithful_tokens text).mono (htokens ▸ List.subset_append_left _ _)
  rw [words, htokens, List.dropLast_concat, List.map_append, hrow.map_toLexeme, List.map_singleton,
    hlast]

/-- A text has the words that its lexemes are made of. -/
theorem words_eq_of_lexemes {text : String} {ws : List String} (hws : ∀ w ∈ ws, Lexeme.IsWord w)
    (h : (Lexeme.scan text.toList).filter (·.kind != .blank) = ws.map .ofText ++ [.finish]) :
    words text = ws := by
  rw [← map_toLexeme_tokens, map_toLexeme_tokens_eq] at h
  have htexts := congrArg (List.map Lexeme.text) (List.append_cancel_right h)
  rwa [Lexeme.map_text_ofText fun w hw => isWord_of_mem_words hw,
    Lexeme.map_text_ofText hws] at htexts

/-- A text made of words has these words. -/
theorem words_spelling {ws : List String} (h : ∀ w ∈ ws, Lexeme.IsWord w) :
    words (spelling ws) = ws :=
  words_eq_of_lexemes h (Lexeme.filter_scan_spelling h)

/-- A word has itself for its words. -/
theorem words_of_isWord {w : String} (h : Lexeme.IsWord w) : words w = [w] := by
  have hwords : words (spelling [w]) = [w] := words_spelling (by simpa using h)
  rwa [spelling_singleton] at hwords

end LinkerNames

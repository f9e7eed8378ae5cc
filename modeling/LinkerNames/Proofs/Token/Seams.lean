import LinkerNames.Proofs.Token.Written
/-!
# Blanks between tokens

A lexeme goes on as far as it can, so it is parted from what comes behind it by the next character
alone. Any other text that begins with the same character may come there, and so may a blank, unless
the lexeme is blank itself. So blanks can be put in at the seams of a text without a change to the
lexemes that say something (`map_toLexeme_tokens_respaced`).
-/

namespace LinkerNames

/-- Any number of blanks, also none. -/
abbrev Blanks := { cs : List Char // cs.all isBlank = true }

namespace Lexeme

variable {c d : Char} {cs ds rest : List Char} {l : Lexeme}

/-! ## Where a lexeme ends -/

/-- Whether a lexeme takes one character more behind it. -/
def takes (l : Lexeme) (c : Char) : Bool :=
  match l.kind with
  | .blank => isBlank c
  | .identifier | .keyword => isNameChar c
  | .punctuation => l.text == ":" && c == ':'
  | .endOfInput => false

/-- A lexeme is parted from the text behind it. -/
def EndsBefore (l : Lexeme) (cs : List Char) : Prop :=
  ∀ c ∈ cs.head?, l.takes c = false

theorem takes_nameFrom (c d : Char) (cs : List Char) :
    (nameFrom c cs).1.takes d = isNameChar d := by
  rcases kind_nameFrom c cs with h | h <;> simp [takes, h]

theorem not_isNameChar_of_isBlank (h : isBlank c = true) : isNameChar c = false := by
  simp only [isBlank, Bool.or_eq_true, beq_iff_eq, or_assoc] at h
  rcases h with rfl | rfl | rfl | rfl <;> decide

/-- Only blanks go on with a blank. -/
theorem takes_of_isBlank (hl : l.kind ≠ .blank) (hc : isBlank c = true) : l.takes c = false := by
  have hcolon : c ≠ ':' := by
    rintro rfl
    exact absurd hc (by decide)
  unfold takes
  split
  next h => exact absurd h hl
  next => exact not_isNameChar_of_isBlank hc
  next => exact not_isNameChar_of_isBlank hc
  next => simp [hcolon]
  next => rfl

/-- The first lexeme of a text goes on as far as it can. -/
theorem endsBefore_first (c : Char) (cs : List Char) :
    (first c cs).1.EndsBefore (first c cs).2 := by
  intro d hd
  have hstop {p : Char → Bool} (h : d ∈ (cs.dropWhile p).head?) : p d = false := by
    have := List.head?_dropWhile_not p cs
    rw [Option.mem_def.1 h] at this
    simpa using this
  unfold first at *
  split at hd
  next hblank =>
    rw [if_pos hblank]
    exact hstop hd
  next hblank =>
    rw [if_neg hblank]
    split at hd
    next hname =>
      rw [if_pos hname, takes_nameFrom]
      exact hstop hd
    next hname =>
      rw [if_neg hname]
      unfold markFrom at *
      split at hd
      next => simp [takes]
      next hcolons =>
        simp only [takes, Bool.and_eq_false_imp, beq_iff_eq]
        intro hc
        obtain rfl : c = ':' := by simpa using congrArg String.toList hc
        rw [beq_eq_false_iff_ne]
        rintro rfl
        obtain ⟨es, rfl⟩ := List.head?_eq_some_iff.1 hd
        exact hcolons _ rfl rfl

/-- A lexeme that stands alone is the first one before any text that it is parted from. -/
theorem first_append (h : first c ds = (l, [])) (hrest : l.EndsBefore rest) :
    first c (ds ++ rest) = (l, rest) := by
  have hdone {p : Char → Bool} (hdrop : ds.dropWhile p = []) (hp : ∀ d ∈ rest.head?, p d = false) :
      (ds ++ rest).takeWhile p = ds.takeWhile p ∧ (ds ++ rest).dropWhile p = rest := by
    have hall := List.dropWhile_eq_nil_iff.1 hdrop
    rw [List.takeWhile_append_of_pos hall, List.dropWhile_append_of_pos hall,
      List.takeWhile_eq_self_iff.2 hall]
    cases rest with
    | nil => simp
    | cons d rest => simp [hp d rfl]
  unfold first at *
  split at h
  next hblank =>
    obtain ⟨rfl, hdrop⟩ := Prod.mk.inj h
    obtain ⟨htake, hdrop⟩ := hdone hdrop hrest
    rw [if_pos hblank, blanksFrom, htake, hdrop]
  next hblank =>
    rw [if_neg hblank]
    split at h
    next hname =>
      obtain ⟨rfl, hdrop⟩ := Prod.mk.inj h
      obtain ⟨htake, hdrop⟩ := hdone hdrop fun d hd => takes_nameFrom c d ds ▸ hrest d hd
      rw [if_pos hname, nameFrom, htake, hdrop]
    next hname =>
      rw [if_neg hname]
      unfold markFrom at h
      split at h
      next =>
        obtain ⟨rfl, rfl⟩ := Prod.mk.inj h
        rfl
      next =>
        obtain ⟨rfl, rfl⟩ := Prod.mk.inj h
        rw [List.nil_append, markFrom]
        rintro es rfl rfl
        exact absurd (hrest ':' rfl) (by decide)

/-- What a lexeme is scanned as before any text that it is parted from. -/
theorem scan_append_of_endsBefore (hcs : l = (first c cs).1) (hrest : l.EndsBefore rest) :
    scan (l.text.toList ++ rest) = l :: scan rest := by
  subst hcs
  obtain ⟨ds, htext, hfirst⟩ := first_text c cs
  rw [htext, List.cons_append, scan_cons, first_append hfirst hrest]

/-- A blank lexeme is made of blanks. -/
theorem isBlank_of_kind_first (h : (first c cs).1.kind = .blank) :
    ∀ d ∈ (first c cs).1.text.toList, isBlank d = true := by
  unfold first at *
  split at h
  next hblank =>
    rw [if_pos hblank, blanksFrom, String.toList_ofList]
    intro d hd
    rcases List.mem_cons.1 hd with rfl | hd
    · exact hblank
    · exact List.all_eq_true.1 List.all_takeWhile d hd
  next hblank =>
    split at h
    next => rcases kind_nameFrom c cs with hk | hk <;> simp [hk] at h
    next => simp [kind_markFrom] at h

/-! ## Blanks put in -/

/-- The lexemes of a text that say something. -/
def saying (cs : List Char) : List Lexeme :=
  (scan cs).filter (·.kind != .blank)

theorem saying_dropWhile (cs : List Char) : saying (cs.dropWhile isBlank) = saying cs := by
  cases cs with
  | nil => rfl
  | cons c cs =>
    by_cases hc : isBlank c = true
    · rw [List.dropWhile_cons_of_pos hc, saying, saying, scan_cons, first, if_pos hc, blanksFrom,
        List.filter_cons_of_neg (by simp)]
    · rw [List.dropWhile_cons_of_neg hc]

/-- Blanks before a text do not matter. -/
theorem saying_blanks_append (w : Blanks) (cs : List Char) : saying (w.1 ++ cs) = saying cs := by
  rw [← saying_dropWhile, List.dropWhile_append_of_pos (List.all_eq_true.1 w.2), saying_dropWhile]

/-- A lexeme that says something is said before any text that it is parted from. -/
theorem saying_append_of_endsBefore (hcs : l = (first c cs).1) (hl : l.kind ≠ .blank)
    (hrest : l.EndsBefore rest) : saying (l.text.toList ++ rest) = l :: saying rest := by
  rw [saying, scan_append_of_endsBefore hcs hrest, List.filter_cons_of_pos (by simpa using hl)]
  rfl

/-- A blank one is not. -/
theorem saying_append_of_blank (hcs : l = (first c cs).1) (hl : l.kind = .blank) :
    saying (l.text.toList ++ rest) = saying rest := by
  subst hcs
  exact saying_blanks_append ⟨_, List.all_eq_true.2 (isBlank_of_kind_first hl)⟩ rest

/-- The text of some lexemes, each behind blanks of its own. -/
def spaced (gap : Nat → Blanks) : List Lexeme → List Char
  | [] => []
  | l :: ls => (gap 0).1 ++ (l.text.toList ++ spaced (fun i => gap (i + 1)) ls)

/-- Blanks put in before a text begin with a blank, or are none before its first lexeme. -/
theorem head?_spaced_scan (gap : Nat → Blanks) (cs : List Char)
    (hd : d ∈ (spaced gap (scan cs)).head?) : isBlank d = true ∨ d ∈ cs.head? := by
  cases hgap : (gap 0).1 with
  | cons b w =>
    left
    have hb : isBlank b = true := List.all_eq_true.1 (gap 0).2 b (by simp [hgap])
    obtain ⟨l, ls, hscan⟩ : ∃ l ls, scan cs = l :: ls := by
      obtain ⟨ls, hls, -⟩ := scan_eq_append_finish cs
      cases ls with
      | nil => exact ⟨_, _, hls⟩
      | cons l ls => exact ⟨_, _, hls⟩
    rw [hscan, spaced, hgap] at hd
    obtain rfl : b = d := by simpa using hd
    exact hb
  | nil =>
    right
    cases cs with
    | nil => simp [spaced, hgap, finish] at hd
    | cons c cs =>
      obtain ⟨ds, htext, -⟩ := first_text c cs
      simpa [scan_cons, spaced, hgap, htext] using hd

/-- Blanks put in between the lexemes of a text, before the first and behind the last, do not change
what its lexemes say. -/
theorem saying_spaced_scan (gap : Nat → Blanks) (cs : List Char) :
    saying (spaced gap (scan cs)) = saying cs := by
  fun_induction scan cs generalizing gap with
  | case1 => simpa [spaced, finish] using saying_blanks_append (gap 0) []
  | case2 c cs ih =>
    rw [spaced, saying_blanks_append, ← text_first c cs]
    by_cases hblank : (first c cs).1.kind = .blank
    · rw [saying_append_of_blank rfl hblank, saying_append_of_blank rfl hblank, ih]
    · have hends : (first c cs).1.EndsBefore
          (spaced (fun i => gap (i + 1)) (scan (first c cs).2)) := by
        intro d hd
        rcases head?_spaced_scan _ _ hd with hd | hd
        · exact takes_of_isBlank hblank hd
        · exact endsBefore_first c cs d hd
      rw [saying_append_of_endsBefore rfl hblank hends, ih,
        saying_append_of_endsBefore rfl hblank (endsBefore_first c cs)]

end Lexeme

/-- A text with blanks put in at its seams: before each token, of whatever kind, and before the end
of the input. -/
def respaced (gap : Nat → Blanks) (text : String) : String :=
  .ofList (Lexeme.spaced gap (Lexeme.scan text.toList))

theorem map_toLexeme_tokens_respaced (gap : Nat → Blanks) (text : String) :
    (tokens (respaced gap text)).map Token.toLexeme = (tokens text).map Token.toLexeme := by
  rw [map_toLexeme_tokens, map_toLexeme_tokens, respaced, String.toList_ofList]
  exact Lexeme.saying_spaced_scan gap text.toList

/-- Texts with the same lexemes have the same words. -/
theorem words_eq_of_map_toLexeme {text text' : String}
    (h : (tokens text').map Token.toLexeme = (tokens text).map Token.toLexeme) :
    words text' = words text := by
  have hwords (text : String) :
      words text = ((tokens text).map Token.toLexeme).dropLast.map Lexeme.text := by
    rw [words, ← List.map_dropLast, List.map_map]
    rfl
  rw [hwords, hwords, h]

end LinkerNames

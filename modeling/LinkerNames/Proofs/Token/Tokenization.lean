import LinkerNames.Proofs.Token.Seams
/-!
# The one way to cut a text

Which lexemes a text has can be said without scanning it: their texts put together are the text, the
end of the input comes last and nowhere else, and each of the others is as long as what it is allows
where it stands. There is exactly one such row, the one that is scanned
(`tokenizes_iff_eq_allTokens`).
-/

namespace LinkerNames
namespace Lexeme

variable {c : Char} {cs before behind : List Char} {l : Lexeme} {ls : List Lexeme}

/-- The lexeme that may stand between two parts of a text: a run of blanks with no blank next to it,
a letter or an underscore with all letters, underscores and digits behind it, two colons, or one
character that is nothing of this. -/
inductive Stands (before behind : List Char) : Lexeme → Prop
  | blanks {text : String} : (∀ c ∈ text.toList, isBlank c = true) →
    (∀ c ∈ before.getLast?, isBlank c = false) → (∀ c ∈ behind.head?, isBlank c = false) →
    Stands before behind ⟨.blank, text⟩
  /-- Two names are keywords. -/
  | keyword {text : String} : text = "const" ∨ text = "operator" →
    (∀ c ∈ behind.head?, isNameChar c = false) → Stands before behind ⟨.keyword, text⟩
  /-- All other names are identifiers. -/
  | identifier {text : String} : IsName text → text ≠ "const" → text ≠ "operator" →
    (∀ c ∈ behind.head?, isNameChar c = false) → Stands before behind ⟨.identifier, text⟩
  | colons : Stands before behind ⟨.punctuation, "::"⟩
  | mark {c : Char} : isBlank c = false → isNameStart c = false → ¬ [':', ':'] <+: c :: behind →
    Stands before behind ⟨.punctuation, .ofList [c]⟩

/-- A row of lexemes cuts a text, with nothing lost: only the last is the end of the input, which
alone has no text, and each other stands where it may. -/
structure Tokenizes (cs : List Char) (ls : List Lexeme) : Prop where
  texts_eq : ls.flatMap (·.text.toList) = cs
  finish_last : ∃ front, ls = front ++ [finish] ∧ ∀ l ∈ front, l.kind ≠ .endOfInput ∧ l.text ≠ ""
  stands : ∀ front l rest, ls = front ++ l :: rest → l.kind ≠ .endOfInput →
    Stands (front.flatMap (·.text.toList)) (rest.flatMap (·.text.toList)) l

/-! ## What is scanned first -/

theorem not_isBlank_of_isNameChar (h : isNameChar c = true) : isBlank c = false := by
  rw [← Bool.not_eq_true]
  intro hblank
  rw [not_isNameChar_of_isBlank hblank] at h
  cases h

theorem isNameChar_of_isNameStart (h : isNameStart c = true) : isNameChar c = true := by
  rw [isNameChar, h, Bool.true_or]

theorem takes_ofName (text : String) (c : Char) : (ofName text).takes c = isNameChar c := by
  unfold ofName
  split <;> rfl

theorem mem_keywords_iff {text : String} :
    text ∈ keywords ↔ text = "const" ∨ text = "operator" := by
  simp [keywords]

/-- Both keywords are names. -/
theorem isName_of_mem_keywords {text : String} (h : text ∈ keywords) : IsName text := by
  rcases mem_keywords_iff.1 h with rfl | rfl
  · exact ⟨'c', "onst".toList, rfl, by decide, List.all_eq_true.1 (by decide)⟩
  · exact ⟨'o', "perator".toList, rfl, by decide, List.all_eq_true.1 (by decide)⟩

/-- A name before a text that does not go on with it is scanned first. -/
theorem first_ofName {text : String} (h : IsName text)
    (hbehind : ∀ c ∈ behind.head?, isNameChar c = false) :
    ∃ c cs, text.toList = c :: cs ∧ first c (cs ++ behind) = (ofName text, behind) := by
  obtain ⟨c, cs, hcs, hc, htail⟩ := h
  have hof : String.ofList (c :: cs) = text := by rw [← hcs, String.ofList_toList]
  have hname : first c cs = (ofName text, []) := by
    rw [first, if_neg (by simp [not_isBlank_of_isNameChar (isNameChar_of_isNameStart hc)]),
      if_pos hc, nameFrom, List.takeWhile_eq_self_iff.2 htail,
      List.dropWhile_eq_nil_iff.2 htail, hof]
  exact ⟨c, cs, hcs, first_append hname fun d hd => takes_ofName text d ▸ hbehind d hd⟩

/-- A name stands where the text behind it does not go on with it. -/
theorem stands_ofName {text : String} (h : IsName text)
    (hbehind : ∀ c ∈ behind.head?, isNameChar c = false) :
    Stands before behind (ofName text) := by
  unfold ofName
  split
  next hk => exact .keyword (mem_keywords_iff.1 hk) hbehind
  next hk =>
    rw [mem_keywords_iff, not_or] at hk
    exact .identifier h hk.1 hk.2 hbehind

/-- What stands before a text is scanned before it. -/
theorem Stands.first_eq (h : Stands before behind l) (hl : l.text ≠ "") :
    ∃ c cs, l.text.toList = c :: cs ∧ first c (cs ++ behind) = (l, behind) := by
  cases h with
  | @blanks text htext _ hbehind =>
    obtain ⟨c, cs, hcs⟩ := List.exists_cons_of_ne_nil (mt String.toList_eq_nil_iff.1 hl)
    refine ⟨c, cs, hcs, first_append ?_ hbehind⟩
    have hof : String.ofList (c :: cs) = text := by rw [← hcs, String.ofList_toList]
    rw [hcs, List.forall_mem_cons] at htext
    rw [first, if_pos htext.1, blanksFrom, List.takeWhile_eq_self_iff.2 htext.2,
      List.dropWhile_eq_nil_iff.2 htext.2, hof]
  | @keyword text htext hbehind =>
    have hk := mem_keywords_iff.2 htext
    obtain ⟨c, cs, hcs, hfirst⟩ := first_ofName (isName_of_mem_keywords hk) hbehind
    rw [ofName, if_pos hk] at hfirst
    exact ⟨c, cs, hcs, hfirst⟩
  | @identifier text htext hconst hoperator hbehind =>
    have hk : text ∉ keywords := mt mem_keywords_iff.1 (not_or.2 ⟨hconst, hoperator⟩)
    obtain ⟨c, cs, hcs, hfirst⟩ := first_ofName htext hbehind
    rw [ofName, if_neg hk] at hfirst
    exact ⟨c, cs, hcs, hfirst⟩
  | colons => exact ⟨':', [':'], by simp, rfl⟩
  | @mark c hblank hname hcolons =>
    refine ⟨c, [], String.toList_ofList, ?_⟩
    rw [first, if_neg (by simp [hblank]), if_neg (by simp [hname]), List.nil_append, markFrom]
    rintro rest rfl rfl
    exact hcolons ⟨rest, rfl⟩

/-- What is scanned first is a run of blanks, a name, or a mark. -/
theorem first_cases (c : Char) (cs : List Char) :
    (isBlank c = true ∧ first c cs = blanksFrom c cs) ∨
      (isNameStart c = true ∧ first c cs = nameFrom c cs) ∨
      (isBlank c = false ∧ isNameStart c = false ∧ first c cs = markFrom c cs) := by
  unfold first
  split
  next hblank => exact .inl ⟨hblank, rfl⟩
  next hblank =>
    right
    split
    next hname => exact .inl ⟨hname, rfl⟩
    next hname => exact .inr ⟨by simpa using hblank, by simpa using hname, rfl⟩

/-- What is scanned first holds no blanks, unless it is a run of them. -/
theorem not_isBlank_of_mem_first (h : (first c cs).1.kind ≠ .blank) :
    ∀ d ∈ (first c cs).1.text.toList, isBlank d = false := by
  rcases first_cases c cs with ⟨-, hfirst⟩ | ⟨hname, hfirst⟩ | ⟨hblank, -, hfirst⟩
  · rw [hfirst] at h
    exact absurd (kind_blanksFrom c cs) h
  · rw [hfirst, nameFrom, ofName, String.toList_ofList, List.forall_mem_cons]
    refine ⟨not_isBlank_of_isNameChar (isNameChar_of_isNameStart hname), fun d hd => ?_⟩
    exact not_isBlank_of_isNameChar (List.all_eq_true.1 List.all_takeWhile d hd)
  · rw [hfirst]
    unfold markFrom
    split
    next => simp [isBlank]
    next => simpa using hblank

/-- What is scanned first may stand there, if no blank is scanned behind another. -/
theorem stands_first
    (hbefore : (first c cs).1.kind = .blank → ∀ d ∈ before.getLast?, isBlank d = false) :
    Stands before (first c cs).2 (first c cs).1 := by
  have hends := endsBefore_first c cs
  rcases first_cases c cs with ⟨hblank, hfirst⟩ | ⟨hname, hfirst⟩ | ⟨hblank, hname, hfirst⟩
  · rw [hfirst] at hends hbefore ⊢
    refine .blanks ?_ (hbefore rfl) hends
    rw [String.toList_ofList, List.forall_mem_cons]
    exact ⟨hblank, List.all_eq_true.1 List.all_takeWhile⟩
  · rw [hfirst] at hends ⊢
    refine stands_ofName
      ⟨c, _, String.toList_ofList, hname, List.all_eq_true.1 List.all_takeWhile⟩ ?_
    exact fun d hd => takes_nameFrom c d cs ▸ hends d hd
  · rw [hfirst]
    unfold markFrom
    split
    next => exact .colons
    next hcolons =>
      refine .mark hblank hname ?_
      rintro ⟨rest, hrest⟩
      obtain ⟨rfl, rfl⟩ := List.cons.inj hrest
      exact hcolons rest rfl rfl

/-! ## Whole rows -/

/-- Lexemes that say something hold no blanks. -/
theorem not_isBlank_of_mem_scan (h : l ∈ scan cs) (hl : l.kind ≠ .blank) :
    ∀ d ∈ l.text.toList, isBlank d = false := by
  fun_induction scan cs with
  | case1 =>
    rw [List.mem_singleton.1 h]
    simp [finish]
  | case2 c cs ih =>
    rcases List.mem_cons.1 h with rfl | h
    · exact not_isBlank_of_mem_first hl
    · exact ih h

/-- Each lexeme but the last is the first of what is left of the text when it is scanned. -/
theorem exists_first_of_scan {front rest : List Lexeme} (h : scan cs = front ++ l :: rest)
    (hrest : rest ≠ []) :
    ∃ d ds, l = (first d ds).1 ∧ rest.flatMap (·.text.toList) = (first d ds).2 := by
  fun_induction scan cs generalizing front with
  | case1 =>
    rcases List.singleton_eq_append_iff.1 h with ⟨-, hfinish⟩ | ⟨-, hnil⟩
    · exact absurd (List.cons.inj hfinish).2 hrest
    · cases hnil
  | case2 c cs ih =>
    cases front with
    | nil =>
      obtain ⟨rfl, rfl⟩ := List.cons.inj h
      exact ⟨c, cs, rfl, flatMap_text_scan _⟩
    | cons _ front => exact ih (List.cons.inj h).2

/-- Only the end of the input comes last. -/
theorem ne_nil_of_scan {front rest : List Lexeme} (h : scan cs = front ++ l :: rest)
    (hl : l.kind ≠ .endOfInput) : rest ≠ [] := by
  rintro rfl
  obtain ⟨front', hscan, -⟩ := scan_eq_append_finish cs
  obtain ⟨-, hlast⟩ := List.append_inj' (h.symm.trans hscan) rfl
  exact hl (congrArg kind (List.singleton_inj.1 hlast))

/-- No blank comes before a run of blanks. -/
theorem not_isBlank_before {front rest : List Lexeme} {d : Char} {ds : List Char}
    (h : scan cs = front ++ (first d ds).1 :: rest) (hblank : (first d ds).1.kind = .blank) :
    ∀ b ∈ (front.flatMap (·.text.toList)).getLast?, isBlank b = false := by
  have hd : isBlank d = true := by
    rcases first_cases d ds with ⟨hd, -⟩ | ⟨-, hfirst⟩ | ⟨-, -, hfirst⟩
    · exact hd
    · rw [hfirst] at hblank
      rcases kind_nameFrom d ds with hk | hk <;> simp [hk] at hblank
    · simp [hfirst, kind_markFrom] at hblank
  obtain ⟨ds', htext, -⟩ := first_text d ds
  obtain rfl | ⟨front, m, rfl⟩ := List.eq_nil_or_concat front
  · rintro _ ⟨⟩
  rw [List.concat_eq_append, List.append_assoc, List.singleton_append] at h
  obtain ⟨e, es, rfl, hes⟩ := exists_first_of_scan h (List.cons_ne_nil _ _)
  -- A run of blanks would have gone on with the blank behind it.
  have hkind : (first e es).1.kind ≠ .blank := by
    intro hkind
    have hends := endsBefore_first e es d (by rw [← hes, List.flatMap_cons, htext]; rfl)
    rw [takes, hkind] at hends
    exact absurd hends (by simp [hd])
  obtain ⟨es', htext', -⟩ := first_text e es
  intro b hb
  rw [List.concat_eq_append, List.flatMap_append, List.flatMap_singleton, List.getLast?_append,
    htext', List.getLast?_cons, Option.some_or, ← List.getLast?_cons, ← htext'] at hb
  exact not_isBlank_of_mem_first hkind b (List.mem_of_getLast? hb)

theorem tokenizes_scan (cs : List Char) : Tokenizes cs (scan cs) where
  texts_eq := flatMap_text_scan cs
  finish_last := by
    obtain ⟨front, hscan, hkinds⟩ := scan_eq_append_finish cs
    refine ⟨front, hscan, fun l hl => ⟨hkinds l hl, ?_⟩⟩
    obtain ⟨as, bs, rfl⟩ := List.append_of_mem hl
    have hsplit := hscan.trans (List.append_assoc as (l :: bs) [finish])
    obtain ⟨d, ds, rfl, -⟩ := exists_first_of_scan hsplit (by simp)
    obtain ⟨es, htext, -⟩ := first_text d ds
    exact fun hempty => by simp [hempty] at htext
  stands := by
    intro front l rest hscan hl
    obtain ⟨d, ds, rfl, hrest⟩ := exists_first_of_scan hscan (ne_nil_of_scan hscan hl)
    rw [hrest]
    exact stands_first (not_isBlank_before hscan)

/-- There is no other row. -/
theorem Tokenizes.eq_scan (h : Tokenizes cs ls) : ls = scan cs := by
  obtain ⟨rfl, ⟨front, rfl, hfront⟩, hstands⟩ := h
  -- Each lexeme is scanned before the rest, whatever came before it.
  suffices ∀ rest before, front = before ++ rest →
      scan ((rest ++ [finish]).flatMap (·.text.toList)) = rest ++ [finish] from
    (this front [] rfl).symm
  intro rest
  induction rest with
  | nil => exact fun _ _ => scan_nil
  | cons l rest ih =>
    rintro before rfl
    obtain ⟨hkind, htext⟩ := hfront l (by simp)
    obtain ⟨c, cs, hcs, hfirst⟩ :=
      (hstands before l (rest ++ [finish]) (by simp) hkind).first_eq htext
    rw [List.cons_append, List.flatMap_cons, hcs, List.cons_append, scan_cons, hfirst,
      ih (before ++ [l]) (by simp)]

end Lexeme

/-! ## Main theorem -/

/-- The tokens of a text are the one row that cuts it, and those that say something are all of them
but the blanks, at the places where they are. -/
theorem tokenizes_iff_eq_allTokens (text : String) :
    (∀ ls, Lexeme.Tokenizes text.toList ls ↔ ls = (allTokens text).map Token.toLexeme) ∧
      tokens text = (allTokens text).filter fun t => t.kind != .blank := by
  refine ⟨fun ls => ?_, rfl⟩
  rw [allTokens, locate, map_toLexeme_locateFrom]
  exact ⟨Lexeme.Tokenizes.eq_scan, fun h => h ▸ Lexeme.tokenizes_scan text.toList⟩

/-- Of three colons the first two are one mark. No name begins with a digit, and a space that cannot
be broken is no blank. -/
example : (tokens "a:::1b \u00a0").map (·.text) = ["a", "::", ":", "1", "b", "\u00a0", ""] := by
  decide +kernel

end LinkerNames

import LinkerNames.Token.Cursor
/-!
# The row of tokens of a text

What a reader may rely on: the row ends with the end of the input and has none before it, and its
identifiers are names and no keywords.
-/

namespace LinkerNames

/-- An ASCII letter or underscore with any letters, digits and underscores after it. -/
def IsName (text : String) : Prop :=
  ∃ c cs, text.toList = c :: cs ∧ isNameStart c = true ∧ ∀ d ∈ cs, isNameChar d = true

/-- A text that begins otherwise is no name. -/
theorem IsName.ne {text other : String} (h : IsName text)
    (ho : other.toList.head?.any isNameStart = false) : text ≠ other := by
  rintro rfl
  obtain ⟨c, cs, htext, hc, -⟩ := h
  rw [htext, List.head?_cons, Option.any_some, hc] at ho
  cases ho

/-- The identifiers in a row are names, and not keywords. -/
def Named (row : List Token) : Prop :=
  ∀ t ∈ row, t.kind = .identifier → IsName t.text ∧ t.text ∉ keywords

theorem Named.mono {row row' : List Token} (h : Named row) (hsub : row' ⊆ row) : Named row' :=
  fun t ht => h t (hsub ht)

namespace Lexeme

/-! ## Lexemes -/

theorem nameFrom_identifier {c : Char} (cs : List Char) (hc : isNameStart c = true)
    (hk : (nameFrom c cs).1.kind = .identifier) :
    IsName (nameFrom c cs).1.text ∧ (nameFrom c cs).1.text ∉ keywords := by
  constructor
  · refine ⟨c, cs.takeWhile isNameChar, by simp [nameFrom, ofName], hc, fun d hd => ?_⟩
    exact List.all_eq_true.1 List.all_takeWhile d hd
  · intro hmem
    change (if (nameFrom c cs).1.text ∈ keywords then Kind.keyword else Kind.identifier) = _ at hk
    rw [if_pos hmem] at hk
    cases hk

theorem kind_blanksFrom (c : Char) (cs : List Char) : (blanksFrom c cs).1.kind = .blank :=
  rfl

theorem kind_markFrom (c : Char) (cs : List Char) : (markFrom c cs).1.kind = .punctuation := by
  unfold markFrom
  split <;> rfl

theorem kind_nameFrom (c : Char) (cs : List Char) :
    (nameFrom c cs).1.kind = .identifier ∨ (nameFrom c cs).1.kind = .keyword := by
  simp only [nameFrom, ofName]
  split <;> simp

theorem first_identifier (c : Char) (cs : List Char) (hk : (first c cs).1.kind = .identifier) :
    IsName (first c cs).1.text ∧ (first c cs).1.text ∉ keywords := by
  unfold first at *
  split at hk
  next => rw [kind_blanksFrom] at hk; cases hk
  next hb =>
    rw [if_neg hb]
    split at hk
    next hs => rw [if_pos hs]; exact nameFrom_identifier cs hs hk
    next => rw [kind_markFrom] at hk; cases hk

theorem kind_first (c : Char) (cs : List Char) : (first c cs).1.kind ≠ .endOfInput := by
  unfold first
  split
  · simp [kind_blanksFrom]
  split
  · rcases kind_nameFrom c cs with h | h <;> simp [h]
  · simp [kind_markFrom]

theorem identifier_of_mem_scan (cs : List Char) : ∀ l ∈ scan cs, l.kind = .identifier →
    IsName l.text ∧ l.text ∉ keywords := by
  fun_induction scan cs with
  | case1 =>
    intro l hl hk
    rw [List.mem_singleton.1 hl] at hk
    cases hk
  | case2 c cs ih =>
    intro l hl hk
    rcases List.mem_cons.1 hl with rfl | hl
    · exact first_identifier c cs hk
    · exact ih l hl hk

theorem scan_eq_append_finish (cs : List Char) :
    ∃ ls, scan cs = ls ++ [finish] ∧ ∀ l ∈ ls, l.kind ≠ .endOfInput := by
  fun_induction scan cs with
  | case1 => exact ⟨[], rfl, by simp⟩
  | case2 c cs ih =>
    obtain ⟨ls, hls, hkind⟩ := ih
    refine ⟨(first c cs).1 :: ls, by rw [hls, List.cons_append], fun l hl => ?_⟩
    rcases List.mem_cons.1 hl with rfl | hl
    · exact kind_first c cs
    · exact hkind l hl

end Lexeme

namespace Lexeme

/-! ## Scanners that may fail -/

/-- The first lexeme of a text, by the scanner that is for what the text begins with. There is none
where that scanner has nothing to take. -/
def first? : List Char → Option (Lexeme × List Char)
  | [] => none
  | c :: cs =>
    if isBlank c then scanBlanks? (c :: cs)
    else if isNameStart c then scanName? (c :: cs)
    else some (markFrom c cs)

/-- No scanner is sent where it has nothing to take. -/
theorem first?_cons (c : Char) (cs : List Char) : first? (c :: cs) = some (first c cs) := by
  by_cases hblank : isBlank c = true
  · simp only [first?, first, scanBlanks?, if_pos hblank]
  by_cases hname : isNameStart c = true
  · simp only [first?, first, scanName?, if_neg hblank, if_pos hname]
  · simp only [first?, first, if_neg hblank, if_neg hname]

end Lexeme

/-! ## Tokens -/

theorem locateFrom_append (p : Place) (ls ms : List Lexeme) :
    locateFrom p (ls ++ ms) =
      locateFrom p ls ++ locateFrom (p.after (ls.flatMap (·.text.toList))) ms := by
  induction ls generalizing p with
  | nil => rfl
  | cons l ls ih => simp [locateFrom, ih, Place.after_append]

theorem toLexeme_mem_scan {text : String} {t : Token} (h : t ∈ tokens text) :
    t.toLexeme ∈ Lexeme.scan text.toList := by
  have hmem := List.mem_map_of_mem (f := Token.toLexeme) (List.mem_filter.1 h).1
  rwa [allTokens, locate, map_toLexeme_locateFrom] at hmem

theorem named_tokens (text : String) : Named (tokens text) :=
  fun _ ht hk => Lexeme.identifier_of_mem_scan _ _ (toLexeme_mem_scan ht) hk

/-- The row of a text ends where the input ends, and no token before it is the end. -/
theorem tokens_eq_append_finish (text : String) :
    ∃ row last, tokens text = row ++ [last] ∧ last.toLexeme = .finish ∧
      ∀ t ∈ row, t.kind ≠ .endOfInput := by
  obtain ⟨ls, hls, hkind⟩ := Lexeme.scan_eq_append_finish text.toList
  refine ⟨(locate ls).filter Token.matters,
    ⟨.finish, Place.after .start (ls.flatMap (·.text.toList))⟩, ?_, rfl, fun t ht => ?_⟩
  · rw [tokens, allTokens, hls, locate, locateFrom_append, List.filter_append]
    rfl
  · have hmem := List.mem_map_of_mem (f := Token.toLexeme) (List.mem_filter.1 ht).1
    rw [locate, map_toLexeme_locateFrom] at hmem
    exact hkind _ hmem

theorem ofText_eq (text : String) {row : List Token} {last : Token}
    (h : tokens text = row ++ [last]) : Cursor.ofText text = ⟨row ++ [last], last⟩ := by
  simp [Cursor.ofText, h]

end LinkerNames

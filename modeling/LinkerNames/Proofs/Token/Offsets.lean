import LinkerNames.Proofs.Token.Row
import Mathlib.Data.List.DropRight
/-!
# Places counted from the text

Places are handed on from lexeme to lexeme: one without a line break moves the column, and one with
line breaks starts it anew. What comes out depends on the text before a lexeme alone, however it is
cut: as many lines down as it has line breaks, and as far to the right as it is wide behind the last
of them (`places_eq_behind`). So leaving out the blanks leaves all other places as they are.
-/

namespace LinkerNames

/-! ## Texts -/

namespace Text

/-- The columns that a text without line breaks fills: one a character, and seven more a tab. -/
def width (cs : List Char) : Nat :=
  cs.length + 7 * cs.count '\t'

/-- What is behind the last line break of a text; all of it, if it has none. -/
def lastLine (cs : List Char) : List Char :=
  cs.rtakeWhile (· != '\n')

theorem width_concat (cs : List Char) (c : Char) :
    width (cs ++ [c]) = width cs + if c = '\t' then 8 else 1 := by
  rw [width, width, List.length_append, List.length_singleton, List.count_append,
    List.count_singleton]
  by_cases htab : c = '\t'
  · rw [if_pos htab, if_pos (beq_iff_eq.2 htab)]
    omega
  · rw [if_neg htab, if_neg (by simpa using htab)]
    omega

theorem lastLine_concat_break (cs : List Char) : lastLine (cs ++ ['\n']) = [] :=
  List.rtakeWhile_concat_neg _ _ '\n' (by simp)

theorem lastLine_concat {c : Char} (hc : c ≠ '\n') (cs : List Char) :
    lastLine (cs ++ [c]) = lastLine cs ++ [c] :=
  List.rtakeWhile_concat_pos _ _ c (by simpa using hc)

theorem lastLine_eq_self {cs : List Char} (h : '\n' ∉ cs) : lastLine cs = cs := by
  refine List.rtakeWhile_eq_self_iff.2 fun c hc => ?_
  have hne : c ≠ '\n' := fun heq => h (heq ▸ hc)
  simpa using hne

end Text

/-! ## Places -/

namespace Place

/-- The place behind a text: its line breaks, and the width of what is behind the last of them. -/
def behind (cs : List Char) : Place :=
  ⟨cs.count '\n', Text.width (Text.lastLine cs)⟩

/-- What one lexeme does to the place: with line breaks in it the column starts anew. -/
theorem after_eq (p : Place) (cs : List Char) :
    p.after cs =
      if '\n' ∈ cs then ⟨p.line + cs.count '\n', Text.width (Text.lastLine cs)⟩
      else ⟨p.line, p.column + Text.width cs⟩ := by
  induction cs using List.reverseRecOn with
  | nil => rfl
  | append_singleton cs c ih =>
    rw [after_append, ih, after, List.foldl_cons, List.foldl_nil, next]
    by_cases hbreak : c = '\n'
    · subst hbreak
      rw [if_pos rfl, if_pos (List.mem_append_right cs (List.mem_singleton_self _)),
        Text.lastLine_concat_break, List.count_append, List.count_singleton_self]
      split
      next => rfl
      next hnone => rw [List.count_eq_zero.2 hnone]; rfl
    · have hmem : '\n' ∈ cs ++ [c] ↔ '\n' ∈ cs := by simp [Ne.symm hbreak]
      have hcount : (cs ++ [c]).count '\n' = cs.count '\n' := by simp [hbreak]
      rw [if_neg hbreak, Text.lastLine_concat hbreak, Text.width_concat, Text.width_concat, hcount]
      simp only [hmem]
      split <;> split <;> rfl

theorem after_start (cs : List Char) : after .start cs = behind cs := by
  rw [after_eq, behind]
  split
  next => rw [start, Nat.zero_add]
  next hnone => rw [Text.lastLine_eq_self hnone, List.count_eq_zero.2 hnone, start, Nat.zero_add]

end Place

/-! ## Rows -/

/-- A row of lexemes is located lexeme by lexeme, each behind the texts of those before it. -/
theorem locateFrom_eq_mapIdx (before : List Char) (ls : List Lexeme) :
    locateFrom (.behind before) ls =
      ls.mapIdx fun i l => ⟨l, .behind (before ++ (ls.take i).flatMap (·.text.toList))⟩ := by
  induction ls generalizing before with
  | nil => rfl
  | cons l ls ih =>
    have hnext : (Place.behind before).after l.text.toList =
        .behind (before ++ l.text.toList) := by
      rw [← Place.after_start, ← Place.after_append, Place.after_start]
    rw [locateFrom, hnext, ih, List.mapIdx_cons]
    simp

/-- A token of a text begins behind this number of characters. -/
def Token.BeginsAt (t : Token) (text : String) (offset : Nat) : Prop :=
  ∃ before after, allTokens text = before ++ t :: after ∧
    (before.flatMap (·.text.toList)).length = offset

theorem place_of_locateFrom {p : Place} {ls : List Lexeme} {before after : List Token} {t : Token}
    (h : locateFrom p ls = before ++ t :: after) :
    t.place = p.after (before.flatMap (·.text.toList)) := by
  induction before generalizing p ls with
  | nil =>
    cases ls with
    | nil => cases h
    | cons l ls =>
      obtain ⟨rfl, -⟩ := List.cons.inj h
      rfl
  | cons u before ih =>
    cases ls with
    | nil => cases h
    | cons l ls =>
      obtain ⟨rfl, hrest⟩ := List.cons.inj h
      rw [ih hrest, List.flatMap_cons, Place.after_append]

/-- The texts of tokens in a row are those of their lexemes. -/
theorem flatMap_text_allTokens (text : String) :
    (allTokens text).flatMap (·.text.toList) = text.toList := by
  rw [← Lexeme.flatMap_text_scan text.toList,
    ← map_toLexeme_locateFrom .start (Lexeme.scan text.toList), List.flatMap_map]
  rfl

/-! ## Main theorem -/

/-- Each lexeme of a row, of whatever texts, gets the place behind the texts before it, and is left
as it is. In a text each token that says something stands where the text before it ends. -/
theorem places_eq_behind :
    (∀ ls : List Lexeme,
      locate ls = ls.mapIdx fun i l => ⟨l, .behind ((ls.take i).flatMap (·.text.toList))⟩) ∧
    ∀ text t, t ∈ tokens text → (∃ offset, t.BeginsAt text offset) ∧
      ∀ offset, t.BeginsAt text offset →
        t.text.toList <+: text.toList.drop offset ∧
        t.place = .behind (text.toList.take offset) := by
  have hlocate := locateFrom_eq_mapIdx []
  refine ⟨hlocate, fun text t ht => ⟨?_, ?_⟩⟩
  · obtain ⟨before, after, hrow⟩ := List.append_of_mem (List.mem_filter.1 ht).1
    exact ⟨_, before, after, hrow, rfl⟩
  · rintro _ ⟨before, after, hrow, rfl⟩
    have htext := flatMap_text_allTokens text
    rw [hrow, List.flatMap_append, List.flatMap_cons] at htext
    rw [← htext, List.drop_left, List.take_left]
    exact ⟨List.prefix_append _ _, by rw [place_of_locateFrom hrow, Place.after_start]⟩

/-- A tab behind a line break, and blanks that are left out. -/
theorem places_eq_behind_tab :
    (⟨⟨.identifier, "x"⟩, ⟨1, 9⟩⟩ : Token) ∈ tokens "f (\r\n\t x)" ∧
      Token.BeginsAt ⟨⟨.identifier, "x"⟩, ⟨1, 9⟩⟩ "f (\r\n\t x)" 7 ∧
      (⟨1, 9⟩ : Place) = .behind ("f (\r\n\t x)".toList.take 7) := by
  have hmem : (⟨⟨.identifier, "x"⟩, ⟨1, 9⟩⟩ : Token) ∈ tokens "f (\r\n\t x)" := by
    decide +kernel
  have hoffset : Token.BeginsAt ⟨⟨.identifier, "x"⟩, ⟨1, 9⟩⟩ "f (\r\n\t x)" 7 :=
    ⟨(allTokens "f (\r\n\t x)").take 4, (allTokens "f (\r\n\t x)").drop 5, by decide +kernel,
      by decide +kernel⟩
  exact ⟨hmem, hoffset, ((places_eq_behind.2 _ _ hmem).2 _ hoffset).2⟩

end LinkerNames

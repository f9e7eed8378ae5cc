import LinkerNames.Proofs.Text.Lines
import LinkerNames.Proofs.Token.Tokenization
import Mathlib.Data.List.Induction
/-!
# Where the tokens of a text stand

Places are counted character by character. Behind a text one is as many lines down as the text has
line breaks, and as far to the right as its last line is wide with its tabs expanded
(`Place.after_start_eq`). Each token stands behind the part of the text that comes before it.
-/

namespace LinkerNames

theorem Place.after_start_eq {cs last : List Char} {before : List (List Char)}
    (h : Text.splitLines cs = before ++ [last]) :
    Place.after .start cs = ⟨before.length, (Text.expandTabs last).length⟩ := by
  induction cs using List.reverseRecOn generalizing before last with
  | nil =>
    change [] ++ [[]] = before ++ [last] at h
    obtain ⟨rfl, hlast⟩ := List.append_inj' h rfl
    rw [← List.singleton_inj.1 hlast]
    rfl
  | append_singleton cs c ih =>
    obtain ⟨before', last', hcs, -⟩ := Text.exists_splitAt_append '\n' cs
    rw [Place.after_append, ih hcs, Place.after, List.foldl_cons, List.foldl_nil, Place.next]
    unfold Text.splitLines at h
    by_cases hbreak : c = '\n'
    · subst hbreak
      rw [Text.splitAt_append hcs (Text.splitAt_cons_self '\n' []), Text.splitAt_nil,
        List.append_cons] at h
      obtain ⟨rfl, hlast⟩ := List.append_inj' h rfl
      rw [← List.singleton_inj.1 hlast, if_pos rfl, List.length_append]
      rfl
    · rw [Text.splitAt_append hcs (Text.splitAt_cons_of_ne hbreak (Text.splitAt_nil '\n'))] at h
      obtain ⟨rfl, hlast⟩ := List.append_inj' h rfl
      rw [← List.singleton_inj.1 hlast, if_neg hbreak, Text.expandTabs_append, List.length_append]
      split
      next htab =>
        subst htab
        rfl
      next htab => simp [Text.expandTabs, htab]

/-- A token of a row stands behind the lexemes before it. -/
theorem exists_lexemes_around {p : Place} {ls : List Lexeme} {t : Token}
    (h : t ∈ locateFrom p ls) :
    ∃ before after, ls = before ++ t.toLexeme :: after ∧
      t.place = p.after (before.flatMap (·.text.toList)) := by
  induction ls generalizing p with
  | nil => cases h
  | cons l ls ih =>
    rcases List.mem_cons.1 h with rfl | h
    · exact ⟨[], ls, rfl, rfl⟩
    · obtain ⟨before, after, rfl, hplace⟩ := ih h
      refine ⟨l :: before, after, rfl, ?_⟩
      rw [hplace, List.flatMap_cons, Place.after_append]

/-- The end of the input comes behind all other lexemes. -/
theorem Lexeme.eq_finish_of_scan {cs : List Char} {front rest : List Lexeme} {l : Lexeme}
    (h : scan cs = front ++ l :: rest) (hl : l.kind = .endOfInput) : l = finish ∧ rest = [] := by
  obtain ⟨ls, hls, hkinds⟩ := scan_eq_append_finish cs
  rw [hls] at h
  obtain rfl | ⟨rest, m, rfl⟩ := List.eq_nil_or_concat rest
  · obtain ⟨-, hlast⟩ := List.append_inj' h rfl
    exact ⟨(List.singleton_inj.1 hlast).symm, rfl⟩
  · rw [List.concat_eq_append, ← List.cons_append, ← List.append_assoc] at h
    obtain ⟨rfl, -⟩ := List.append_inj' h rfl
    exact absurd hl (hkinds l (by simp))

/-- A token stands behind the part of the text before it, and the end of the input behind all of
it. -/
theorem exists_text_around {text : String} {t : Token} (h : t ∈ tokens text) :
    ∃ before after, text.toList = before ++ (t.text.toList ++ after) ∧
      t.place = Place.after .start before ∧ (t.kind = .endOfInput → before = text.toList) := by
  obtain ⟨before, after, hscan, hplace⟩ := exists_lexemes_around (List.mem_filter.1 h).1
  have htext : text.toList = before.flatMap (·.text.toList) ++
      (t.text.toList ++ after.flatMap (·.text.toList)) := by
    rw [← Lexeme.flatMap_text_scan text.toList, hscan, List.flatMap_append, List.flatMap_cons]
  refine ⟨_, _, htext, hplace, fun hkind => ?_⟩
  obtain ⟨hfinish, rfl⟩ := Lexeme.eq_finish_of_scan hscan hkind
  have hempty : t.text = "" := congrArg Lexeme.text hfinish
  rw [htext, hempty]
  simp

/-- A token holds neither a line break nor a tab. -/
theorem not_isBlank_of_mem_tokens {text : String} {t : Token} (h : t ∈ tokens text) :
    ∀ c ∈ t.text.toList, isBlank c = false :=
  Lexeme.not_isBlank_of_mem_scan (toLexeme_mem_scan h)
    (by simpa [Token.matters] using (List.mem_filter.1 h).2)

end LinkerNames

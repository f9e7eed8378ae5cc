import LinkerNames.Proofs.Token.Seams
/-!
# Texts put together

Two texts put together have the words of the first and then those of the second, if the first ends
in one that the second does not go on with (`words_append`). Blanks in between make no difference.
-/

namespace LinkerNames
namespace Lexeme

variable {cs ds : List Char}

theorem saying_nil : saying [] = [finish] := by
  rw [saying, scan_nil]
  rfl

/-- Every text has at least its end for a lexeme. -/
theorem saying_ne_nil (cs : List Char) : saying cs ≠ [] := by
  obtain ⟨ls, hls, -⟩ := scan_eq_append_finish cs
  rw [saying, hls, List.filter_append]
  simp [finish]

/-- A text has the same lexemes with a second text behind it, but for its end. -/
theorem saying_append (h : ∀ l ∈ (saying cs).dropLast.getLast?, l.EndsBefore ds) :
    saying (cs ++ ds) = (saying cs).dropLast ++ saying ds := by
  fun_induction scan cs with
  | case1 => simp [saying_nil]
  | case2 c cs ih =>
    rw [← text_first c cs] at h ⊢
    rw [List.append_assoc]
    by_cases hblank : (first c cs).1.kind = .blank
    · rw [saying_append_of_blank rfl hblank] at h ⊢
      rw [saying_append_of_blank rfl hblank, ih h]
    · rw [saying_append_of_endsBefore rfl hblank (endsBefore_first c cs),
        List.dropLast_cons_of_ne_nil (saying_ne_nil _)] at h ⊢
      -- It is parted from its own text, or it is the last lexeme and the second text comes next.
      have hends : (first c cs).1.EndsBefore ((first c cs).2 ++ ds) := by
        cases hrest : (first c cs).2 with
        | nil => exact h _ (by simp [hrest, saying_nil])
        | cons d rest =>
          have hends := endsBefore_first c cs
          rwa [hrest] at hends
      have hlast : ∀ l ∈ (saying (first c cs).2).dropLast.getLast?, l.EndsBefore ds :=
        fun l hl => h l (by rw [List.getLast?_cons, Option.mem_def.1 hl]; rfl)
      rw [saying_append_of_endsBefore rfl hblank hends, ih hlast, List.cons_append]

end Lexeme

/-- The lexemes of a text that say something are those of its words, and its end. -/
theorem saying_toList (text : String) :
    Lexeme.saying text.toList = (words text).map .ofText ++ [.finish] :=
  (map_toLexeme_tokens text).symm.trans (map_toLexeme_tokens_eq text)

/-- The words of two texts put together, if the last word of the first ends there. -/
theorem words_append {text text' : String}
    (h : ∀ w ∈ (words text).getLast?, (Lexeme.ofText w).EndsBefore text'.toList) :
    words (text ++ text') = words text ++ words text' := by
  apply words_eq_of_lexemes
  · intro w hw
    exact (List.mem_append.1 hw).elim isWord_of_mem_words isWord_of_mem_words
  · change Lexeme.saying _ = _
    rw [String.toList_append, Lexeme.saying_append, saying_toList, saying_toList,
      List.dropLast_concat, List.map_append, List.append_assoc]
    intro l hl
    rw [saying_toList, List.dropLast_concat, List.getLast?_map] at hl
    obtain ⟨w, hw, rfl⟩ := Option.map_eq_some_iff.1 hl
    exact h w hw

/-- Blanks before a text add no words. -/
theorem words_blanks_append (w : Blanks) (text : String) :
    words (.ofList w.1 ++ text) = words text := by
  apply words_eq_of_lexemes fun _ hw => isWord_of_mem_words hw
  change Lexeme.saying _ = _
  rw [String.toList_append, String.toList_ofList, Lexeme.saying_blanks_append, saying_toList]

end LinkerNames

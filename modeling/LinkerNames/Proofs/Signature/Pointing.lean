import LinkerNames.Proofs.Signature.Continuation
import LinkerNames.Proofs.Signature.Refusal
import LinkerNames.Proofs.Token.Placement
/-!
# Pointing at the token in question

A rejection shows the line of the token that it is for, up to two lines before it, and under them a
row of dashes with an arrow at its end. Places are counted token by token and tab by tab, and lines
are parted when all tabs are expanded already. Both come to the same columns, so that the arrow is
under the token (`parse_error_shown`).
-/

namespace LinkerNames

/-- A line as it is shown, with eight blanks for each tab. -/
def lineAsShown (line : List Char) : List Char :=
  line.flatMap fun c => if c = '\t' then List.replicate 8 ' ' else [c]

/-- The context of a rejection is the line of its token, with those of the lines above that are no
more than two before it, and under the line the arrow. Above the arrow the token begins, or the line
ends if the input does. -/
structure Rejection.Shown (why : Rejection) (text : String) (above : List (List Char))
    (line : List Char) : Prop where
  token_mem : why.token ∈ tokens text
  /-- The lines are parted at line feeds and nowhere else. -/
  text_eq : ∃ rest, text.toList = above.flatMap (· ++ ['\n']) ++ (line ++ rest) ∧
    ∀ c ∈ rest.head?, c = '\n'
  not_mem_line : ∀ l ∈ line :: above, '\n' ∉ l
  above_length : above.length = why.place.line
  context_eq : why.context.toList =
    (above.drop (why.place.line - 2)).flatMap (lineAsShown · ++ ['\n']) ++
      (lineAsShown line ++ '\n' :: (List.replicate why.place.column '-' ++ ['^']))
  token_prefix : why.token.text.toList <+: (lineAsShown line).drop why.place.column
  column_eq : why.token.kind = .endOfInput → why.place.column = (lineAsShown line).length

theorem linesAround_eq {text line : List Char} {above below : List (List Char)}
    (h : shownLines text = above ++ line :: below) :
    linesAround text above.length = above.drop (above.length - 2) ++ [line] := by
  rw [linesAround, h, List.append_cons, List.take_left' (by simp),
    List.drop_append_of_le_length (Nat.sub_le _ _)]

/-- What is shown around a place is written line by line. -/
theorem toList_snippet {text : String} {line : List Char} {above below : List (List Char)}
    (h : Text.splitLines text.toList = above ++ line :: below) (column : Nat) :
    (snippet text ⟨above.length, column⟩).toList =
      (above.drop (above.length - 2)).flatMap (lineAsShown · ++ ['\n']) ++
        (lineAsShown line ++ '\n' :: (List.replicate column '-' ++ ['^'])) := by
  have hshown : shownLines text.toList =
      above.map lineAsShown ++ lineAsShown line :: below.map lineAsShown := by
    rw [shownLines, Text.splitLines_expandTabs, h, List.map_append, List.map_cons]
    rfl
  have haround := linesAround_eq hshown
  rw [List.length_map] at haround
  rw [snippet, String.toList_ofList, haround, Text.joinLines_append_singleton, ← List.map_drop,
    List.flatMap_append, List.flatMap_map, List.flatMap_singleton, pointer]
  simp only [List.append_assoc, List.singleton_append]

/-- The rejection of a text is for one of its tokens, and its context is around the token. -/
theorem token_mem_of_rejected {text : String} {why : Rejection}
    (h : parse text = .error (.rejected why)) :
    why.token ∈ tokens text ∧ why.context = snippet text why.place := by
  obtain ⟨row, last, htokens, hlast, -⟩ := tokens_eq_append_finish text
  obtain ⟨r, es, he, hstuck⟩ := exists_stuck_of_parse htokens hlast h
  cases he
  obtain ⟨before, hrow, -⟩ := hstuck.continues
  refine ⟨?_, rfl⟩
  change Cursor.peek ⟨r, last⟩ ∈ tokens text
  rw [htokens, hrow]
  cases r with
  | nil =>
    rw [← hrow]
    exact List.mem_append_right _ List.mem_cons_self
  | cons t r => exact List.mem_append_right _ List.mem_cons_self

/-- What holds no blanks is in one line of a text, and as far to the right in it, with all tabs
expanded, as the place is that is counted up to it. -/
theorem exists_line_around {word : List Char} (before after : List Char)
    (hblank : ∀ c ∈ word, isBlank c = false) :
    ∃ above left right below,
      Text.splitLines (before ++ (word ++ after)) = above ++ (left ++ (word ++ right)) :: below ∧
      lineAsShown (left ++ (word ++ right)) = lineAsShown left ++ (word ++ lineAsShown right) ∧
      Place.after .start before = ⟨above.length, (lineAsShown left).length⟩ ∧
      (after = [] → right = []) := by
  have hbreak : '\n' ∉ word := fun hc => absurd (hblank _ hc) (by decide)
  have htab : '\t' ∉ word := fun hc => absurd (hblank _ hc) (by decide)
  -- The last line before the word and the first behind it are parts of its line.
  obtain ⟨above, left, hbefore, -⟩ := Text.exists_splitAt_append '\n' before
  obtain ⟨right, below, hafter⟩ := Text.exists_splitAt_eq_cons '\n' after
  refine ⟨above, left, right, below, ?_, ?_, Place.after_start_eq hbefore, ?_⟩
  · exact Text.splitAt_append hbefore (Text.splitAt_append_of_not_mem hbreak hafter)
  · have hword : lineAsShown word = word := Text.expandTabs_of_not_mem htab
    rw [lineAsShown, List.flatMap_append, List.flatMap_append]
    exact congrArg (fun w => _ ++ (w ++ _)) hword
  · rintro rfl
    obtain ⟨rfl, -⟩ := List.cons.inj hafter
    rfl

/-! ## Main theorem -/

/-- A text that is no signature is rejected with its lines around one of its tokens, and the arrow
under the token. -/
theorem parse_error_shown {text : String} {e : ParseError} (h : parse text = .error e) :
    ∃ why above line, e = .rejected why ∧ why.Shown text above line := by
  obtain ⟨why, rfl⟩ := exists_rejection h
  obtain ⟨hmem, hcontext⟩ := token_mem_of_rejected h
  obtain ⟨before, after, htext, hplace, hfinish⟩ := exists_text_around hmem
  obtain ⟨above, left, right, below, hlines, hshown, haround, hright⟩ :=
    exists_line_around before after (not_isBlank_of_mem_tokens hmem)
  rw [← htext] at hlines
  have hwhere : why.place = ⟨above.length, (lineAsShown left).length⟩ := hplace.trans haround
  obtain ⟨hnot, hrest⟩ := Text.exists_text_of_splitAt hlines
  refine ⟨why, above, _, rfl, hmem, hrest, hnot, ?_, ?_, ?_, fun hkind => ?_⟩
  · rw [hwhere]
  · rw [hcontext, hwhere]
    exact toList_snippet hlines _
  · rw [hwhere, hshown, List.drop_left]
    exact List.prefix_append _ _
  · -- Nothing comes behind the end of the input.
    rw [hfinish hkind, List.self_eq_append_right, List.append_eq_nil_iff] at htext
    obtain ⟨hword, hnone⟩ := htext
    rw [hwhere, hword, hright hnone, List.append_nil, List.append_nil]

/-- The token is on the third line, behind two tabs. -/
theorem parse_error_shown_behind_tab :
    let text := "f(\n\tint,\n\tlong\tx)"
    let why : Rejection := ⟨⟨⟨.identifier, "x"⟩, ⟨2, 20⟩⟩, [.text ",", .text ")"],
      "f(\n        int,\n        long        x)\n--------------------^"⟩
    parse text = .error (.rejected why) ∧ ∃ above line, why.Shown text above line := by
  intro text why
  have herror : parse text = .error (.rejected why) := Except.eq_error_of_error? (by decide +kernel)
  obtain ⟨_, above, line, heq, hshown⟩ := parse_error_shown herror
  cases heq
  exact ⟨herror, above, line, hshown⟩

end LinkerNames

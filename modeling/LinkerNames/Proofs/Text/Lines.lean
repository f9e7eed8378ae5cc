import LinkerNames.Text.Lines
/-!
# The lines of a text

A text that is put together from two has the lines of both, but that the last line of the one and
the first line of the other are one line (`splitAt_append`). Tabs are expanded within lines, so the
lines of a text with its tabs expanded are its lines with their tabs expanded.
-/

namespace LinkerNames.Text

variable {separator c : Char} {cs ds first last : List Char} {before behind : List (List Char)}

/-! ## Parts between separators -/

@[simp]
theorem splitAt_nil (separator : Char) : splitAt separator [] = [[]] :=
  rfl

theorem splitAt_cons_self (separator : Char) (cs : List Char) :
    splitAt separator (separator :: cs) = [] :: splitAt separator cs := by
  simp [splitAt]

theorem splitAt_cons_of_ne (hc : c ≠ separator) (hcs : splitAt separator cs = first :: behind) :
    splitAt separator (c :: cs) = (c :: first) :: behind := by
  change (if c = separator then _ else (splitAt separator cs).modifyHead (c :: ·)) = _
  rw [if_neg hc, hcs, List.modifyHead_cons]

theorem exists_splitAt_eq_cons (separator : Char) (cs : List Char) :
    ∃ first behind, splitAt separator cs = first :: behind :=
  List.exists_cons_of_ne_nil (splitAt_ne_nil separator cs)

/-- What holds no separator goes on in the first part of what is behind it. -/
theorem splitAt_append_of_not_mem (hcs : separator ∉ cs)
    (hds : splitAt separator ds = first :: behind) :
    splitAt separator (cs ++ ds) = (cs ++ first) :: behind := by
  induction cs with
  | nil => exact hds
  | cons c cs ih =>
    have hc : c ≠ separator := fun h => hcs (h ▸ List.mem_cons_self)
    exact splitAt_cons_of_ne hc (ih fun h => hcs (List.mem_cons_of_mem c h))

theorem splitAt_of_not_mem (hcs : separator ∉ cs) : splitAt separator cs = [cs] := by
  simpa using splitAt_append_of_not_mem hcs (splitAt_nil separator)

/-- The last part of a text goes on in the first part of what is behind it. -/
theorem exists_splitAt_append (separator : Char) (cs : List Char) :
    ∃ before last, splitAt separator cs = before ++ [last] ∧ ∀ ds first behind,
      splitAt separator ds = first :: behind →
        splitAt separator (cs ++ ds) = before ++ (last ++ first) :: behind := by
  induction cs with
  | nil => exact ⟨[], [], rfl, fun _ _ _ hds => hds⟩
  | cons c cs ih =>
    obtain ⟨before, last, hcs, happend⟩ := ih
    by_cases hc : c = separator
    · subst hc
      refine ⟨[] :: before, last, ?_, fun ds first behind hds => ?_⟩
      · rw [splitAt_cons_self, hcs, List.cons_append]
      · rw [List.cons_append, splitAt_cons_self, happend ds first behind hds, List.cons_append]
    -- The character belongs to the first part, which may be the last part too.
    cases before with
    | nil =>
      refine ⟨[], c :: last, splitAt_cons_of_ne hc hcs, fun ds first behind hds => ?_⟩
      exact splitAt_cons_of_ne hc (happend ds first behind hds)
    | cons part parts =>
      refine ⟨(c :: part) :: parts, last, splitAt_cons_of_ne hc hcs, fun ds first behind hds => ?_⟩
      exact splitAt_cons_of_ne hc (happend ds first behind hds)

theorem splitAt_append (hcs : splitAt separator cs = before ++ [last])
    (hds : splitAt separator ds = first :: behind) :
    splitAt separator (cs ++ ds) = before ++ (last ++ first) :: behind := by
  obtain ⟨before', last', hcs', happend⟩ := exists_splitAt_append separator cs
  obtain ⟨rfl, hlast⟩ := List.append_inj' (hcs.symm.trans hcs') rfl
  rw [happend ds first behind hds, List.singleton_inj.1 hlast]

/-- The first part of a text ends before the first separator, or the text does. -/
theorem splitAt_eq_cons (h : splitAt separator cs = first :: behind) :
    separator ∉ first ∧ (cs = first ∧ behind = [] ∨
      ∃ ds, cs = first ++ separator :: ds ∧ splitAt separator ds = behind) := by
  induction cs generalizing first with
  | nil =>
    obtain ⟨rfl, rfl⟩ := List.cons.inj h
    exact ⟨List.not_mem_nil, .inl ⟨rfl, rfl⟩⟩
  | cons c cs ih =>
    by_cases hc : c = separator
    · subst hc
      rw [splitAt_cons_self] at h
      obtain ⟨rfl, hbehind⟩ := List.cons.inj h
      exact ⟨List.not_mem_nil, .inr ⟨cs, rfl, hbehind⟩⟩
    · obtain ⟨part, parts, hcs⟩ := exists_splitAt_eq_cons separator cs
      rw [splitAt_cons_of_ne hc hcs] at h
      obtain ⟨rfl, rfl⟩ := List.cons.inj h
      obtain ⟨hmem, hrest⟩ := ih hcs
      refine ⟨by simp [Ne.symm hc, hmem], hrest.imp ?_ ?_⟩
      · rintro ⟨rfl, hnil⟩
        exact ⟨rfl, hnil⟩
      · rintro ⟨ds, rfl, hds⟩
        exact ⟨ds, rfl, hds⟩

/-- The parts of a text hold no separator, and with one behind each of those before a part, and the
part behind these, the text begins. It ends there or goes on with a separator. -/
theorem exists_text_of_splitAt {part : List Char}
    (h : splitAt separator cs = before ++ part :: behind) :
    (∀ p ∈ part :: before, separator ∉ p) ∧
      ∃ rest, cs = before.flatMap (· ++ [separator]) ++ (part ++ rest) ∧
        ∀ c ∈ rest.head?, c = separator := by
  induction before generalizing cs with
  | nil =>
    obtain ⟨hpart, ⟨rfl, -⟩ | ⟨ds, rfl, -⟩⟩ := splitAt_eq_cons h
    · exact ⟨List.forall_mem_singleton.2 hpart, [], by simp, by simp⟩
    · exact ⟨List.forall_mem_singleton.2 hpart, separator :: ds, rfl, by simp⟩
  | cons p before ih =>
    obtain ⟨hp, ⟨-, hnil⟩ | ⟨ds, rfl, hds⟩⟩ := splitAt_eq_cons h
    · simp at hnil
    · obtain ⟨hparts, rest, rfl, hrest⟩ := ih hds
      obtain ⟨hpart, hbefore⟩ := List.forall_mem_cons.1 hparts
      refine ⟨List.forall_mem_cons.2 ⟨hpart, List.forall_mem_cons.2 ⟨hp, hbefore⟩⟩, rest, ?_, hrest⟩
      simp

/-! ## Tabs -/

theorem expandTabs_append (cs ds : List Char) :
    expandTabs (cs ++ ds) = expandTabs cs ++ expandTabs ds :=
  List.flatMap_append

theorem expandTabs_of_not_mem (h : '\t' ∉ cs) : expandTabs cs = cs := by
  induction cs with
  | nil => rfl
  | cons c cs ih =>
    have hc : c ≠ '\t' := fun hc => h (hc ▸ List.mem_cons_self)
    rw [← List.singleton_append, expandTabs_append, ih fun hcs => h (List.mem_cons_of_mem c hcs)]
    simp [expandTabs, hc]

/-- The lines of a text with its tabs expanded. -/
theorem splitLines_expandTabs (cs : List Char) :
    splitLines (expandTabs cs) = (splitLines cs).map expandTabs := by
  induction cs with
  | nil => rfl
  | cons c cs ih =>
    rw [← List.singleton_append, expandTabs_append, List.singleton_append]
    unfold splitLines at *
    obtain ⟨first, behind, hcs⟩ := exists_splitAt_eq_cons '\n' cs
    rw [hcs, List.map_cons] at ih
    by_cases hbreak : c = '\n'
    · subst hbreak
      rw [splitAt_cons_self, hcs, List.map_cons, List.map_cons, ← ih]
      exact splitAt_cons_self '\n' _
    · -- The columns of one character hold no line feed.
      have hcolumns : '\n' ∉ expandTabs [c] := by
        by_cases htab : c = '\t' <;> simp [expandTabs, htab, Ne.symm hbreak]
      rw [splitAt_cons_of_ne hbreak hcs, splitAt_append_of_not_mem hcolumns ih, List.map_cons,
        ← expandTabs_append, List.singleton_append]

/-! ## Lines put together -/

/-- Lines put under each other, each but the last with its line feed. -/
theorem joinLines_append_singleton (lines : List (List Char)) (last : List Char) :
    joinLines (lines ++ [last]) = lines.flatMap (· ++ ['\n']) ++ last := by
  induction lines with
  | nil => simp [joinLines]
  | cons line lines ih =>
    obtain ⟨first, behind, hlines⟩ := List.exists_cons_of_ne_nil
      (List.append_ne_nil_of_right_ne_nil lines (List.cons_ne_nil last []))
    rw [joinLines, hlines] at ih
    rw [List.flatMap_cons, List.append_assoc, ← ih, joinLines, List.cons_append, hlines,
      List.intercalate_cons_cons]

theorem unlines_append (lines lines' : List String) :
    unlines (lines ++ lines') = unlines lines ++ unlines lines' := by
  rw [unlines, List.map_append, String.join_append]
  rfl

/-- Lines put under each other, and what comes behind them, have their lines again. -/
theorem splitLines_unlines_append {lines : List String}
    (h : ∀ line ∈ lines, '\n' ∉ line.toList) (text : String) :
    splitLines (unlines lines ++ text).toList =
      lines.map String.toList ++ splitLines text.toList := by
  induction lines with
  | nil => simp [unlines]
  | cons line lines ih =>
    obtain ⟨hline, hlines⟩ := List.forall_mem_cons.1 h
    have htext : (unlines (line :: lines) ++ text).toList =
        line.toList ++ '\n' :: (unlines lines ++ text).toList := by
      simp [unlines, String.join_cons]
    have hrest := splitAt_cons_self '\n' (unlines lines ++ text).toList
    rw [htext, splitLines, splitAt_append_of_not_mem hline hrest, List.append_nil, List.map_cons,
      List.cons_append, ← ih hlines, splitLines]

theorem splitLines_unlines {lines : List String} (h : ∀ line ∈ lines, '\n' ∉ line.toList) :
    splitLines (unlines lines).toList = lines.map String.toList ++ [[]] := by
  have hlines := splitLines_unlines_append h ""
  rwa [String.append_empty] at hlines

end LinkerNames.Text

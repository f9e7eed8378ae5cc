import LinkerNames.Proofs.Signature.Stuck
/-!
# Refusing a text

A reader could go on behind the end of the input, and would fail there in a way that nobody has
caught. The readers of signatures do not: where they fail they are stuck, and say so. A function
never takes the end of the input, so there is a token to be stuck before.

`exists_rejection`: a text that is not accepted is rejected at one of its tokens.
-/

namespace LinkerNames

/-! ## What is behind a function -/

namespace Derives

variable {best : Bool} {i r : List Token} {ps : List Phrase}

theorem exists_last_of_list {opening closing : String}
    (h : Derives best (.list opening closing) i r ps) :
    ∃ last, last.text = closing ∧ last :: r <:+ i := by
  cases h with
  | empty _ hlast => exact ⟨_, hlast, List.suffix_cons _ _⟩
  | list _ h hlast => exact ⟨_, hlast, h.suffix.trans (List.suffix_cons _ _)⟩

/-- The last token of a function is a bracket or `const`. -/
theorem exists_last_of_function (h : Derives best .function i r ps) :
    ∃ last, last.text ≠ "" ∧ last :: r <:+ i := by
  cases h with
  | function h h' =>
    obtain ⟨last, hlast, hsuffix⟩ := h'.exists_last_of_list
    exact ⟨last, by simp [hlast], hsuffix.trans h.suffix⟩
  | constFunction h h' hmark => exact ⟨_, by simp [hmark], h'.suffix.trans h.suffix⟩

end Derives

/-- A function leaves the end of the input unread. -/
theorem Derives.ne_nil_of_function {best : Bool} {row r : List Token} {last : Token}
    {ps : List Phrase} (hlast : last.toLexeme = .finish)
    (h : Derives best .function (row ++ [last]) r ps) : r ≠ [] := by
  rintro rfl
  obtain ⟨t, ht, before, hrow⟩ := h.exists_last_of_function
  obtain rfl : t = last := List.singleton_inj.1 (List.append_inj' hrow rfl).2
  exact ht (by rw [hlast]; rfl)

/-! ## Whole texts -/

/-- A whole row is refused in its function or behind it. -/
theorem Reader.sticks_signature (row : List Token) {fin : Token} (hfin : fin.toLexeme = .finish) :
    Sticks signature .signature (row ++ [fin]) fin := by
  intro e c h
  rw [signature, EStateM.bind_eq_error_iff] at h
  rcases h with h | ⟨p, c', hp, h⟩
  · exact sticks_function hfin e c h
  obtain ⟨r, rfl, hd⟩ := sound_function _ _ p c' hfin hp
  obtain ⟨t, m, rfl⟩ := List.exists_cons_of_ne_nil (hd.ne_nil_of_function hfin)
  have hkind : t.kind ≠ .endOfInput := by
    intro hkind
    rw [EStateM.bind_of_ok (expect_cons (by simp [Expected.admits, hkind]))] at h
    cases h
  rw [EStateM.bind_of_error
    (expect_of_not_admits (by simpa [Expected.admits] using hkind))] at h
  cases h
  refine ⟨t :: m, _, rfl, rfl, ?_⟩
  obtain ⟨name, args, _, _, _, ⟨⟩, hname, hargs, ⟨rfl, hconst, -⟩ | ⟨mark, rfl, hmark, -⟩⟩ :=
    function_eq_ok hfin hp
  · exact .finish hname hargs hconst hkind
  · exact .finishConst hname hargs hmark hkind

/-- A text that is no signature is rejected where reading it is stuck. -/
theorem exists_stuck_of_parse {text : String} {row : List Token} {last : Token} {e : ParseError}
    (htokens : tokens text = row ++ [last]) (hlast : last.toLexeme = .finish)
    (h : parse text = .error e) :
    ∃ r es, e = .rejected (.ofToken text (Cursor.peek ⟨r, last⟩) es) ∧
      Stuck last .signature (row ++ [last]) r es := by
  have hsticks := Reader.sticks_signature row hlast
  unfold parse at h
  rw [ofText_eq text htokens] at h
  split at h
  next => cases h
  next hx =>
    obtain ⟨r, _, -, heq, hstuck⟩ := hsticks _ _ hx
    cases heq
    cases h
    exact ⟨r, _, rfl, hstuck⟩
  next hx =>
    obtain ⟨_, _, -, heq, -⟩ := hsticks _ _ hx
    cases heq

/-- A text that is no signature is rejected at one of its tokens. -/
theorem exists_rejection {text : String} {e : ParseError} (h : parse text = .error e) :
    ∃ why, e = .rejected why := by
  obtain ⟨row, last, htokens, hlast, -⟩ := tokens_eq_append_finish text
  obtain ⟨r, es, he, -⟩ := exists_stuck_of_parse htokens hlast h
  exact ⟨_, he⟩

end LinkerNames

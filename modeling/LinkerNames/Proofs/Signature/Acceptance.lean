import LinkerNames.Proofs.Signature.Choices
/-!
# The texts that are signatures

A text is accepted if and only if its tokens, without the end of the input, can be derived as a
function. The tree is that of the one best derivation.

The readers see the end of the input behind the tokens and never read it as a part of a function.
So a derivation does not care whether it stands there.
-/

namespace LinkerNames

variable {last : Token}

/-! ## The end of the input -/

theorem peekAt_append_finish (i : List Token) (n : Nat) :
    Cursor.peekAt ⟨i ++ [last], last⟩ n = Cursor.peekAt ⟨i, last⟩ n := by
  rw [Cursor.peekAt_mk, Cursor.peekAt_mk, List.getElem?_append]
  split
  next => rfl
  next h =>
    rw [List.getElem?_eq_none (Nat.le_of_not_lt h)]
    cases n - i.length <;> simp

theorem standardAhead_append_finish (hlast : last.toLexeme = .finish) (i : List Token) :
    StandardAhead (i ++ [last]) ↔ StandardAhead i := by
  rw [← Cursor.atStandardName_iff hlast, ← Cursor.atStandardName_iff hlast]
  simp only [Cursor.atStandardName, peekAt_append_finish]

theorem longestBuiltin_append_finish (hlast : last.toLexeme = .finish) (words rest : List Token) :
    LongestBuiltin words (rest ++ [last]) ↔ LongestBuiltin words rest := by
  constructor
  · rintro h more others hne rfl
    exact h more (others ++ [last]) hne (List.append_assoc ..)
  · intro h more others hne hrest hspells
    rcases List.append_eq_append_iff.1 hrest with ⟨after, rfl, hafter⟩ | ⟨after, rfl, -⟩
    · cases after with
      | nil => exact h rest [] (by simpa using hne) (by simp) (by simpa using hspells)
      | cons t ts =>
        -- The end of the input would be a word of a builtin type.
        obtain rfl : last = t := (List.cons.inj hafter).1
        have := hspells.isBuiltinWord last (by simp)
        rw [Cursor.not_isBuiltinWord_finish hlast] at this
        cases this
    · exact h more after hne rfl hspells

theorem rowPlace_append {i : List Token} (h : i ≠ []) (j : List Token) :
    rowPlace (i ++ j) = rowPlace i := by
  obtain ⟨t, m, rfl⟩ := List.exists_cons_of_ne_nil h
  rfl

namespace Derives

variable {best : Bool} {cat : Category} {i r : List Token} {ps : List Phrase}

theorem append_finish (hlast : last.toLexeme = .finish) (h : Derives best cat i r ps) :
    Derives best cat (i ++ [last]) (r ++ [last]) ps := by
  have hplace := rowPlace_append h.input_ne_nil [last]
  induction h with
  | standard hs => exact .standard ((standardAhead_append_finish hlast _).2 hs)
  | @builtin words rest hw hmax =>
    rw [List.append_assoc]
    exact .builtin hw fun hb => (longestBuiltin_append_finish hlast words rest).2 (hmax hb)
  | @plain t rest hk hw hs =>
    exact .plain hk hw fun hb => mt (standardAhead_append_finish hlast (t :: rest)).1 (hs hb)
  | generic h ih => exact hplace ▸ .generic (ih hplace)
  | segment h ih => exact .segment (ih hplace)
  | segmentGeneric h h' ih ih' =>
    exact .segmentGeneric (ih hplace) (ih' (rowPlace_append h'.input_ne_nil _))
  | last h ih => exact .last (ih hplace)
  | scope h hm h' ih ih' =>
    exact .scope (ih hplace) hm (ih' (rowPlace_append h'.input_ne_nil _))
  | path h ih => exact hplace ▸ .path (ih hplace)
  | elementType h ih => exact hplace ▸ .elementType (ih hplace)
  | elementPath h hp ih => exact hplace ▸ .elementPath (ih hplace) hp
  | typedElement h hm ih =>
    exact hplace ▸ .typedElement (List.append_assoc .. ▸ ih hplace) hm
  | single h ih => exact .single (ih hplace)
  | comma h hm h' ih ih' =>
    exact .comma (ih hplace) hm (ih' (rowPlace_append h'.input_ne_nil _))
  | empty ho hc => exact .empty ho hc
  | list ho h hc ih => exact .list ho (ih (rowPlace_append h.input_ne_nil _)) hc
  | function h h' ih ih' =>
    exact hplace ▸ .function (ih hplace) (ih' (rowPlace_append h'.input_ne_nil _))
  | constFunction h h' hm ih ih' =>
    exact hplace ▸ .constFunction (ih hplace) (ih' (rowPlace_append h'.input_ne_nil _)) hm

/-- What ends with the end of the input begins with a row that does. -/
theorem exists_append_finish {input rest : List Token} (h : Derives best cat input rest ps)
    (hr : r ++ [last] = rest) : ∃ m, m ++ [last] = input := by
  obtain ⟨m, rfl⟩ := h.suffix
  exact ⟨m ++ r, by rw [List.append_assoc, hr]⟩

theorem of_append_finish (hlast : last.toLexeme = .finish)
    (h : Derives best cat (i ++ [last]) (r ++ [last]) ps) : Derives best cat i r ps := by
  generalize hi : i ++ [last] = input at h
  generalize hr : r ++ [last] = rest at h
  -- Where a derivation parts, the row between its parts ends with the end of the input too.
  induction h generalizing i r with
  | @standard root scope name rest hs =>
    obtain rfl : i = root :: scope :: name :: r :=
      List.append_cancel_right (hi.trans (by rw [← hr]; rfl))
    exact .standard ((standardAhead_append_finish hlast _).1 (hi ▸ hs))
  | @builtin words rest hw hmax =>
    obtain rfl : i = words ++ r :=
      List.append_cancel_right (hi.trans (by rw [← hr, List.append_assoc]))
    exact .builtin hw fun hb => (longestBuiltin_append_finish hlast words r).1 (hr ▸ hmax hb)
  | @plain t rest hk hw hs =>
    obtain rfl : i = t :: r := List.append_cancel_right (hi.trans (by rw [← hr]; rfl))
    exact .plain hk hw fun hb => mt (standardAhead_append_finish hlast (t :: r)).2 (hi ▸ hs hb)
  | generic _ ih =>
    have h := ih hi hr
    rw [← hi, rowPlace_append h.input_ne_nil]
    exact .generic h
  | segment _ ih => exact .segment (ih hi hr)
  | segmentGeneric _ h' ih ih' =>
    obtain ⟨m, hm⟩ := h'.exists_append_finish hr
    exact .segmentGeneric (ih hi hm) (ih' hm hr)
  | last _ ih => exact .last (ih hi hr)
  | scope _ hmark h' ih ih' =>
    obtain ⟨m, rfl⟩ := h'.exists_append_finish hr
    exact .scope (ih hi rfl) hmark (ih' rfl hr)
  | path _ ih =>
    have h := ih hi hr
    rw [← hi, rowPlace_append h.input_ne_nil]
    exact .path h
  | elementType _ ih =>
    have h := ih hi hr
    rw [← hi, rowPlace_append h.input_ne_nil]
    exact .elementType h
  | elementPath _ hplain ih =>
    have h := ih hi hr
    rw [← hi, rowPlace_append h.input_ne_nil]
    exact .elementPath h hplain
  | typedElement _ hm ih =>
    have h := ih hi (by rw [← hr, List.append_assoc])
    rw [← hi, rowPlace_append h.input_ne_nil]
    exact .typedElement h hm
  | single _ ih => exact .single (ih hi hr)
  | comma _ hmark h' ih ih' =>
    obtain ⟨m, rfl⟩ := h'.exists_append_finish hr
    exact .comma (ih hi rfl) hmark (ih' rfl hr)
  | @empty _ _ first closing rest ho hc =>
    obtain rfl : i = first :: closing :: r :=
      List.append_cancel_right (hi.trans (by rw [← hr]; rfl))
    exact .empty ho hc
  | @list _ _ first closing between rest _ ho h hc ih =>
    have hr' : closing :: r ++ [last] = closing :: rest := congrArg (closing :: ·) hr
    obtain ⟨m, rfl⟩ := h.exists_append_finish hr'
    obtain rfl : i = first :: m := List.append_cancel_right hi
    exact .list ho (ih rfl hr') hc
  | function _ h' ih ih' =>
    obtain ⟨m, rfl⟩ := h'.exists_append_finish hr
    have h := ih hi rfl
    rw [← hi, rowPlace_append h.input_ne_nil]
    exact .function h (ih' rfl hr)
  | @constFunction _ _ rest mark _ _ _ h' hmark ih ih' =>
    have hr' : mark :: r ++ [last] = mark :: rest := congrArg (mark :: ·) hr
    obtain ⟨m, rfl⟩ := h'.exists_append_finish hr'
    have h := ih hi rfl
    rw [← hi, rowPlace_append h.input_ne_nil]
    exact .constFunction h (ih' rfl hr') hmark

theorem eq_singleton_of_function (h : Derives best .function i r ps) : ∃ p, ps = [p] := by
  cases h <;> exact ⟨_, rfl⟩

end Derives

/-! ## Main theorem -/

/-- A text is accepted if and only if its tokens can be derived as a function, the end of the input
left out. The answer is the tree of the one best derivation. -/
theorem parse_eq_ok_iff (text : String) :
    ((∃ p, parse text = .ok p) ↔ ∃ p, Derives false .function (tokens text).dropLast [] [p]) ∧
      ∀ p, parse text = .ok p ↔ Derives true .function (tokens text).dropLast [] [p] := by
  have hbest : ∀ p, parse text = .ok p ↔
      Derives true .function (tokens text).dropLast [] [p] := by
    obtain ⟨row, last, htokens, hlast, hrow⟩ := tokens_eq_append_finish text
    intro p
    rw [htokens, List.dropLast_concat]
    constructor
    · intro h
      exact Derives.of_append_finish (r := []) hlast (derives_of_parse htokens hlast hrow h)
    · intro h
      rw [parse_eq_ok_iff_signature, ofText_eq text htokens]
      have hfunction := Reader.function_of_derives hlast (htokens ▸ named_tokens text)
        (h.append_finish hlast) (by simp [hlast, Lexeme.finish])
      exact ⟨_, signature_eq_ok_iff.2 ⟨_, last, hfunction,
        Reader.expect_cons (by simp [Expected.admits, hlast, Lexeme.finish])⟩⟩
  refine ⟨⟨?_, ?_⟩, hbest⟩
  · rintro ⟨p, hp⟩
    exact ⟨p, ((hbest p).1 hp).any⟩
  -- A derivation may choose badly, but then there is a best one beside it.
  rintro ⟨p, hp⟩
  obtain ⟨qs, hq⟩ := (hp.exists_best trivial).resolve_right fun h => h.1
  obtain ⟨q, rfl⟩ := hq.eq_singleton_of_function
  exact ⟨q, (hbest q).2 hq⟩

end LinkerNames

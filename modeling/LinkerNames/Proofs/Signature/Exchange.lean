import LinkerNames.Proofs.Signature.Acceptance
import LinkerNames.Proofs.Symbol.Written
import Mathlib.Data.List.Infix
/-!
# What comes behind

What is derived of a row does not depend on much of what comes behind it: on whether a path could
go on there and, for the best choices, on the next token and on whether a name of the standard
library began before it. `Derives.exchange` puts other tokens there. For that the spellings of
builtin types must not be cut short by one word and allow the next: each beginning of a spelling is
one too.
-/

namespace LinkerNames

/-! ## Spellings and their beginnings -/

theorem spelling_of_prefix : ∀ name ∈ builtinSpellings, ∀ ws ∈ (words name).inits, ws ≠ [] →
    spelling ws ∈ builtinSpellings := by
  decide +kernel

theorem SpellsBuiltin.words_eq {taken : List Token} (h : SpellsBuiltin taken) :
    words (" ".intercalate (taken.map (·.text))) = taken.map (·.text) := by
  refine words_spelling fun w hw => ?_
  obtain ⟨t, ht, rfl⟩ := List.mem_map.1 hw
  exact (isWord_builtinWord _ (Token.isBuiltinWord_iff.1 (h.isBuiltinWord t ht)).2).1

/-- A beginning of a row that spells a builtin type spells one. -/
theorem SpellsBuiltin.of_append {taken more : List Token} (h : SpellsBuiltin (taken ++ more))
    (hne : taken ≠ []) : SpellsBuiltin taken := by
  refine ⟨hne, fun t ht => h.isBuiltinWord t (List.mem_append_left _ ht), ?_⟩
  refine spelling_of_prefix _ h.spelled _ ?_ (by simpa using hne)
  rw [List.mem_inits, h.words_eq, List.map_append]
  exact List.prefix_append _ _

/-! ## Exchange -/

/-- The second row may come where the first does, behind what is derived. -/
structure Exchange (best : Bool) (rest rest' : List Token) : Prop where
  ends : Ends rest → Ends rest'
  back : best → Ends rest' → Ends rest
  builtin : best → ∀ t ∈ rest'.head?, t.isBuiltinWord = true → t ∈ rest.head?
  standard : best → ∀ t, StandardAhead (t :: rest') → StandardAhead (t :: rest)

namespace Exchange

variable {best : Bool} {t : Token} {x x' r r' : List Token}

/-- The tokens behind the next one do not matter, unless that parts the segments of a path. -/
theorem of_head (h : best → ∀ u, StandardAhead (u :: t :: x') → StandardAhead (u :: t :: x)) :
    Exchange best (t :: x) (t :: x') where
  ends h u hu := h u hu
  back _ h u hu := h u hu
  builtin _ _ hu _ := hu
  standard := h

theorem of_head_ne (h : t.text ≠ "::") : Exchange best (t :: x) (t :: x') :=
  .of_head fun _ _ hs => absurd hs (StandardAhead.not_of_head fun _ hu => by cases hu; exact h)

/-- Any choices may be made again before the same token. -/
theorem of_head_any : Exchange false (t :: x) (t :: x') :=
  .of_head (by simp)

/-- Any choices may be made again where a path does not go on. -/
theorem of_ends (h : Ends r') : Exchange false r r' where
  ends _ := h
  back := by simp
  builtin := by simp
  standard := by simp

end Exchange

theorem LongestBuiltin.exchange {taken rest rest' : List Token} (hmax : LongestBuiltin taken rest)
    (h : Exchange true rest rest') : LongestBuiltin taken rest' := by
  rintro more others hmore rfl hlonger
  obtain ⟨t, ts, rfl⟩ := List.exists_cons_of_ne_nil hmore
  have hword := hlonger.isBuiltinWord t (by simp)
  obtain ⟨m, rfl⟩ := List.head?_eq_some_iff.1 (h.builtin rfl t rfl hword)
  -- The next word alone makes the spelling longer, and it is the same.
  have hsplit : SpellsBuiltin ((taken ++ [t]) ++ ts) := by simpa using hlonger
  have hnext : SpellsBuiltin (taken ++ [t]) := hsplit.of_append (by simp)
  exact hmax [t] m (by simp) rfl hnext

theorem StandardAhead.exchange {root scope name : Token} {rest rest' : List Token}
    (hs : StandardAhead (root :: scope :: name :: rest)) (h : Ends rest → Ends rest') :
    StandardAhead (root :: scope :: name :: rest') := by
  cases hs with
  | mk hk hroot hscope hk' hname hrest => exact .mk hk hroot hscope hk' hname (h hrest)

/-- Between a mark and what is derived behind it a name of the standard library cannot begin to
stand by exchange. -/
theorem StandardAhead.of_exchange {t mark : Token} {taken rest rest' : List Token}
    (hs : StandardAhead (t :: mark :: (taken ++ rest'))) (hne : taken ≠ [])
    (h : Ends rest' → Ends rest) : StandardAhead (t :: mark :: (taken ++ rest)) := by
  obtain ⟨name, more, rfl⟩ := List.exists_cons_of_ne_nil hne
  refine hs.exchange fun hends => ?_
  cases more with
  | nil => exact h hends
  | cons u us => exact hends

/-- A category of its own or a list that a bracket closes. -/
def Category.Closes (cat : Category) : Prop :=
  match cat with
  | .list _ closing => Reader.IsClosing closing
  | _ => True

/-- What is derived is derived as well with another row behind it. -/
theorem Derives.exchange {best : Bool} {cat : Category} {i r r' : List Token} {ps : List Phrase}
    (h : Derives best cat i r ps) (hcat : cat.Closes) (hx : Exchange best r r') :
    ∃ taken, taken ≠ [] ∧ i = taken ++ r ∧ Derives best cat (taken ++ r') r' ps := by
  have hplace {taken r r' : List Token} (hne : taken ≠ []) :
      rowPlace (taken ++ r) = rowPlace (taken ++ r') := by
    rw [rowPlace_append hne, rowPlace_append hne]
  have hlist {taken r' : List Token} {o c : String} {args : List Phrase} (r : List Token)
      (h : Derives best (.list o c) (taken ++ r') r' args) (hne : taken ≠ []) (ho : o ≠ "::") :
      Exchange best (taken ++ r) (taken ++ r') := by
    obtain ⟨first, more, rfl⟩ := List.exists_cons_of_ne_nil hne
    obtain ⟨_, _, hrow, hfirst⟩ := Reader.head_of_list h
    obtain ⟨rfl, -⟩ := List.cons.inj hrow
    exact .of_head_ne (hfirst ▸ ho)
  induction h generalizing r' with
  | @standard root scope name rest hs =>
    exact ⟨[root, scope, name], by simp, rfl, .standard (hs.exchange hx.ends)⟩
  | @builtin taken rest hw hmax =>
    refine ⟨taken, hw.ne_nil, rfl, .builtin hw fun hb => ?_⟩
    subst hb
    exact (hmax rfl).exchange hx
  | @plain t rest hk hw hs =>
    exact ⟨[t], by simp, rfl, .plain hk hw fun hb => mt (hx.standard hb t) (hs hb)⟩
  | generic _ ih =>
    obtain ⟨taken, hne, rfl, h⟩ := ih (.inr rfl) hx
    exact ⟨taken, hne, rfl, hplace hne ▸ .generic h⟩
  | segment _ ih =>
    obtain ⟨taken, hne, rfl, h⟩ := ih trivial hx
    exact ⟨taken, hne, rfl, .segment h⟩
  | segmentGeneric _ _ ih ih' =>
    obtain ⟨taken', hne', rfl, h'⟩ := ih' trivial hx
    cases h' with
    | generic h' =>
      obtain ⟨taken, hne, rfl, h⟩ := ih trivial (hlist _ h' hne' (by decide))
      refine ⟨taken ++ taken', by simp [hne], by simp, ?_⟩
      rw [hplace hne', List.append_assoc]
      exact .segmentGeneric h (.generic h')
  | last _ ih =>
    obtain ⟨taken, hne, rfl, h⟩ := ih trivial hx
    exact ⟨taken, hne, rfl, .last h⟩
  | @scope _ _ _ mark _ _ _ hmark _ ih ih' =>
    obtain ⟨taken', hne', rfl, h'⟩ := ih' trivial hx
    obtain ⟨taken, hne, rfl, h⟩ :=
      ih trivial (.of_head fun hb _ hs => hs.of_exchange hne' (hx.back hb))
    refine ⟨taken ++ mark :: taken', by simp, by simp, ?_⟩
    simpa using Derives.scope h hmark h'
  | path _ ih =>
    obtain ⟨taken, hne, rfl, h⟩ := ih trivial hx
    exact ⟨taken, hne, rfl, hplace hne ▸ .path h⟩
  | elementType _ ih =>
    obtain ⟨taken, hne, rfl, h⟩ := ih trivial hx
    exact ⟨taken, hne, rfl, hplace hne ▸ .elementType h⟩
  | elementPath _ hplain ih =>
    obtain ⟨taken, hne, rfl, h⟩ := ih trivial hx
    exact ⟨taken, hne, rfl, hplace hne ▸ .elementPath h hplain⟩
  | @typedElement _ marks rest _ _ _ hm ih =>
    have hx' : Exchange best (marks ++ rest) (marks ++ r') := by
      cases marks with
      | nil => exact hx
      | cons t ts =>
        have hends : Ends (t :: ts ++ []) := Reader.ends_marks hm (by simp [Ends])
        exact .of_head_ne (hends t rfl).1
    obtain ⟨taken, hne, rfl, h⟩ := ih trivial hx'
    have hsame : rowPlace (taken ++ (marks ++ rest)) = rowPlace (taken ++ (marks ++ r')) :=
      hplace hne
    refine ⟨taken ++ marks, by simp [hne], by simp, ?_⟩
    rw [hsame, List.append_assoc]
    exact .typedElement h hm
  | single _ ih =>
    obtain ⟨taken, hne, rfl, h⟩ := ih trivial hx
    exact ⟨taken, hne, rfl, .single h⟩
  | @comma _ _ _ mark _ _ _ hmark _ ih ih' =>
    obtain ⟨taken', hne', rfl, h'⟩ := ih' trivial hx
    obtain ⟨taken, hne, rfl, h⟩ := ih trivial (.of_head_ne (by rw [hmark]; decide))
    refine ⟨taken ++ mark :: taken', by simp, by simp, ?_⟩
    simpa using Derives.comma h hmark h'
  | @empty _ _ first last _ ho hc => exact ⟨[first, last], by simp, rfl, .empty ho hc⟩
  | @list _ _ first last _ _ _ ho _ hc ih =>
    have hlast : last.text ≠ "::" := by
      rcases hcat with h | h <;> rw [hc, h] <;> decide
    obtain ⟨taken, hne, rfl, h⟩ := ih trivial (.of_head_ne hlast)
    refine ⟨first :: (taken ++ [last]), by simp, by simp, ?_⟩
    simpa using Derives.list ho h hc
  | @function _ _ rest _ _ _ _ ih ih' =>
    obtain ⟨taken', hne', rfl, h'⟩ := ih' (.inl rfl) hx
    obtain ⟨taken, hne, rfl, h⟩ := ih trivial (hlist _ h' hne' (by decide))
    have hsame : rowPlace (taken ++ (taken' ++ rest)) = rowPlace (taken ++ (taken' ++ r')) :=
      hplace hne
    refine ⟨taken ++ taken', by simp [hne], by simp, ?_⟩
    rw [hsame, List.append_assoc]
    exact .function h h'
  | @constFunction _ _ rest mark _ _ _ _ hmark ih ih' =>
    have hmark' : mark.text ≠ "::" := by rw [hmark]; decide
    obtain ⟨taken', hne', rfl, h'⟩ := ih' (.inl rfl) (.of_head_ne hmark')
    obtain ⟨taken, hne, rfl, h⟩ := ih trivial (hlist _ h' hne' (by decide))
    have hsame : rowPlace (taken ++ (taken' ++ mark :: rest)) =
        rowPlace (taken ++ (taken' ++ mark :: r')) := hplace hne
    refine ⟨taken ++ (taken' ++ [mark]), by simp, by simp, ?_⟩
    have hfunction := Derives.constFunction h h' hmark
    rw [hsame]
    simpa using hfunction

namespace Derives

variable {best : Bool} {cat : Category} {taken r : List Token} {ps : List Phrase}

theorem exchange_append {r' : List Token} (h : Derives best cat (taken ++ r) r ps)
    (hcat : cat.Closes) (hx : Exchange best r r') : Derives best cat (taken ++ r') r' ps := by
  obtain ⟨taken', -, heq, h⟩ := h.exchange hcat hx
  rwa [List.append_cancel_right heq]

/-- Behind a closing bracket nothing matters. -/
theorem exchange_list {o c : String} (h : Derives best (.list o c) (taken ++ r) r ps)
    (hc : Reader.IsClosing c) (r' : List Token) : Derives best (.list o c) (taken ++ r') r' ps := by
  generalize hrow : taken ++ r = i at h
  cases h with
  | @empty _ _ first last _ ho hlast =>
    obtain rfl : taken = [first, last] := List.append_cancel_right hrow
    exact .empty ho hlast
  | @list _ _ first last between _ _ ho h hlast =>
    obtain ⟨inner, rfl⟩ := h.suffix
    obtain rfl : taken = first :: (inner ++ [last]) := by
      refine List.append_cancel_right (hrow.trans ?_)
      simp
    have hne : last.text ≠ "::" := by
      rcases hc with h | h <;> rw [hlast, h] <;> decide
    have hinner : Derives best .elements (inner ++ last :: r') (last :: r') ps :=
      h.exchange_append trivial (.of_head_ne hne)
    simpa using Derives.list ho hinner hlast

/-- Behind the arguments of a function nothing matters to its name and to them. -/
theorem exchange_call {i m : List Token} {name : Phrase} {args : List Phrase}
    (hname : Derives best .path i m [name]) (hargs : Derives best (.list "(" ")") m r args) :
    ∃ front inner, i = front ++ (inner ++ r) ∧ ∀ r',
      Derives best .path (front ++ (inner ++ r')) (inner ++ r') [name] ∧
        Derives best (.list "(" ")") (inner ++ r') r' args := by
  obtain ⟨front, rfl⟩ := hname.suffix
  obtain ⟨inner, rfl⟩ := hargs.suffix
  refine ⟨front, inner, rfl, fun r' => ?_⟩
  have hargs' := hargs.exchange_list (.inl rfl) r'
  refine ⟨hname.exchange_append trivial ?_, hargs'⟩
  cases inner with
  | nil => exact absurd hargs.length_lt (Nat.lt_irrefl _)
  | cons first inner =>
    obtain ⟨_, _, hrow, hfirst⟩ := Reader.head_of_list hargs
    obtain ⟨rfl, -⟩ := List.cons.inj hrow
    exact .of_head_ne (by rw [hfirst]; decide)

end Derives
end LinkerNames

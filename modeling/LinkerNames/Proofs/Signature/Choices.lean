import LinkerNames.Proofs.Signature.Completeness
/-!
# The best choices lose nothing

Where a row can be derived at all it has a best derivation too. A longest builtin type and a plain
type can be chosen on the spot. A name of the standard library is one type where another
derivation may have two segments, so for a plain type whose tokens begin such a name we only
learn that it is one, and decide where the segment is followed by `::`.
-/

namespace LinkerNames

/-- What must come after a category for a best derivation to end at the same place. -/
def Category.Follow (cat : Category) (rest : List Token) : Prop :=
  match cat with
  | .type | .segment => ∀ t ∈ rest.head?, t.text ∉ builtinWords
  | .list _ closing => Reader.IsClosing closing
  | .generic | .function => True
  | _ => Stops rest

/-- Whether a category is a type, perhaps with arguments. -/
def Category.IsSegment : Category → Prop
  | .type | .segment => True
  | _ => False

theorem standardName_ne : ∀ s ∈ standardNames, s ∉ builtinWords ∧ s ≠ "std" := by
  decide

namespace StandardAhead

/-- What comes after the first token of a name of the standard library. -/
theorem tail {t : Token} {rest : List Token} (h : StandardAhead (t :: rest)) :
    ∃ scope name following, rest = scope :: name :: following ∧ scope.text = "::" ∧
      name.text ∈ standardNames ∧ ∀ u ∈ following.head?, u.text ≠ "::" ∧ u.text ≠ "<" := by
  cases h with
  | mk _ _ hscope _ hname hfollow => exact ⟨_, _, _, rfl, hscope, hname, hfollow⟩

theorem not_of_head {t : Token} {rest : List Token} (h : ∀ u ∈ rest.head?, u.text ≠ "::") :
    ¬ StandardAhead (t :: rest) := by
  intro hs
  obtain ⟨scope, name, following, rfl, hscope, -, -⟩ := hs.tail
  exact h scope rfl hscope

end StandardAhead

namespace Derives

variable {best : Bool} {input rest : List Token} {ps : List Phrase}

/-! ## What can be derived after `std::` -/

theorem rest_of_standardName {name : Token} {following : List Token}
    (h : Derives best .type (name :: following) rest ps) (hname : name.text ∈ standardNames) :
    rest = following := by
  obtain ⟨hword, hstd⟩ := standardName_ne _ hname
  generalize hrow : name :: following = row at h
  cases h with
  | standard hs =>
    cases hs with
    | mk _ hroot =>
      cases hrow
      exact absurd hroot hstd
  | @builtin words _ hw =>
    obtain ⟨w, ws, rfl⟩ := List.exists_cons_of_ne_nil hw.ne_nil
    cases hrow
    exact absurd (Token.isBuiltinWord_iff.1 (hw.isBuiltinWord _ List.mem_cons_self)).2 hword
  | plain =>
    cases hrow
    rfl

theorem rest_of_standardName_segment {name : Token} {following : List Token}
    (h : Derives best .segment (name :: following) rest ps) (hname : name.text ∈ standardNames)
    (hfollow : ∀ u ∈ following.head?, u.text ≠ "::" ∧ u.text ≠ "<") : rest = following := by
  cases h with
  | segment h => exact h.rest_of_standardName hname
  | segmentGeneric h h' =>
    cases h.rest_of_standardName hname
    cases h' with
    | generic h' =>
      obtain ⟨first, m, rfl, hfirst⟩ := Reader.head_of_list h'
      exact absurd hfirst (hfollow first rfl).2

/-- Behind `std::` a name that goes on no further is the last segment. -/
theorem rest_of_standardName_segments {name : Token} {following : List Token}
    (h : Derives best .segments (name :: following) rest ps) (hname : name.text ∈ standardNames)
    (hfollow : ∀ u ∈ following.head?, u.text ≠ "::" ∧ u.text ≠ "<") : rest = following := by
  cases h with
  | last h => exact h.rest_of_standardName_segment hname hfollow
  | scope h hmark =>
    cases h.rest_of_standardName_segment hname hfollow
    exact absurd hmark (hfollow _ rfl).1

/-! ## Shapes -/

theorem eq_singleton_of_path (h : Derives best .path input rest ps) : ∃ p, ps = [p] := by
  cases h
  exact ⟨_, rfl⟩

theorem eq_singleton_of_element (h : Derives best .element input rest ps) : ∃ p, ps = [p] := by
  cases h <;> exact ⟨_, rfl⟩

/-! ## Best derivations -/

theorem exists_best_element (h : Derives true .path input rest ps) :
    ∃ qs, Derives true .element input rest qs := by
  obtain ⟨p, rfl⟩ := h.eq_singleton_of_path
  by_cases hplain : p.IsPlainType
  · obtain ⟨parts, rfl, hparts⟩ := h.exists_segments_of_path
    obtain ⟨t, hchildren, -⟩ := hplain
    cases hchildren
    exact ⟨_, .elementType hparts.type_of_segments_singleton⟩
  · exact ⟨_, .elementPath h fun _ => hplain⟩

/-- Every derivation has a best one beside it that ends at the same place, unless it takes the
`std` of a name of the standard library for a type of its own. -/
theorem exists_best {cat : Category} (h : Derives best cat input rest ps)
    (hfollow : cat.Follow rest) :
    (∃ qs, Derives true cat input rest qs) ∨
      (cat.IsSegment ∧ StandardAhead input ∧ ∃ t, input = t :: rest) := by
  induction h with
  | standard hs => exact .inl ⟨_, .standard hs⟩
  | @builtin words rest hw =>
    refine .inl ⟨_, .builtin hw fun _ more others hne hrest hlonger => ?_⟩
    obtain ⟨t, ts, rfl⟩ := List.exists_cons_of_ne_nil hne
    have ht := hlonger.isBuiltinWord t (by simp)
    exact hfollow t (by rw [hrest]; rfl) (Token.isBuiltinWord_iff.1 ht).2
  | @plain t rest hk hw =>
    by_cases hs : StandardAhead (t :: rest)
    · exact .inr ⟨trivial, hs, t, rfl⟩
    · exact .inl ⟨_, .plain hk hw fun _ => hs⟩
  | generic _ ih =>
    obtain ⟨qs, hq⟩ := (ih (.inr rfl)).resolve_right fun h => h.1
    exact .inl ⟨_, .generic hq⟩
  | segment _ ih =>
    rcases ih hfollow with ⟨qs, hq⟩ | ⟨-, hs, t, ht⟩
    · exact .inl ⟨_, .segment hq⟩
    · exact .inr ⟨trivial, hs, t, ht⟩
  | segmentGeneric _ h' ih ih' =>
    obtain ⟨qs', hq'⟩ := (ih' trivial).resolve_right fun h => h.1
    cases h' with
    | generic h' =>
      obtain ⟨first, m, rfl, hfirst⟩ := Reader.head_of_list h'
      rcases ih (fun t ht => by cases ht; rw [hfirst]; decide) with ⟨qs, hq⟩ | ⟨-, hs, t, rfl⟩
      · exact .inl ⟨_, .segmentGeneric hq hq'⟩
      · refine absurd hs (StandardAhead.not_of_head fun u hu => ?_)
        cases hu
        rw [hfirst]
        decide
  | last h ih =>
    rcases ih (fun t ht => (hfollow t ht).1) with ⟨qs, hq⟩ | ⟨-, hs, t, rfl⟩
    · exact .inl ⟨_, .last hq⟩
    · exact absurd hs (StandardAhead.not_of_head fun u hu => (hfollow u hu).2.1)
  | @scope _ between _ mark _ _ h hmark h' ih ih' =>
    obtain ⟨qs', hq'⟩ := (ih' hfollow).resolve_right fun h => h.1
    rcases ih (fun t ht => by cases ht; rw [hmark]; decide) with ⟨qs, hq⟩ | ⟨-, hs, t, rfl⟩
    · exact .inl ⟨_, .scope hq hmark hq'⟩
    · -- Two segments `std` and `name` are one name of the standard library.
      obtain ⟨scope, name, following, hrow, -, hname, hend⟩ := hs.tail
      cases hrow
      cases h'.rest_of_standardName_segments hname hend
      exact .inl ⟨_, .last (.segment (.standard hs))⟩
  | path _ ih =>
    obtain ⟨qs, hq⟩ := (ih hfollow).resolve_right fun h => h.1
    exact .inl ⟨_, .path hq⟩
  | elementType h ih =>
    rcases ih (fun t ht => (hfollow t ht).1) with ⟨qs, hq⟩ | ⟨-, hs, t, rfl⟩
    · exact .inl (exists_best_element (.path (.last (.segment hq))))
    · exact absurd hs (StandardAhead.not_of_head fun u hu => (hfollow u hu).2.1)
  | elementPath _ _ ih =>
    obtain ⟨qs, hq⟩ := (ih hfollow).resolve_right fun h => h.1
    exact .inl (exists_best_element hq)
  | typedElement _ hm ih =>
    obtain ⟨qs, hq⟩ := (ih (Reader.stops_marks hm hfollow)).resolve_right fun h => h.1
    obtain ⟨e, rfl⟩ := hq.eq_singleton_of_element
    exact .inl ⟨_, .typedElement hq hm⟩
  | single _ ih =>
    obtain ⟨qs, hq⟩ := (ih hfollow).resolve_right fun h => h.1
    exact .inl ⟨_, .single hq⟩
  | comma _ hmark _ ih ih' =>
    obtain ⟨qs, hq⟩ := (ih (Reader.stops_separator (.inr hmark)).1).resolve_right fun h => h.1
    obtain ⟨qs', hq'⟩ := (ih' hfollow).resolve_right fun h => h.1
    exact .inl ⟨_, .comma hq hmark hq'⟩
  | empty ho hc => exact .inl ⟨_, .empty ho hc⟩
  | list ho _ hc ih =>
    obtain ⟨qs, hq⟩ :=
      (ih (Reader.stops_separator (.inl (hc ▸ hfollow))).1).resolve_right fun h => h.1
    exact .inl ⟨_, .list ho hq hc⟩
  | function _ h' ih ih' =>
    obtain ⟨first, m, rfl, hfirst⟩ := Reader.head_of_list h'
    obtain ⟨qs, hq⟩ :=
      (ih (stops_cons (by rw [hfirst]; decide))).resolve_right fun h => h.1
    obtain ⟨qs', hq'⟩ := (ih' (.inl rfl)).resolve_right fun h => h.1
    obtain ⟨name, rfl⟩ := hq.eq_singleton_of_path
    exact .inl ⟨_, .function hq hq'⟩
  | constFunction _ h' hmark ih ih' =>
    obtain ⟨first, m, rfl, hfirst⟩ := Reader.head_of_list h'
    obtain ⟨qs, hq⟩ :=
      (ih (stops_cons (by rw [hfirst]; decide))).resolve_right fun h => h.1
    obtain ⟨qs', hq'⟩ := (ih' (.inl rfl)).resolve_right fun h => h.1
    obtain ⟨name, rfl⟩ := hq.eq_singleton_of_path
    exact .inl ⟨_, .constFunction hq hq' hmark⟩

end Derives
end LinkerNames

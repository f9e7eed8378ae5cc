import LinkerNames.Proofs.Signature.Reading
import LinkerNames.Proofs.Token.Row
import LinkerNames.Signature.Parse
/-!
# What is read is derived

Each reader that succeeds has read a row of its category, and answers the tree of a best
derivation. The readers of lists hold for any reader of paths that does so; the readers of paths
then follow by induction on the turns.
-/

namespace LinkerNames
namespace Reader

variable {α : Type}

/-- What a reader answers is derived from the tokens it takes; `view` is how an answer is a row of
phrases. -/
def Sound (x : Reader α) (cat : Category) (view : α → List Phrase) : Prop :=
  ∀ i fin a c, fin.toLexeme = .finish → x ⟨i, fin⟩ = .ok a c →
    ∃ r, c = ⟨r, fin⟩ ∧ Derives true cat i r (view a)

theorem sound_type : Sound type .type ([·]) :=
  fun _ _ _ _ hfin h => derives_of_type hfin h

/-! ## Marks -/

/-- The marks of the grammar are those that are read. -/
theorem mark?_eq_some_iff {t : Token} {p : Phrase} : mark? t = some p ↔ MarkLeaf t p := by
  constructor
  · intro h
    obtain ⟨rule, hrule, rfl⟩ := Option.map_eq_some_iff.1 h
    unfold markRule? at hrule
    split at hrule
    next hconst => cases hrule; exact .const hconst
    split at hrule
    next hpointer => cases hrule; exact .pointer hpointer
    split at hrule
    next hreference => cases hrule; exact .reference hreference
    cases hrule
  · rintro (h | h | h) <;> rw [mark?, h] <;> rfl

theorem forall₂_filterMap_mark? {ts : List Token} (h : ∀ t ∈ ts, (mark? t).isSome = true) :
    List.Forall₂ MarkLeaf ts (ts.filterMap mark?) := by
  induction ts with
  | nil => exact .nil
  | cons t ts ih =>
    obtain ⟨m, hm⟩ := Option.isSome_iff_exists.1 (h t List.mem_cons_self)
    rw [List.filterMap_cons_some hm]
    exact .cons (mark?_eq_some_iff.1 hm) (ih fun u hu => h u (List.mem_cons_of_mem t hu))

/-- All marks that come next are read. -/
theorem marks_eq (i : List Token) (fin : Token) :
    ∃ ts r, i = ts ++ r ∧ List.Forall₂ MarkLeaf ts (ts.filterMap mark?) ∧
      (∀ t ∈ r.head?, mark? t = none) ∧
      marks ⟨i, fin⟩ = .ok (ts.filterMap mark?) ⟨r, fin⟩ := by
  refine ⟨i.takeWhile fun t => (mark? t).isSome, i.dropWhile fun t => (mark? t).isSome,
    List.takeWhile_append_dropWhile.symm, forall₂_filterMap_mark? fun t ht => ?_, fun t ht => ?_, rfl⟩
  · exact List.all_eq_true.1 List.all_takeWhile t ht
  · have hnot := List.head?_dropWhile_not (fun t => (mark? t).isSome) i
    rw [Option.mem_def.1 ht] at hnot
    simpa using hnot

/-! ## Elements -/

theorem unwrap_of_plain {p t : Phrase} (hp : p.children = [t]) (ht : t.rule = .type) :
    unwrap p = t := by
  rw [unwrap, hp]
  exact if_pos ht

theorem unwrap_of_not_plain {p : Phrase} (h : ¬ p.IsPlainType) : unwrap p = p := by
  unfold unwrap
  split
  next only hp =>
    split
    next ht => exact absurd ⟨only, hp, ht⟩ h
    next => rfl
  next => rfl

section
variable {path : Reader Phrase} (hpath : Sound path .path ([·]))
include hpath

theorem sound_elementWith : Sound (elementWith path) .element ([·]) := by
  intro i fin a c hfin h
  rw [elementWith, EStateM.bind_eq_ok_iff] at h
  obtain ⟨p, c', hp, ha⟩ := h
  obtain ⟨r, rfl, hd⟩ := hpath i fin p c' hfin hp
  cases ha
  refine ⟨r, rfl, ?_⟩
  obtain ⟨parts, rfl, hparts⟩ := hd.exists_segments_of_path
  by_cases hplain : (Phrase.branch .path (rowPlace i) parts).IsPlainType
  · obtain ⟨t, hchildren, ht⟩ := hplain
    rw [unwrap_of_plain hchildren ht]
    change parts = [t] at hchildren
    rw [hchildren] at hparts
    exact .elementType hparts.type_of_segments_singleton
  · rw [unwrap_of_not_plain hplain]
    exact .elementPath hd fun _ => hplain

theorem sound_typedElementWith : Sound (typedElementWith path) .typedElement ([·]) := by
  intro i fin a c hfin h
  rw [typedElementWith, place_bind, EStateM.bind_eq_ok_iff] at h
  obtain ⟨inner, c', hinner, h⟩ := h
  obtain ⟨m, rfl, hd⟩ := sound_elementWith hpath i fin inner c' hfin hinner
  obtain ⟨ts, r, rfl, hts, -, hmarks⟩ := marks_eq m fin
  rw [EStateM.bind_of_ok hmarks] at h
  cases h
  rw [Cursor.peek_place hd.input_ne_nil]
  exact ⟨r, rfl, .typedElement hd hts⟩

/-- The reader of elements takes the closing bracket too. -/
theorem sound_typedElementsWith (closing : String) (turns : Nat) {i : List Token} {fin : Token}
    {es : List Phrase} {c : Cursor} (hfin : fin.toLexeme = .finish)
    (h : typedElementsWith path closing turns ⟨i, fin⟩ = .ok es c) :
    ∃ last r, c = ⟨r, fin⟩ ∧ Derives true .elements i (last :: r) es ∧ last.text = closing := by
  induction turns generalizing i es c with
  | zero => cases h
  | succ turns ih =>
    rw [typedElementsWith, EStateM.bind_eq_ok_iff] at h
    obtain ⟨first, c', hfirst, h⟩ := h
    obtain ⟨m, rfl, hd⟩ := sound_typedElementWith hpath i fin first c' hfin hfirst
    obtain ⟨t, c'', ht, h⟩ := EStateM.bind_eq_ok_iff.1 h
    obtain ⟨r, rfl, hadmits, rfl⟩ := expect_eq_ok_iff.1 ht
    split at h
    next hclosing =>
      cases h
      exact ⟨t, r, rfl, .single hd, hclosing⟩
    next hclosing =>
      obtain ⟨others, c''', hothers, h⟩ := EStateM.bind_eq_ok_iff.1 h
      obtain ⟨last, r', rfl, hd', hlast⟩ := ih hothers
      cases h
      have hcomma : t.text = "," := by simpa [Expected.admits, hclosing] using hadmits
      exact ⟨last, r', rfl, .comma hd hcomma hd', hlast⟩

theorem sound_listWith {opening closing : String} (hclosing : closing ≠ "") (turns : Nat) :
    Sound (listWith path opening closing turns) (.list opening closing) id := by
  intro i fin a c hfin h
  rw [listWith, EStateM.bind_eq_ok_iff] at h
  obtain ⟨first, c', hfirst, h⟩ := h
  obtain ⟨m, rfl, hadmits, rfl⟩ := expect_eq_ok_iff.1 hfirst
  have hopening : first.text = opening := by simpa [Expected.admits] using hadmits
  rw [peek_bind] at h
  split at h
  next ht =>
    obtain ⟨last, r, rfl, hlast⟩ := Cursor.exists_cons_of_peek_text hclosing hfin ht
    cases h
    exact ⟨r, rfl, .empty hopening hlast⟩
  next =>
    obtain ⟨last, r, rfl, hd, hlast⟩ := sound_typedElementsWith hpath closing turns hfin h
    exact ⟨r, rfl, .list hopening hd hlast⟩

theorem sound_genericWith (turns : Nat) : Sound (genericWith path turns) .generic ([·]) := by
  intro i fin a c hfin h
  rw [genericWith, place_bind, EStateM.bind_eq_ok_iff] at h
  obtain ⟨args, c', hargs, h⟩ := h
  obtain ⟨r, rfl, hd⟩ := sound_listWith hpath (by simp) turns i fin args c' hfin hargs
  cases h
  rw [Cursor.peek_place hd.input_ne_nil]
  exact ⟨r, rfl, .generic hd⟩

theorem sound_segmentWith (turns : Nat) : Sound (segmentWith path turns) .segment id := by
  intro i fin a c hfin h
  rw [segmentWith, EStateM.bind_eq_ok_iff] at h
  obtain ⟨head, c', hhead, h⟩ := h
  obtain ⟨m, rfl, hd⟩ := sound_type i fin head c' hfin hhead
  rw [peek_bind] at h
  split at h
  next =>
    obtain ⟨args, c'', hargs, h⟩ := EStateM.bind_eq_ok_iff.1 h
    obtain ⟨r, rfl, hd'⟩ := sound_genericWith hpath turns m fin args c'' hfin hargs
    cases h
    exact ⟨r, rfl, .segmentGeneric hd hd'⟩
  next =>
    cases h
    exact ⟨m, rfl, .segment hd⟩

end

/-! ## Paths -/

theorem sound_pathOf {segments : Reader (List Phrase)} (h : Sound segments .segments id) :
    Sound (pathOf segments) .path ([·]) := by
  intro i fin a c hfin hp
  rw [pathOf, place_bind, EStateM.bind_eq_ok_iff] at hp
  obtain ⟨parts, c', hparts, hp⟩ := hp
  obtain ⟨r, rfl, hd⟩ := h i fin parts c' hfin hparts
  cases hp
  rw [Cursor.peek_place hd.input_ne_nil]
  exact ⟨r, rfl, .path hd⟩

theorem sound_segments (turns : Nat) : Sound (segments turns) .segments id := by
  induction turns with
  | zero =>
    intro i fin a c hfin h
    cases h
  | succ turns ih =>
    intro i fin a c hfin h
    rw [segments, EStateM.bind_eq_ok_iff] at h
    obtain ⟨parts, c', hparts, h⟩ := h
    obtain ⟨m, rfl, hd⟩ := sound_segmentWith (sound_pathOf ih) turns i fin parts c' hfin hparts
    rw [peek_bind] at h
    split at h
    next ht =>
      obtain ⟨mark, between, rfl, hmark⟩ :=
        Cursor.exists_cons_of_peek_text (by simp) hfin ht
      rw [next_bind_cons] at h
      obtain ⟨others, c'', hothers, h⟩ := EStateM.bind_eq_ok_iff.1 h
      obtain ⟨r, rfl, hd'⟩ := ih between fin others c'' hfin hothers
      cases h
      exact ⟨r, rfl, .scope hd hmark hd'⟩
    next =>
      cases h
      exact ⟨m, rfl, .last hd⟩

theorem sound_path : Sound path .path ([·]) :=
  sound_pathOf fun i fin a c hfin h => sound_segments _ i fin a c hfin h

/-! ## Functions -/

/-- What is read as a function is its name and its arguments, and a `const` if there is one. -/
theorem function_eq_ok {i : List Token} {fin : Token} {p : Phrase} {c : Cursor}
    (hfin : fin.toLexeme = .finish) (h : function ⟨i, fin⟩ = .ok p c) :
    ∃ name args m m' r, c = ⟨r, fin⟩ ∧ Derives true .path i m [name] ∧
      Derives true (.list "(" ")") m m' args ∧
      (m' = r ∧ (Cursor.peek ⟨r, fin⟩).text ≠ "const" ∧
          p = .branch .function (rowPlace i) (name :: args) ∨
        ∃ mark, m' = mark :: r ∧ mark.text = "const" ∧
          p = .branch .function (rowPlace i) (name :: args ++ [.leaf .const mark])) := by
  rw [function, place_bind, EStateM.bind_eq_ok_iff] at h
  obtain ⟨name, c₁, hname, h⟩ := h
  obtain ⟨m, rfl, hd⟩ := sound_path i fin name c₁ hfin hname
  obtain ⟨args, c₂, hargs, h⟩ := EStateM.bind_eq_ok_iff.1 h
  obtain ⟨m', rfl, hd'⟩ := sound_listWith sound_path (by simp) _ m fin args c₂ hfin hargs
  obtain ⟨after, c₃, hafter, h⟩ := EStateM.bind_eq_ok_iff.1 h
  rw [trailingConst, peek_bind] at hafter
  rw [Cursor.peek_place hd.input_ne_nil] at h
  split at hafter
  next ht =>
    obtain ⟨mark, r, rfl, hmark⟩ := Cursor.exists_cons_of_peek_text (by simp) hfin ht
    cases hafter
    cases h
    exact ⟨name, args, m, _, r, rfl, hd, hd', .inr ⟨mark, rfl, hmark, rfl⟩⟩
  next ht =>
    cases hafter
    cases h
    rw [List.append_nil]
    exact ⟨name, args, m, m', m', rfl, hd, hd', .inl ⟨rfl, ht, rfl⟩⟩

theorem sound_function : Sound function .function ([·]) := by
  intro i fin a c hfin h
  obtain ⟨name, args, m, m', r, rfl, hname, hargs, ⟨rfl, -, rfl⟩ | ⟨mark, rfl, hmark, rfl⟩⟩ :=
    function_eq_ok hfin h
  · exact ⟨m', rfl, .function hname hargs⟩
  · exact ⟨r, rfl, .constFunction hname hargs hmark⟩

end Reader

/-! ## Whole texts -/

theorem signature_eq_ok_iff {i : List Token} {fin : Token} {p : Phrase} {c : Cursor} :
    Reader.signature ⟨i, fin⟩ = .ok p c ↔
      ∃ c' t, Reader.function ⟨i, fin⟩ = .ok p c' ∧
        Reader.expect [.kind .endOfInput] c' = .ok t c := by
  rw [Reader.signature, EStateM.bind_eq_ok_iff]
  constructor
  · rintro ⟨p', c', hp, h⟩
    obtain ⟨t, c'', ht, h⟩ := EStateM.bind_eq_ok_iff.1 h
    cases h
    exact ⟨c', t, hp, ht⟩
  · rintro ⟨c', t, hp, ht⟩
    refine ⟨p, c', hp, ?_⟩
    rw [EStateM.bind_of_ok ht]
    rfl

variable {last : Token}

/-- The token that ends the input is the last one of a row. -/
theorem eq_singleton_of_finish {row m : List Token} {t : Token}
    (hrow : ∀ u ∈ row, u.kind ≠ .endOfInput) (ht : t.kind = .endOfInput)
    (h : t :: m <:+ row ++ [last]) : t :: m = [last] := by
  obtain ⟨before, h⟩ := h
  rcases List.append_eq_append_iff.1 h with ⟨after, rfl, hafter⟩ | ⟨after, hafter, hlast⟩
  · cases after with
    | nil => exact hafter
    | cons u us =>
      obtain rfl : t = u := (List.cons.inj hafter).1
      exact absurd ht (hrow t (by simp))
  · cases after with
    | nil => exact hlast.symm
    | cons u us => simp at hlast

theorem parse_eq_ok_iff_signature {text : String} {p : Phrase} :
    parse text = .ok p ↔ ∃ c, Reader.signature (Cursor.ofText text) = .ok p c := by
  unfold parse
  split
  next h => simp [h]
  next h => simp [h]
  next h => simp [h]

/-- What a text is read as is derived from all of its tokens but the end of the input. -/
theorem derives_of_parse {text : String} {row : List Token} {p : Phrase}
    (htokens : tokens text = row ++ [last]) (hlast : last.toLexeme = .finish)
    (hrow : ∀ t ∈ row, t.kind ≠ .endOfInput) (h : parse text = .ok p) :
    Derives true .function (row ++ [last]) [last] [p] := by
  rw [parse_eq_ok_iff_signature, ofText_eq text htokens] at h
  obtain ⟨c, h⟩ := h
  obtain ⟨c', t, hp, ht⟩ := signature_eq_ok_iff.1 h
  obtain ⟨r, rfl, hd⟩ := Reader.sound_function _ _ p c' hlast hp
  obtain ⟨m, rfl, hadmits, -⟩ := Reader.expect_eq_ok_iff.1 ht
  have hend : t.kind = .endOfInput := by simpa [Expected.admits] using hadmits
  have hr := eq_singleton_of_finish hrow hend hd.suffix
  rwa [hr] at hd

end LinkerNames

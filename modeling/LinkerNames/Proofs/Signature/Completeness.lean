import LinkerNames.Proofs.Signature.Soundness
/-!
# What is derived is read

The readers read each row that has a best derivation, as far as the derivation goes. They go on
while they can, so what follows must not look like more of the same: that is `EndsAfter` for paths,
and `Stops` where a derivation need not be a best one. A bound on the turns that is above the number
of tokens ahead is never reached.
-/

namespace LinkerNames

/-- No path and no element goes on with these tokens. -/
def Stops (rest : List Token) : Prop :=
  ∀ t ∈ rest.head?, t.text ∉ builtinWords ∧ t.text ≠ "::" ∧ t.text ≠ "<"

/-- No path goes on with these tokens. -/
def Ends (rest : List Token) : Prop :=
  ∀ t ∈ rest.head?, t.text ≠ "::" ∧ t.text ≠ "<"

theorem Stops.ends {rest : List Token} (h : Stops rest) : Ends rest :=
  fun t ht => (h t ht).2

/-- A path with these parts does not go on with these tokens. Behind template arguments there are
not any more of them, so there a bracket may stand. -/
def EndsAfter (parts : List Phrase) (rest : List Token) : Prop :=
  ∀ t ∈ rest.head?, t.text ≠ "::" ∧
    (t.text = "<" → ∃ front args, parts = front ++ [args] ∧ args.rule = .generic)

theorem Ends.after {rest : List Token} (h : Ends rest) (parts : List Phrase) :
    EndsAfter parts rest :=
  fun t ht => ⟨(h t ht).1, fun hopening => absurd hopening (h t ht).2⟩

theorem EndsAfter.append {others : List Phrase} {rest : List Token} (h : EndsAfter others rest)
    (parts : List Phrase) : EndsAfter (parts ++ others) rest := by
  refine fun t ht => ⟨(h t ht).1, fun hopening => ?_⟩
  obtain ⟨front, args, rfl, hrule⟩ := (h t ht).2 hopening
  exact ⟨parts ++ front, args, (List.append_assoc ..).symm, hrule⟩

theorem EndsAfter.of_append {parts others : List Phrase} {rest : List Token}
    (h : EndsAfter (parts ++ others) rest) (hne : others ≠ []) : EndsAfter others rest := by
  refine fun t ht => ⟨(h t ht).1, fun hopening => ?_⟩
  obtain ⟨front, args, heq, hrule⟩ := (h t ht).2 hopening
  rw [← List.dropLast_concat_getLast hne, ← List.append_assoc] at heq
  obtain ⟨-, hlast⟩ := List.append_inj' heq rfl
  refine ⟨others.dropLast, others.getLast hne, (List.dropLast_concat_getLast hne).symm, ?_⟩
  rw [List.singleton_inj.1 hlast, hrule]

theorem stops_cons {t : Token} {rest : List Token}
    (h : t.text ∉ builtinWords ∧ t.text ≠ "::" ∧ t.text ≠ "<") : Stops (t :: rest) := by
  intro u hu
  cases hu
  exact h

namespace Reader

variable {i r : List Token} {fin : Token}

/-- The texts of marks. -/
theorem text_of_markLeaf {t : Token} {m : Phrase} (h : MarkLeaf t m) :
    t.text = "const" ∨ t.text = "*" ∨ t.text = "&" := by
  cases h with
  | const h => exact .inl h
  | pointer h => exact .inr (.inl h)
  | reference h => exact .inr (.inr h)

theorem stops_marks {marks rest : List Token} {after : List Phrase}
    (hm : List.Forall₂ MarkLeaf marks after) (hrest : Stops rest) : Stops (marks ++ rest) := by
  cases hm with
  | nil => exact hrest
  | cons hmark _ =>
    apply stops_cons
    rcases text_of_markLeaf hmark with h | h | h <;> rw [h] <;> decide

theorem ends_marks {marks rest : List Token} {after : List Phrase}
    (hm : List.Forall₂ MarkLeaf marks after) (hrest : Ends rest) : Ends (marks ++ rest) := by
  cases marks with
  | nil => exact hrest
  | cons t ts =>
    have hstops : Stops (t :: ts ++ []) := stops_marks hm nofun
    exact fun u hu => hstops.ends u hu

/-- A single type has no template arguments, so none may follow it. -/
theorem not_opening_of_type {t : Phrase} (ht : t.rule = .type) (h : ∀ u ∈ r.head?, u.text = "<" →
    ∃ front args, [t] = front ++ [args] ∧ args.rule = Rule.generic) :
    ∀ u ∈ r.head?, u.text ≠ "<" := by
  intro u hu hopening
  obtain ⟨front, args, heq, hrule⟩ := h u hu hopening
  have hlast : t = args := by simpa using congrArg List.getLast? heq
  rw [← hlast, ht] at hrule
  cases hrule

theorem marks_of_derives {ts : List Token} {after : List Phrase}
    (hts : List.Forall₂ MarkLeaf ts after) (hr : ∀ t ∈ r.head?, mark? t = none) :
    marks ⟨ts ++ r, fin⟩ = .ok after ⟨r, fin⟩ := by
  have hread : (∀ t ∈ ts, (mark? t).isSome = true) ∧ ts.filterMap mark? = after := by
    clear hr
    induction hts with
    | nil => exact ⟨by simp, rfl⟩
    | cons hmark _ ih =>
      have hsome := mark?_eq_some_iff.2 hmark
      rw [List.filterMap_cons_some hsome, ih.2]
      exact ⟨List.forall_mem_cons.2 ⟨by rw [hsome]; rfl, ih.1⟩, rfl⟩
  have htake : r.takeWhile (fun t => (mark? t).isSome) = [] ∧
      r.dropWhile (fun t => (mark? t).isSome) = r := by
    cases r with
    | nil => exact ⟨rfl, rfl⟩
    | cons t m => simp [hr t rfl]
  have hmarks : marks ⟨ts ++ r, fin⟩ =
      .ok (((ts ++ r).takeWhile fun t => (mark? t).isSome).filterMap mark?)
        ⟨(ts ++ r).dropWhile fun t => (mark? t).isSome, fin⟩ := rfl
  rw [hmarks, List.takeWhile_append_of_pos hread.1, List.dropWhile_append_of_pos hread.1, htake.1,
    htake.2, List.append_nil, hread.2]

/-- The brackets that close a list. -/
def IsClosing (closing : String) : Prop :=
  closing = ")" ∨ closing = ">"

/-- Behind an element of a list nothing looks like more of it. -/
theorem stops_separator {t : Token} (h : IsClosing t.text ∨ t.text = ",") :
    Stops (t :: r) ∧ ∀ u ∈ (t :: r).head?, mark? u = none := by
  have hnone {s : String} (hs : markRule? s = none) (ht : t.text = s) : mark? t = none := by
    rw [mark?, ht, hs, Option.map_none]
  have hall : Stops (t :: r) ∧ mark? t = none := by
    rcases h with (h | h) | h
    · exact ⟨stops_cons (by rw [h]; decide), hnone (by decide) h⟩
    · exact ⟨stops_cons (by rw [h]; decide), hnone (by decide) h⟩
    · exact ⟨stops_cons (by rw [h]; decide), hnone (by decide) h⟩
  refine ⟨hall.1, fun u hu => ?_⟩
  cases hu
  exact hall.2

/-- The first token of an element does not close a list. -/
theorem head_ne_closing {closing : String} (hc : IsClosing closing) (hi : Named i) {best : Bool}
    {es : List Phrase} (h : Derives best .elements i r es) :
    (Cursor.peek ⟨i, fin⟩).text ≠ closing := by
  obtain ⟨t, m, rfl, hk⟩ := h.exists_identifier trivial
  refine (hi t List.mem_cons_self hk).1.ne ?_
  rcases hc with rfl | rfl <;> decide

/-- A reader reads the paths of less than `n` tokens. -/
def ReadsPaths (path : Reader Phrase) (n : Nat) : Prop :=
  ∀ i r p fin, fin.toLexeme = .finish → Named i → i.length < n → Derives true .path i r [p] →
    EndsAfter p.children r → path ⟨i, fin⟩ = .ok p ⟨r, fin⟩

section
variable {path : Reader Phrase} {n : Nat} (hpath : ReadsPaths path n)
include hpath

theorem elementWith_of_derives (hfin : fin.toLexeme = .finish) (hi : Named i) (hn : i.length < n)
    {e : Phrase} (h : Derives true .element i r [e]) (hr : Ends r) :
    elementWith path ⟨i, fin⟩ = .ok e ⟨r, fin⟩ := by
  cases h with
  | @elementType _ _ t h =>
    have hp := hpath i r _ fin hfin hi hn (.path (.last (.segment h))) (hr.after _)
    have ht : t.rule = .type := by
      obtain ⟨place, words, ht⟩ := h.eq_singleton_of_type
      rw [List.singleton_inj] at ht
      rw [ht]
      rfl
    rw [elementWith, EStateM.bind_of_ok hp, unwrap_of_plain rfl ht]
    rfl
  | elementPath h hplain =>
    have hp := hpath i r _ fin hfin hi hn h (hr.after _)
    obtain ⟨parts, rfl, -⟩ := h.exists_segments_of_path
    rw [elementWith, EStateM.bind_of_ok hp, unwrap_of_not_plain (hplain rfl)]
    rfl

theorem typedElementWith_of_derives (hfin : fin.toLexeme = .finish) (hi : Named i)
    (hn : i.length < n) {es : List Phrase} (h : Derives true .typedElement i r es) (hr : Ends r)
    (hmark : ∀ t ∈ r.head?, mark? t = none) :
    ∃ e, es = [e] ∧ typedElementWith path ⟨i, fin⟩ = .ok e ⟨r, fin⟩ := by
  cases h with
  | typedElement h hm =>
    refine ⟨_, rfl, ?_⟩
    rw [typedElementWith, place_bind,
      EStateM.bind_of_ok (elementWith_of_derives hpath hfin hi hn h (ends_marks hm hr)),
      EStateM.bind_of_ok (marks_of_derives hm hmark), Cursor.peek_place h.input_ne_nil]
    rfl

theorem typedElementsWith_of_derives {closing : String} (hc : IsClosing closing) {turns : Nat}
    (hfin : fin.toLexeme = .finish) (hi : Named i) (hn : i.length < n) (hturns : i.length ≤ turns)
    {last : Token} {es : List Phrase} (h : Derives true .elements i (last :: r) es)
    (hlast : last.text = closing) :
    typedElementsWith path closing turns ⟨i, fin⟩ = .ok es ⟨r, fin⟩ := by
  induction turns generalizing i es with
  | zero => exact absurd (List.length_eq_zero_iff.1 (Nat.le_zero.1 hturns)) h.input_ne_nil
  | succ turns ih =>
    cases h with
    | single h =>
      obtain ⟨hstops, hmark⟩ := stops_separator (r := r) (.inl (hlast ▸ hc))
      obtain ⟨e, rfl, he⟩ := typedElementWith_of_derives hpath hfin hi hn h hstops.ends hmark
      have hadmits : [Expected.text ",", .text closing].any (·.admits last) = true := by
        simp [Expected.admits, hlast]
      rw [typedElementsWith, EStateM.bind_of_ok he, EStateM.bind_of_ok (expect_cons hadmits),
        if_pos hlast]
      rfl
    | @comma _ between _ mark _ others h hcomma h' =>
      obtain ⟨hstops, hmark⟩ := stops_separator (t := mark) (r := between) (.inr hcomma)
      obtain ⟨e, rfl, he⟩ := typedElementWith_of_derives hpath hfin hi hn h hstops.ends hmark
      have hadmits : [Expected.text ",", .text closing].any (·.admits mark) = true := by
        simp [Expected.admits, hcomma]
      have hclosing : mark.text ≠ closing := by
        rcases hc with rfl | rfl <;> rw [hcomma] <;> decide
      have hsuffix := h.suffix
      have hlt := h.length_lt
      simp only [List.length_cons] at hlt
      have hothers := ih (i := between) (hi.mono fun t ht => hsuffix.subset (by simp [ht]))
        (by omega) (by omega) h'
      rw [typedElementsWith, EStateM.bind_of_ok he, EStateM.bind_of_ok (expect_cons hadmits),
        if_neg hclosing, EStateM.bind_of_ok hothers]
      rfl

theorem listWith_of_derives {opening closing : String} (hc : IsClosing closing) {turns : Nat}
    (hfin : fin.toLexeme = .finish) (hi : Named i) (hn : i.length ≤ n) (hturns : i.length ≤ turns)
    {es : List Phrase} (h : Derives true (.list opening closing) i r es) :
    listWith path opening closing turns ⟨i, fin⟩ = .ok es ⟨r, fin⟩ := by
  cases h with
  | empty hopening hlast =>
    rw [listWith, EStateM.bind_of_ok (expect_cons (by simp [Expected.admits, hopening])),
      peek_bind, Cursor.peek_cons, if_pos hlast]
    rfl
  | list hopening h hlast =>
    have hi' := hi.mono (List.subset_cons_self _ _)
    simp only [List.length_cons] at hn hturns
    rw [listWith, EStateM.bind_of_ok (expect_cons (by simp [Expected.admits, hopening])),
      peek_bind, if_neg (head_ne_closing hc hi' h)]
    exact typedElementsWith_of_derives hpath hc hfin hi' hn (by omega) h hlast

theorem genericWith_of_derives {turns : Nat} (hfin : fin.toLexeme = .finish) (hi : Named i)
    (hn : i.length ≤ n) (hturns : i.length ≤ turns) {p : Phrase}
    (h : Derives true .generic i r [p]) :
    genericWith path turns ⟨i, fin⟩ = .ok p ⟨r, fin⟩ := by
  cases h with
  | generic h =>
    rw [genericWith, place_bind,
      EStateM.bind_of_ok (listWith_of_derives hpath (.inr rfl) hfin hi hn hturns h),
      Cursor.peek_place h.input_ne_nil]
    rfl

theorem segmentWith_of_derives {turns : Nat} (hfin : fin.toLexeme = .finish) (hi : Named i)
    (hn : i.length ≤ n) (hturns : i.length ≤ turns) {parts : List Phrase}
    (h : Derives true .segment i r parts) (hr : ∀ t ∈ r.head?, t.text = "<" →
      ∃ front args, parts = front ++ [args] ∧ args.rule = Rule.generic) :
    segmentWith path turns ⟨i, fin⟩ = .ok parts ⟨r, fin⟩ := by
  cases h with
  | segment h =>
    obtain ⟨head, rfl, hhead⟩ := type_of_derives hfin h
    obtain ⟨place, words, hbranch⟩ := h.eq_singleton_of_type
    have hopening := not_opening_of_type (List.singleton_inj.1 hbranch ▸ rfl) hr
    rw [segmentWith, EStateM.bind_of_ok hhead, peek_bind,
      if_neg (Cursor.peek_text_ne (by simp) hfin hopening)]
    rfl
  | @segmentGeneric _ between _ _ _ h h' =>
    obtain ⟨head, rfl, hhead⟩ := type_of_derives hfin h
    have hlt := h.length_lt
    have hi' := hi.mono h.suffix.subset
    have hopening : (Cursor.peek ⟨between, fin⟩).text = "<" := by
      cases h' with
      | generic h' => cases h' <;> assumption
    cases h' with
    | generic h'' =>
      have hgeneric : genericWith path turns ⟨between, fin⟩ = .ok _ ⟨r, fin⟩ :=
        genericWith_of_derives hpath hfin hi' (by omega) (by omega) (.generic h'')
      rw [segmentWith, EStateM.bind_of_ok hhead, peek_bind, if_pos hopening,
        EStateM.bind_of_ok hgeneric]
      rfl

end

/-! ## Paths -/

theorem readsPaths_pathOf {segments : Reader (List Phrase)} {n : Nat}
    (h : ∀ i r parts fin, fin.toLexeme = .finish → Named i → i.length < n →
      Derives true .segments i r parts → EndsAfter parts r →
      segments ⟨i, fin⟩ = .ok parts ⟨r, fin⟩) :
    ReadsPaths (pathOf segments) n := by
  intro i r p fin hfin hi hn hp hr
  obtain ⟨parts, rfl, hparts⟩ := hp.exists_segments_of_path
  rw [pathOf, place_bind, EStateM.bind_of_ok (h i r parts fin hfin hi hn hparts hr),
    Cursor.peek_place hp.input_ne_nil]
  rfl

theorem segments_of_derives (n : Nat) : ∀ i r parts fin, fin.toLexeme = .finish → Named i →
    i.length < n → Derives true .segments i r parts → EndsAfter parts r →
    segments n ⟨i, fin⟩ = .ok parts ⟨r, fin⟩ := by
  induction n with
  | zero => exact fun _ _ _ _ _ _ hn => absurd hn (Nat.not_lt_zero _)
  | succ n ih =>
    intro i r parts fin hfin hi hn h hr
    have hpath := readsPaths_pathOf ih
    have hscope : (Cursor.peek ⟨r, fin⟩).text ≠ "::" :=
      Cursor.peek_text_ne (by simp) hfin fun t ht => (hr t ht).1
    -- Each segment takes a token, so the turns that are left are enough for the others.
    cases h with
    | last h =>
      have hparts := segmentWith_of_derives hpath hfin hi (Nat.le_of_lt_succ hn)
        (Nat.le_of_lt_succ hn) h fun t ht => (hr t ht).2
      rw [segments, EStateM.bind_of_ok hparts, peek_bind, if_neg hscope]
      rfl
    | @scope _ between _ mark _ _ h hmark h' =>
      have hparts := segmentWith_of_derives hpath hfin hi (Nat.le_of_lt_succ hn)
        (Nat.le_of_lt_succ hn) h fun t ht => by cases ht; rw [hmark]; simp
      have hlt := h.length_lt
      simp only [List.length_cons] at hlt
      have hi' := hi.mono fun t ht => h.suffix.subset (List.mem_cons_of_mem mark ht)
      rw [segments, EStateM.bind_of_ok hparts, peek_bind, Cursor.peek_cons, if_pos hmark,
        next_bind_cons, EStateM.bind_of_ok
          (ih _ _ _ _ hfin hi' (by omega) h' (hr.of_append h'.ne_nil_of_segments))]
      rfl

theorem readsPaths_path (n : Nat) : ReadsPaths path n :=
  readsPaths_pathOf fun i r parts fin hfin hi _ h hr =>
    segments_of_derives (i.length + 1) i r parts fin hfin hi (Nat.lt_succ_self _) h hr

/-! ## Functions -/

theorem head_of_list {best : Bool} {opening closing : String} {es : List Phrase}
    (h : Derives best (.list opening closing) i r es) :
    ∃ first m, i = first :: m ∧ first.text = opening := by
  cases h with
  | empty hopening | list hopening => exact ⟨_, _, rfl, hopening⟩

/-- Behind its name and its arguments a function may have a `const`. -/
theorem function_of_parts (hfin : fin.toLexeme = .finish) (hi : Named i) {m : List Token}
    {name : Phrase} {args : List Phrase} (h : Derives true .path i m [name])
    (h' : Derives true (.list "(" ")") m r args) :
    function ⟨i, fin⟩ = (trailingConst >>= fun after =>
      pure (.branch .function (rowPlace i) (name :: args ++ after))) ⟨r, fin⟩ := by
  obtain ⟨first, m, rfl, hfirst⟩ := head_of_list h'
  have hpath : path ⟨i, fin⟩ = .ok name ⟨first :: m, fin⟩ :=
    readsPaths_path _ i _ name fin hfin hi (Nat.lt_succ_self _) h
      ((stops_cons (by rw [hfirst]; decide)).ends.after _)
  have hlist : list "(" ")" ⟨first :: m, fin⟩ = .ok args ⟨r, fin⟩ :=
    listWith_of_derives (readsPaths_path _) (.inl rfl) hfin (hi.mono h.suffix.subset)
      (Nat.le_refl _) (Nat.le_succ _) h'
  rw [function, place_bind, EStateM.bind_of_ok hpath, EStateM.bind_of_ok hlist,
    Cursor.peek_place h.input_ne_nil]

theorem trailingConst_cons {mark : Token} (hmark : mark.text = "const") :
    trailingConst ⟨mark :: r, fin⟩ = .ok [.leaf .const mark] ⟨r, fin⟩ := by
  rw [trailingConst, peek_bind, Cursor.peek_cons, if_pos hmark]
  rfl

theorem trailingConst_of_ne {c : Cursor} (h : c.peek.text ≠ "const") :
    trailingConst c = .ok [] c := by
  rw [trailingConst, peek_bind, if_neg h]
  rfl

theorem function_of_derives (hfin : fin.toLexeme = .finish) (hi : Named i) {p : Phrase}
    (h : Derives true .function i r [p]) (hr : ∀ t ∈ r.head?, t.text ≠ "const") :
    function ⟨i, fin⟩ = .ok p ⟨r, fin⟩ := by
  cases h with
  | function h h' =>
    have hafter : (Cursor.peek ⟨r, fin⟩).text ≠ "const" := Cursor.peek_text_ne (by simp) hfin hr
    rw [function_of_parts hfin hi h h', EStateM.bind_of_ok (trailingConst_of_ne hafter)]
    simp
  | constFunction h h' hmark =>
    rw [function_of_parts hfin hi h h', EStateM.bind_of_ok (trailingConst_cons hmark)]
    rfl

end Reader
end LinkerNames

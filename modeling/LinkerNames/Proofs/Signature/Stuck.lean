import LinkerNames.Proofs.Signature.Completeness
/-!
# Where a reader gets stuck

A row of tokens that cannot be read on from a place is stuck there: what stands before is the
beginning of an item of the notation, and the next token cannot go on with it. `Stuck` lists the
places inside each item where that can be, with what could have come next. We prove that a reader
that refuses is stuck where it refuses, in the same way in which readers that answer are sound.
-/

namespace LinkerNames

/-- What can be read in part: the segments of a path, the typed elements of a list with the closing
bracket after them, and a signature with the end of the input. -/
inductive Item
  | segments
  | elements (closing : String)
  | signature

/-- Reading an item from the first row is stuck before the second, where one of these could have
come next. Where no token is ahead there is `fin`. -/
inductive Stuck (fin : Token) : Item → List Token → List Token → List Expected → Prop
  | name {r : List Token} : (Cursor.peek ⟨r, fin⟩).kind ≠ .identifier →
    Stuck fin .segments r r [.kind .identifier]
  | arguments {i m r : List Token} {first : Token} {head : List Phrase} {es : List Expected} :
    Derives true .type i (first :: m) head → first.text = "<" →
    (Cursor.peek ⟨m, fin⟩).text ≠ ">" → Stuck fin (.elements ">") m r es →
    Stuck fin .segments i r es
  | scope {i m r : List Token} {mark : Token} {parts : List Phrase} {es : List Expected} :
    Derives true .segment i (mark :: m) parts → mark.text = "::" → Stuck fin .segments m r es →
    Stuck fin .segments i r es
  | element {closing : String} {i r : List Token} {es : List Expected} :
    Reader.IsClosing closing → Stuck fin .segments i r es → Stuck fin (.elements closing) i r es
  | separator {closing : String} {i marks r : List Token} {p : Phrase} {after : List Phrase} :
    Reader.IsClosing closing → Derives true .path i (marks ++ r) [p] →
    EndsAfter p.children (marks ++ r) → List.Forall₂ MarkLeaf marks after →
    (∀ t ∈ r.head?, Reader.mark? t = none) → (Cursor.peek ⟨r, fin⟩).text ≠ "," →
    (Cursor.peek ⟨r, fin⟩).text ≠ closing →
    Stuck fin (.elements closing) i r [.text ",", .text closing]
  | comma {closing : String} {i m r : List Token} {mark : Token} {ps : List Phrase}
    {es : List Expected} :
    Reader.IsClosing closing → Derives true .typedElement i (mark :: m) ps → mark.text = "," →
    Stuck fin (.elements closing) m r es → Stuck fin (.elements closing) i r es
  | callee {i r : List Token} {es : List Expected} : Stuck fin .segments i r es →
    Stuck fin .signature i r es
  | opening {i r : List Token} {name : Phrase} : Derives true .path i r [name] →
    EndsAfter name.children r → (Cursor.peek ⟨r, fin⟩).text ≠ "(" →
    Stuck fin .signature i r [.text "("]
  | parameters {i m r : List Token} {first : Token} {name : Phrase} {es : List Expected} :
    Derives true .path i (first :: m) [name] → first.text = "(" →
    (Cursor.peek ⟨m, fin⟩).text ≠ ")" → Stuck fin (.elements ")") m r es →
    Stuck fin .signature i r es
  | finish {i m r : List Token} {name : Phrase} {args : List Phrase} :
    Derives true .path i m [name] → Derives true (.list "(" ")") m r args →
    (Cursor.peek ⟨r, fin⟩).text ≠ "const" → (Cursor.peek ⟨r, fin⟩).kind ≠ .endOfInput →
    Stuck fin .signature i r [.kind .endOfInput]
  | finishConst {i m r : List Token} {mark : Token} {name : Phrase} {args : List Phrase} :
    Derives true .path i m [name] → Derives true (.list "(" ")") m (mark :: r) args →
    mark.text = "const" → (Cursor.peek ⟨r, fin⟩).kind ≠ .endOfInput →
    Stuck fin .signature i r [.kind .endOfInput]

namespace Stuck

variable {fin : Token} {item : Item} {i r : List Token} {es : List Expected}

theorem suffix (h : Stuck fin item i r es) : r <:+ i := by
  induction h with
  | name => exact List.suffix_refl _
  | arguments h _ _ _ ih | scope h _ _ ih | comma _ h _ _ ih | parameters h _ _ _ ih =>
    exact ih.trans ((List.suffix_cons _ _).trans h.suffix)
  | element _ _ ih | callee _ ih => exact ih
  | separator _ h => exact (List.suffix_append _ _).trans h.suffix
  | opening h => exact h.suffix
  | finish h h' => exact h'.suffix.trans h.suffix
  | finishConst h h' => exact (List.suffix_cons _ _).trans (h'.suffix.trans h.suffix)

/-- Where segments are stuck at once there is no name. -/
theorem kind_ne (h : Stuck fin .segments r r es) :
    (Cursor.peek ⟨r, fin⟩).kind ≠ .identifier := by
  cases h with
  | name h => exact h
  | arguments h _ _ h' | scope h _ h' =>
    have hlt := h.length_lt
    have hle := h'.suffix.length_le
    rw [List.length_cons] at hlt
    omega

/-- Something is always expected. -/
theorem expected_ne_nil (h : Stuck fin item i r es) : es ≠ [] := by
  induction h with
  | name | separator | opening | finish | finishConst => exact List.cons_ne_nil _ _
  | arguments _ _ _ _ ih | scope _ _ _ ih | element _ _ ih | comma _ _ _ _ ih | callee _ ih
  | parameters _ _ _ _ ih => exact ih

end Stuck

namespace Reader

variable {α : Type} {i r : List Token} {fin : Token}

/-- Where the reader refuses, reading the item is stuck. -/
def Sticks (x : Reader α) (item : Item) (i : List Token) (fin : Token) : Prop :=
  ∀ e c, x ⟨i, fin⟩ = .error e c → ∃ r es, c = ⟨r, fin⟩ ∧
    e = .unexpected (Cursor.peek ⟨r, fin⟩) es ∧ Stuck fin item i r es

/-! ## Types and lists -/

theorem type_eq_error (hfin : fin.toLexeme = .finish) {e : Fault} {c : Cursor}
    (h : type ⟨i, fin⟩ = .error e c) : c = ⟨i, fin⟩ ∧
      e = .unexpected (Cursor.peek ⟨i, fin⟩) [.kind .identifier] ∧
      (Cursor.peek ⟨i, fin⟩).kind ≠ .identifier := by
  rcases type_cases hfin i with ⟨p, r, hp, -⟩ | ⟨hk, herr⟩
  · rw [hp] at h
    cases h
  · rw [herr] at h
    cases h
    exact ⟨rfl, rfl, hk⟩

/-- What is expected and does not come is refused, if it is not the end of the input. -/
theorem expect_eq_error {es : List Expected} {c c' : Cursor} {e : Fault}
    (hes : es.any (·.admits c.finish) = false) (h : expect es c = .error e c') :
    c' = c ∧ e = .unexpected c.peek es ∧ es.any (·.admits c.peek) = false := by
  obtain ⟨i, fin⟩ := c
  cases hany : es.any (·.admits (Cursor.peek ⟨i, fin⟩)) with
  | true =>
    cases i with
    | nil =>
      rw [Cursor.peek_nil, hes] at hany
      cases hany
    | cons t m =>
      rw [Cursor.peek_cons] at hany
      rw [expect_cons hany] at h
      cases h
  | false =>
    rw [expect_of_not_admits (by simp [hany])] at h
    cases h
    exact ⟨rfl, rfl, rfl⟩

/-- A list is refused at its first bracket, or inside. -/
theorem listWith_eq_error {path : Reader Phrase} {opening closing : String} {turns : Nat}
    (hopening : opening ≠ "") (hclosing : closing ≠ "") (hfin : fin.toLexeme = .finish) {e : Fault}
    {c : Cursor} (h : listWith path opening closing turns ⟨i, fin⟩ = .error e c) :
    (c = ⟨i, fin⟩ ∧ e = .unexpected (Cursor.peek ⟨i, fin⟩) [.text opening] ∧
        (Cursor.peek ⟨i, fin⟩).text ≠ opening) ∨
      ∃ first m, i = first :: m ∧ first.text = opening ∧
        (Cursor.peek ⟨m, fin⟩).text ≠ closing ∧
        typedElementsWith path closing turns ⟨m, fin⟩ = .error e c := by
  have hes : [Expected.text opening].any (·.admits fin) = false := by
    simp [Expected.admits, hfin, Lexeme.finish, hopening.symm]
  rw [listWith, EStateM.bind_eq_error_iff] at h
  rcases h with h | ⟨first, c', hfirst, h⟩
  · obtain ⟨rfl, rfl, hnot⟩ := expect_eq_error hes h
    exact .inl ⟨rfl, rfl, by simpa [Expected.admits] using hnot⟩
  · obtain ⟨m, rfl, hadmits, rfl⟩ := expect_eq_ok_iff.1 hfirst
    rw [peek_bind] at h
    split at h
    next ht =>
      obtain ⟨last, m, rfl, -⟩ := Cursor.exists_cons_of_peek_text hclosing hfin ht
      cases h
    next ht => exact .inr ⟨first, m, rfl, by simpa [Expected.admits] using hadmits, ht, h⟩

/-- Marks are never refused, so a typed element is refused where its path is. -/
theorem typedElementWith_eq_error {path : Reader Phrase} {c c' : Cursor} {e : Fault}
    (h : typedElementWith path c = .error e c') : path c = .error e c' := by
  rw [typedElementWith, place_bind, EStateM.bind_eq_error_iff] at h
  rcases h with h | ⟨_, _, -, h⟩
  · rw [elementWith, EStateM.bind_eq_error_iff] at h
    rcases h with h | ⟨_, _, -, h⟩
    · exact h
    · cases h
  · cases h

/-- A typed element that is read is a path and all marks behind it. -/
theorem typedElementWith_eq_ok {path : Reader Phrase} {c : Cursor} {e : Phrase}
    (h : typedElementWith path ⟨i, fin⟩ = .ok e c) :
    ∃ p m fin', path ⟨i, fin⟩ = .ok p ⟨m, fin'⟩ ∧
      ∃ (marks : List Token) (after : List Phrase) (r : List Token), c = ⟨r, fin'⟩ ∧
        m = marks ++ r ∧ List.Forall₂ MarkLeaf marks after ∧ ∀ t ∈ r.head?, mark? t = none := by
  rw [typedElementWith, place_bind, EStateM.bind_eq_ok_iff] at h
  obtain ⟨inner, ⟨m, fin'⟩, hinner, h⟩ := h
  rw [elementWith, EStateM.bind_eq_ok_iff] at hinner
  obtain ⟨p, c', hp, hinner⟩ := hinner
  cases hinner
  obtain ⟨ts, r, rfl, hts, hnone, hmarks⟩ := marks_eq m fin'
  rw [EStateM.bind_of_ok hmarks] at h
  cases h
  exact ⟨p, _, fin', hp, ts, _, r, rfl, rfl, hts, hnone⟩

/-! ## Where paths end -/

/-- The reader of paths goes on as far as it can. -/
def EndsPaths (path : Reader Phrase) : Prop :=
  ∀ i fin p r fin', fin.toLexeme = .finish → path ⟨i, fin⟩ = .ok p ⟨r, fin'⟩ →
    EndsAfter p.children r

theorem segmentWith_eq_ok {path : Reader Phrase} {turns : Nat} {parts : List Phrase}
    (h : segmentWith path turns ⟨i, fin⟩ = .ok parts ⟨r, fin⟩) :
    ∀ t ∈ r.head?, t.text = "<" → ∃ front args, parts = front ++ [args] ∧ args.rule = .generic := by
  rw [segmentWith, EStateM.bind_eq_ok_iff] at h
  obtain ⟨head, c, hhead, h⟩ := h
  rw [peek_bind] at h
  split at h
  next =>
    rw [EStateM.bind_eq_ok_iff] at h
    obtain ⟨args, c', hargs, h⟩ := h
    cases h
    rw [genericWith, place_bind, EStateM.bind_eq_ok_iff] at hargs
    obtain ⟨_, _, -, hargs⟩ := hargs
    cases hargs
    exact fun _ _ _ => ⟨[head], _, rfl, rfl⟩
  next hpeek =>
    cases h
    intro t ht hopening
    obtain ⟨m, rfl⟩ := List.head?_eq_some_iff.1 ht
    exact absurd hopening hpeek

theorem segments_eq_ok (n : Nat) {parts : List Phrase} (hfin : fin.toLexeme = .finish)
    (h : segments n ⟨i, fin⟩ = .ok parts ⟨r, fin⟩) : EndsAfter parts r := by
  induction n generalizing i parts with
  | zero => cases h
  | succ n ih =>
    rw [segments, EStateM.bind_eq_ok_iff] at h
    obtain ⟨first, c, hfirst, h⟩ := h
    obtain ⟨m, rfl, hd⟩ := sound_segmentWith (sound_pathOf (sound_segments n)) n i fin first c hfin
      hfirst
    rw [peek_bind] at h
    split at h
    next hpeek =>
      obtain ⟨mark, m, rfl, -⟩ := Cursor.exists_cons_of_peek_text (by simp) hfin hpeek
      rw [next_bind_cons, EStateM.bind_eq_ok_iff] at h
      obtain ⟨others, c, hothers, h⟩ := h
      cases h
      exact (ih hothers).append first
    next hpeek =>
      cases h
      refine fun t ht => ⟨?_, segmentWith_eq_ok hfirst t ht⟩
      obtain ⟨m, rfl⟩ := List.head?_eq_some_iff.1 ht
      exact hpeek

section
variable {path : Reader Phrase} {n : Nat} (hsound : Sound path .path ([·])) (hends : EndsPaths path)
  (hpath : ∀ i fin, fin.toLexeme = .finish → i.length < n → Sticks path .segments i fin)
include hsound hends hpath

theorem sticks_typedElementsWith {closing : String} (hc : IsClosing closing) (turns : Nat)
    (hfin : fin.toLexeme = .finish) (hn : i.length < n) (hturns : i.length ≤ turns) :
    Sticks (typedElementsWith path closing turns) (.elements closing) i fin := by
  have hes : [Expected.text ",", .text closing].any (·.admits fin) = false := by
    rcases hc with rfl | rfl <;> simp [Expected.admits, hfin, Lexeme.finish]
  induction turns generalizing i with
  | zero =>
    intro e c h
    cases h
    -- Without turns no token is ahead either.
    obtain rfl := List.length_eq_zero_iff.1 (Nat.le_zero.1 hturns)
    exact ⟨[], _, rfl, rfl, .element hc (.name (by simp [hfin, Lexeme.finish]))⟩
  | succ turns ih =>
    intro e c h
    rw [typedElementsWith, EStateM.bind_eq_error_iff] at h
    rcases h with h | ⟨first, c', hfirst, h⟩
    · obtain ⟨r, es, rfl, rfl, hstuck⟩ := hpath i fin hfin hn e c (typedElementWith_eq_error h)
      exact ⟨r, es, rfl, rfl, .element hc hstuck⟩
    rw [EStateM.bind_eq_error_iff] at h
    rcases h with h | ⟨t, c'', ht, h⟩
    · obtain ⟨p, _, _, hp, marks, after, r, rfl, rfl, hmarks, hnone⟩ :=
        typedElementWith_eq_ok hfirst
      obtain ⟨_, ⟨rfl, rfl⟩, hd⟩ := hsound i fin p _ hfin hp
      obtain ⟨rfl, rfl, hnot⟩ := expect_eq_error hes h
      simp only [Expected.admits, List.any_cons, List.any_nil, Bool.or_false, Bool.or_eq_false_iff,
        beq_eq_false_iff_ne] at hnot
      exact ⟨r, _, rfl, rfl,
        .separator hc hd (hends i fin p _ _ hfin hp) hmarks hnone hnot.1 hnot.2⟩
    obtain ⟨m, rfl, hd⟩ := sound_typedElementWith hsound i fin first c' hfin hfirst
    obtain ⟨r, rfl, hadmits, rfl⟩ := expect_eq_ok_iff.1 ht
    split at h
    next => cases h
    next hclosing =>
      have hcomma : t.text = "," := by simpa [Expected.admits, hclosing] using hadmits
      have hlt := hd.length_lt
      simp only [List.length_cons] at hlt
      rw [EStateM.bind_eq_error_iff] at h
      rcases h with h | ⟨_, _, -, h⟩
      · obtain ⟨r, es, rfl, rfl, hstuck⟩ := ih (by omega) (by omega) e c h
        exact ⟨r, es, rfl, rfl, .comma hc hd hcomma hstuck⟩
      · cases h

theorem sticks_segmentWith {turns : Nat} (hfin : fin.toLexeme = .finish) (hn : i.length ≤ n)
    (hturns : i.length ≤ turns) : Sticks (segmentWith path turns) .segments i fin := by
  intro e c h
  rw [segmentWith, EStateM.bind_eq_error_iff] at h
  rcases h with h | ⟨head, c', hhead, h⟩
  · obtain ⟨rfl, rfl, hk⟩ := type_eq_error hfin h
    exact ⟨i, _, rfl, rfl, .name hk⟩
  obtain ⟨m, rfl, hd⟩ := derives_of_type hfin hhead
  have hlt := hd.length_lt
  rw [peek_bind] at h
  split at h
  next hopening =>
    rw [EStateM.bind_eq_error_iff] at h
    rcases h with h | ⟨_, _, -, h⟩
    · rw [genericWith, place_bind, EStateM.bind_eq_error_iff] at h
      rcases h with h | ⟨_, _, -, h⟩
      · rcases listWith_eq_error (by simp) (by simp) hfin h with
          ⟨-, -, hnot⟩ | ⟨first, m, rfl, hfirst, hclosing, h⟩
        · exact absurd hopening hnot
        simp only [List.length_cons] at hlt
        obtain ⟨r, es, rfl, rfl, hstuck⟩ := sticks_typedElementsWith hsound hends hpath (.inr rfl)
          turns hfin (by omega) (by omega) e c h
        exact ⟨r, es, rfl, rfl, .arguments hd hfirst hclosing hstuck⟩
      · cases h
    · cases h
  next => cases h

end

/-! ## Paths and signatures -/

theorem endsPaths_pathOf {segments : Reader (List Phrase)}
    (h : ∀ i fin parts r fin', fin.toLexeme = .finish → segments ⟨i, fin⟩ = .ok parts ⟨r, fin'⟩ →
      EndsAfter parts r) : EndsPaths (pathOf segments) := by
  intro i fin p r fin' hfin hp
  rw [pathOf, place_bind, EStateM.bind_eq_ok_iff] at hp
  obtain ⟨parts, c, hparts, hp⟩ := hp
  cases hp
  exact h i fin parts r fin' hfin hparts

theorem sticks_pathOf {segments : Reader (List Phrase)} (h : Sticks segments .segments i fin) :
    Sticks (pathOf segments) .segments i fin := by
  intro e c hp
  rw [pathOf, place_bind, EStateM.bind_eq_error_iff] at hp
  rcases hp with hp | ⟨_, _, -, hp⟩
  · exact h e c hp
  · cases hp

theorem endsAfter_of_segments (n : Nat) (i : List Token) (fin : Token) (parts : List Phrase)
    (r : List Token) (fin' : Token) (hfin : fin.toLexeme = .finish)
    (h : segments n ⟨i, fin⟩ = .ok parts ⟨r, fin'⟩) : EndsAfter parts r := by
  obtain ⟨_, ⟨rfl, rfl⟩, -⟩ := sound_segments n i fin parts _ hfin h
  exact segments_eq_ok n hfin h

theorem sticks_segments (n : Nat) (hfin : fin.toLexeme = .finish) (hn : i.length < n) :
    Sticks (segments n) .segments i fin := by
  induction n generalizing i fin with
  | zero => exact absurd hn (Nat.not_lt_zero _)
  | succ n ih =>
    have hsound := sound_pathOf (sound_segments n)
    intro e c h
    rw [segments, EStateM.bind_eq_error_iff] at h
    rcases h with h | ⟨first, c', hfirst, h⟩
    · exact sticks_segmentWith hsound (endsPaths_pathOf (endsAfter_of_segments n))
        (fun i fin hfin hn => sticks_pathOf (ih hfin hn)) hfin (Nat.le_of_lt_succ hn)
        (Nat.le_of_lt_succ hn) e c h
    obtain ⟨m, rfl, hd⟩ := sound_segmentWith hsound n i fin first c' hfin hfirst
    have hlt := hd.length_lt
    rw [peek_bind] at h
    split at h
    next hpeek =>
      obtain ⟨mark, m, rfl, hmark⟩ := Cursor.exists_cons_of_peek_text (by simp) hfin hpeek
      rw [next_bind_cons, EStateM.bind_eq_error_iff] at h
      rw [List.length_cons] at hlt
      rcases h with h | ⟨_, _, -, h⟩
      · obtain ⟨r, es, rfl, rfl, hstuck⟩ := ih hfin (by omega) e c h
        exact ⟨r, es, rfl, rfl, .scope hd hmark hstuck⟩
      · cases h
    next => cases h

theorem endsPaths_path : EndsPaths path :=
  endsPaths_pathOf fun i fin parts r fin' hfin h =>
    endsAfter_of_segments (i.length + 1) i fin parts r fin' hfin h

theorem sticks_path (hfin : fin.toLexeme = .finish) : Sticks path .segments i fin :=
  sticks_pathOf fun e c h => sticks_segments (i.length + 1) hfin (Nat.lt_succ_self _) e c h

/-- A `const` is there to be taken or is not. -/
theorem trailingConst_ne_error (hfin : fin.toLexeme = .finish) {e : Fault} {c : Cursor} :
    trailingConst ⟨i, fin⟩ ≠ .error e c := by
  intro h
  rw [trailingConst, peek_bind] at h
  split at h
  next ht =>
    obtain ⟨mark, m, rfl, -⟩ := Cursor.exists_cons_of_peek_text (by simp) hfin ht
    cases h
  next => cases h

/-- A function is refused in its path or in its list. -/
theorem sticks_function (hfin : fin.toLexeme = .finish) : Sticks function .signature i fin := by
  intro e c h
  rw [function, place_bind, EStateM.bind_eq_error_iff] at h
  rcases h with h | ⟨name, c', hname, h⟩
  · obtain ⟨r, es, rfl, rfl, hstuck⟩ := sticks_path hfin e c h
    exact ⟨r, es, rfl, rfl, .callee hstuck⟩
  obtain ⟨m, rfl, hd⟩ := sound_path i fin name c' hfin hname
  rw [EStateM.bind_eq_error_iff] at h
  rcases h with h | ⟨args, c'', hargs, h⟩
  · rcases listWith_eq_error (by simp) (by simp) hfin h with
      ⟨rfl, rfl, hnot⟩ | ⟨first, m, rfl, hfirst, hclosing, h⟩
    · exact ⟨m, _, rfl, rfl, .opening hd (endsPaths_path i fin name m fin hfin hname) hnot⟩
    · obtain ⟨r, es, rfl, rfl, hstuck⟩ := sticks_typedElementsWith (n := m.length + 1) sound_path
        endsPaths_path (fun _ _ hfin _ => sticks_path hfin) (.inl rfl) _ hfin (Nat.lt_succ_self _)
        (by simp [enough]; omega) e c h
      exact ⟨r, es, rfl, rfl, .parameters hd hfirst hclosing hstuck⟩
  obtain ⟨r, rfl, -⟩ := sound_listWith sound_path (by simp) _ m fin args c'' hfin hargs
  rw [EStateM.bind_eq_error_iff] at h
  rcases h with h | ⟨_, _, -, h⟩
  · exact absurd h (trailingConst_ne_error hfin)
  · cases h

end Reader
end LinkerNames

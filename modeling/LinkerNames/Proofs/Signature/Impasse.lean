import LinkerNames.Proofs.Signature.Exchange
import LinkerNames.Proofs.Signature.Stuck
/-!
# Where a reader gets stuck nothing else gets through

A reader that is stuck before a token fails whatever comes behind that token (`Stuck.refused`). The
parts before are read as they were, by `Derives.exchange`, so the reader comes to the same token and
finds no use for it.
-/

namespace LinkerNames

/-- What is seen next does not depend on what comes behind. -/
theorem Cursor.peek_append_cons (inner : List Token) (t : Token) (x x' : List Token)
    (fin fin' : Token) :
    Cursor.peek ⟨inner ++ t :: x', fin'⟩ = Cursor.peek ⟨inner ++ t :: x, fin⟩ := by
  cases inner <;> rfl

namespace Reader

variable {α β : Type} {c c' : Cursor} {i j r m : List Token} {fin : Token}

/-! ## Readers that fail -/

/-- The reader gives no answer. -/
def Fails (x : Reader α) (c : Cursor) : Prop :=
  ∃ e c', x c = .error e c'

namespace Fails

theorem bind {x : Reader α} (h : Fails x c) (f : α → Reader β) : Fails (x >>= f) c := by
  obtain ⟨e, c', h⟩ := h
  exact ⟨e, c', EStateM.bind_of_error h⟩

theorem bind_of_ok {x : Reader α} {f : α → Reader β} {a : α} (hx : x c = .ok a c')
    (h : Fails (f a) c') : Fails (x >>= f) c := by
  rwa [Fails, EStateM.bind_of_ok hx]

theorem peek_bind {f : Token → Reader α} (h : Fails (f c.peek) c) : Fails (peek >>= f) c :=
  h

theorem place_bind {f : Place → Reader α} (h : Fails (f c.peek.place) c) :
    Fails (place >>= f) c :=
  h

theorem next_bind {f : Token → Reader α} {t : Token} (h : Fails (f t) ⟨i, fin⟩) :
    Fails (next >>= f) ⟨t :: i, fin⟩ :=
  h

theorem expect {es : List Expected} (h : ¬ es.any (·.admits c.peek) = true) :
    Fails (expect es) c :=
  ⟨_, _, expect_of_not_admits h⟩

end Fails

theorem fails_listWith {path : Reader Phrase} {opening closing : String} {turns : Nat}
    {first : Token} (hfirst : first.text = opening)
    (hclosing : (Cursor.peek ⟨m, fin⟩).text ≠ closing)
    (h : Fails (typedElementsWith path closing turns) ⟨m, fin⟩) :
    Fails (listWith path opening closing turns) ⟨first :: m, fin⟩ := by
  rw [listWith]
  refine .bind_of_ok (expect_cons (by simp [Expected.admits, hfirst])) (.peek_bind ?_)
  rwa [if_neg hclosing]

theorem fails_typedElementWith {path : Reader Phrase} (h : Fails path c) :
    Fails (typedElementWith path) c := by
  rw [typedElementWith, elementWith]
  exact .place_bind ((h.bind _).bind _)

theorem typedElementWith_of_path {path : Reader Phrase} {p : Phrase} {ts : List Token}
    {after : List Phrase} (h : path ⟨i, fin⟩ = .ok p ⟨ts ++ r, fin⟩)
    (hts : List.Forall₂ MarkLeaf ts after) (hr : ∀ t ∈ r.head?, mark? t = none) :
    ∃ e, typedElementWith path ⟨i, fin⟩ = .ok e ⟨r, fin⟩ := by
  have helement : elementWith path ⟨i, fin⟩ =
      .ok (.branch .element p.place [unwrap p]) ⟨ts ++ r, fin⟩ := by
    rw [elementWith, EStateM.bind_of_ok h]
    rfl
  rw [typedElementWith, place_bind, EStateM.bind_of_ok helement,
    EStateM.bind_of_ok (marks_of_derives hts hr)]
  exact ⟨_, rfl⟩

/-! ## Items that no reader gets through -/

/-- No reader of the item gets through the row, with turns enough. For the elements of a list that
is so if the reader of paths reads what can be derived, and fails where no path can be read. -/
def Refused (item : Item) (i : List Token) (fin : Token) : Prop :=
  match item with
  | .segments => ∀ n, i.length < n → Fails (segments n) ⟨i, fin⟩
  | .elements closing => ∀ (path : Reader Phrase) (n turns : Nat), ReadsPaths path n →
      (∀ j fin', j.length < n → (∀ k, j.length < k → Fails (segments k) ⟨j, fin'⟩) →
        Fails path ⟨j, fin'⟩) →
      i.length < n → i.length ≤ turns → Fails (typedElementsWith path closing turns) ⟨i, fin⟩
  | .signature => Fails signature ⟨i, fin⟩

theorem fails_pathOf {segments : Reader (List Phrase)} (h : Fails segments c) :
    Fails (pathOf segments) c := by
  rw [pathOf]
  exact .place_bind (h.bind _)

theorem fails_path (h : ∀ k, i.length < k → Fails (segments k) ⟨i, fin⟩) :
    Fails path ⟨i, fin⟩ := by
  have hsegments : Fails (fun c => segments (enough c) c) ⟨i, fin⟩ := by
    obtain ⟨e, c, h⟩ := h (i.length + 1) (Nat.lt_succ_self _)
    exact ⟨e, c, h⟩
  exact fails_pathOf hsegments

/-! ## A part that is refused makes the whole refused -/

section
variable {first mark : Token} {es : List Phrase} {name : Phrase} {args : List Phrase}
  {closing : String} (hfin : fin.toLexeme = .finish)
include hfin

theorem refused_name (hkind : (Cursor.peek ⟨i, fin⟩).kind ≠ .identifier) :
    Refused .segments i fin := by
  intro n hn
  obtain ⟨n, rfl⟩ := Nat.exists_eq_add_one_of_ne_zero (Nat.ne_zero_of_lt hn)
  rw [segments, segmentWith]
  exact .bind (.bind ⟨_, _, type_of_no_identifier hfin hkind⟩ _) _

theorem refused_arguments (h : Derives true .type i (first :: m) es)
    (hfirst : first.text = "<") (hclosing : (Cursor.peek ⟨m, fin⟩).text ≠ ">")
    (hm : Refused (.elements ">") m fin) : Refused .segments i fin := by
  intro n hn
  obtain ⟨n, rfl⟩ := Nat.exists_eq_add_one_of_ne_zero (Nat.ne_zero_of_lt hn)
  obtain ⟨head, -, hhead⟩ := type_of_derives hfin h
  have hlt := h.length_lt
  rw [List.length_cons] at hlt
  rw [segments, segmentWith]
  refine .bind (.bind_of_ok hhead (.peek_bind ?_)) _
  rw [Cursor.peek_cons, if_pos hfirst, genericWith]
  refine .bind (.place_bind (.bind (fails_listWith hfirst hclosing ?_) _)) _
  exact hm _ n n (readsPaths_pathOf (segments_of_derives n))
    (fun _ _ hn h => fails_pathOf (h n hn)) (by omega) (by omega)

theorem refused_scope (hi : Named i) (h : Derives true .segment i (mark :: m) es)
    (hmark : mark.text = "::") (hm : Refused .segments m fin) : Refused .segments i fin := by
  intro n hn
  obtain ⟨n, rfl⟩ := Nat.exists_eq_add_one_of_ne_zero (Nat.ne_zero_of_lt hn)
  have hlt := h.length_lt
  rw [List.length_cons] at hlt
  have hread := segmentWith_of_derives (readsPaths_pathOf (segments_of_derives n)) hfin hi
    (Nat.le_of_lt_succ hn) (Nat.le_of_lt_succ hn) h fun u hu => by cases hu; rw [hmark]; simp
  rw [segments]
  refine .bind_of_ok hread (.peek_bind ?_)
  rw [Cursor.peek_cons, if_pos hmark]
  exact .next_bind (.bind (hm n (by omega)) _)

theorem refused_separator (hi : Named i) {marks : List Token} {p : Phrase} {after : List Phrase}
    (h : Derives true .path i (marks ++ r) [p]) (hends : EndsAfter p.children (marks ++ r))
    (hmarks : List.Forall₂ MarkLeaf marks after) (hnone : ∀ t ∈ r.head?, mark? t = none)
    (hcomma : (Cursor.peek ⟨r, fin⟩).text ≠ ",")
    (hclosing : (Cursor.peek ⟨r, fin⟩).text ≠ closing) : Refused (.elements closing) i fin := by
  intro path n turns hreads _ hn _
  obtain ⟨e, he⟩ := typedElementWith_of_path (hreads _ _ p fin hfin hi hn h hends) hmarks hnone
  cases turns with
  | zero => exact ⟨_, _, rfl⟩
  | succ turns =>
    rw [typedElementsWith]
    exact .bind_of_ok he (.bind (.expect (by simpa [Expected.admits] using ⟨hcomma, hclosing⟩)) _)

theorem refused_comma (hc : IsClosing closing) (hi : Named i)
    (h : Derives true .typedElement i (mark :: m) es) (hmark : mark.text = ",")
    (hm : Refused (.elements closing) m fin) : Refused (.elements closing) i fin := by
  intro path n turns hreads hfails hn hturns
  have hlt := h.length_lt
  rw [List.length_cons] at hlt
  obtain ⟨hstops, hnone⟩ := stops_separator (t := mark) (r := m) (.inr hmark)
  obtain ⟨e, -, he⟩ := typedElementWith_of_derives hreads hfin hi hn h hstops.ends hnone
  have hclosing : mark.text ≠ closing := by
    rcases hc with rfl | rfl <;> rw [hmark] <;> decide
  cases turns with
  | zero => exact ⟨_, _, rfl⟩
  | succ turns =>
    rw [typedElementsWith]
    refine .bind_of_ok he (.bind_of_ok (expect_cons (by simp [Expected.admits, hmark])) ?_)
    rw [if_neg hclosing]
    exact .bind (hm path n turns hreads hfails (by omega) (by omega)) _

theorem refused_opening (hi : Named i) (h : Derives true .path i r [name])
    (hends : EndsAfter name.children r) (hopening : (Cursor.peek ⟨r, fin⟩).text ≠ "(") :
    Refused .signature i fin := by
  have hread : path ⟨i, fin⟩ = .ok name ⟨r, fin⟩ :=
    readsPaths_path _ i r name fin hfin hi (Nat.lt_succ_self _) h hends
  have hlist : Fails (list "(" ")") ⟨r, fin⟩ :=
    Fails.bind (.expect (by simpa [Expected.admits] using hopening)) _
  change Fails signature _
  rw [signature, function]
  exact .bind (.place_bind (.bind_of_ok hread (.bind hlist _))) _

theorem refused_parameters (hi : Named i) (h : Derives true .path i (first :: m) [name])
    (hfirst : first.text = "(") (hclosing : (Cursor.peek ⟨m, fin⟩).text ≠ ")")
    (hm : Refused (.elements ")") m fin) : Refused .signature i fin := by
  have hread : path ⟨i, fin⟩ = .ok name ⟨first :: m, fin⟩ :=
    readsPaths_path _ i _ name fin hfin hi (Nat.lt_succ_self _) h
      ((stops_cons (by rw [hfirst]; decide)).ends.after _)
  have hlist : Fails (list "(" ")") ⟨first :: m, fin⟩ :=
    fails_listWith hfirst hclosing (hm path (m.length + 1) _ (readsPaths_path _)
      (fun _ _ _ => fails_path) (Nat.lt_succ_self _) (by simp [enough]; omega))
  change Fails signature _
  rw [signature, function]
  exact .bind (.place_bind (.bind_of_ok hread (.bind hlist _))) _

theorem refused_finish (hi : Named i) {after : List Phrase} (h : Derives true .path i m [name])
    (h' : Derives true (.list "(" ")") m r args)
    (hafter : trailingConst ⟨r, fin⟩ = .ok after ⟨j, fin⟩)
    (hend : (Cursor.peek ⟨j, fin⟩).kind ≠ .endOfInput) : Refused .signature i fin := by
  have hfunction := function_of_parts hfin hi h h'
  rw [EStateM.bind_of_ok hafter] at hfunction
  change Fails signature _
  rw [signature]
  exact .bind_of_ok hfunction (.bind (.expect (by simpa [Expected.admits] using hend)) _)

end

theorem refused_element {closing : String} (h : Refused .segments i fin) :
    Refused (.elements closing) i fin := by
  intro path n turns _ hfails hn _
  cases turns with
  | zero => exact ⟨_, _, rfl⟩
  | succ turns =>
    rw [typedElementsWith]
    exact .bind (fails_typedElementWith (hfails i fin hn h)) _

theorem refused_callee (h : Refused .segments i fin) : Refused .signature i fin := by
  change Fails signature _
  rw [signature, function]
  exact .bind (.place_bind (.bind (fails_path h) _)) _

end Reader

/-! ## Main theorem -/

open Reader

/-- The item is refused up to the token, whatever comes behind the token. -/
def RefusedAt (item : Item) (i : List Token) (t : Token) (x : List Token) : Prop :=
  ∃ taken, i = taken ++ t :: x ∧ ∀ x' fin, fin.toLexeme = .finish → Named (taken ++ t :: x') →
    Refused item (taken ++ t :: x') fin

/-- What is read before a part is read again whatever comes behind the token that the part is
refused at, if it is no `std` before a name. -/
theorem RefusedAt.of_part {part item : Item} {cat : Category} {i m : List Token} {first t : Token}
    {x : List Token} {ps : List Phrase} (hm : RefusedAt part m t x)
    (h : Derives true cat i (first :: m) ps) (hcat : cat.Closes)
    (hname : first.text = "::" → m = t :: x → t.kind ≠ .identifier)
    (hwhole : ∀ i' m' fin, fin.toLexeme = .finish → Named i' →
      Derives true cat i' (first :: m') ps →
      (∀ fin', Cursor.peek ⟨m', fin⟩ = Cursor.peek ⟨m, fin'⟩) → Refused part m' fin →
      Refused item i' fin) : RefusedAt item i t x := by
  obtain ⟨front, rfl⟩ := h.suffix
  obtain ⟨inner, rfl, hinner⟩ := hm
  refine ⟨front ++ first :: inner, by simp, fun x' fin hfin hnamed => ?_⟩
  rw [List.append_assoc, List.cons_append] at hnamed ⊢
  refine hwhole _ _ fin hfin hnamed (h.exchange_append hcat (.of_head fun _ u hs => ?_))
    (Cursor.peek_append_cons inner t x x' · fin) (hinner x' fin hfin (hnamed.mono (by simp)))
  -- Only right behind a mark could the token make a name of the standard library.
  cases inner with
  | nil =>
    cases hs with
    | mk _ _ hscope hkind => exact absurd hkind (hname hscope rfl)
  | cons => exact hs.of_exchange (List.cons_ne_nil _ _) fun h u hu => h u hu

/-- What cannot go on with a token cannot go on with it whatever comes behind. -/
theorem Stuck.refusedAt {fin t : Token} {x : List Token} {item : Item} {i : List Token}
    {es : List Expected} (h : Stuck fin item i (t :: x) es) : RefusedAt item i t x := by
  have hne {first : Token} {m : List Token} (h : first.text ≠ "::") :
      first.text = "::" → m = t :: x → t.kind ≠ .identifier := fun hscope => absurd hscope h
  generalize hr : t :: x = r at h
  -- The innermost place refuses the token; each part around it is read again up to there.
  induction h with
  | name hkind =>
    subst hr
    exact ⟨[], rfl, fun x' fin hfin _ => refused_name hfin hkind⟩
  | arguments h hfirst hclosing _ ih =>
    refine (ih hr).of_part h trivial (hne (by rw [hfirst]; decide)) ?_
    intro i' m' fin hfin _ h hpeek hm
    exact refused_arguments hfin h hfirst (hpeek _ ▸ hclosing) hm
  | scope h hmark hstuck ih =>
    refine (ih hr).of_part h trivial (fun _ hm => ?_) ?_
    · subst hr hm
      exact hstuck.kind_ne
    · intro i' m' fin hfin hi h _ hm
      exact refused_scope hfin hi h hmark hm
  | element _ _ ih =>
    obtain ⟨taken, rfl, hrefused⟩ := ih hr
    exact ⟨taken, rfl, fun x' fin hfin hi => refused_element (hrefused x' fin hfin hi)⟩
  | @separator closing _ marks _ p _ _ h hends hmarks hnone hcomma hclosing =>
    subst hr
    obtain ⟨front, rfl⟩ := h.suffix
    refine ⟨front ++ marks, by simp, fun x' fin hfin hi => ?_⟩
    rw [List.append_assoc] at hi ⊢
    have hends' : EndsAfter p.children (marks ++ t :: x') := by
      cases marks <;> exact fun u hu => hends u hu
    have hexchange : Exchange true (marks ++ t :: x) (marks ++ t :: x') := by
      cases marks with
      | nil => exact .of_head_ne (hends t rfl).1
      | cons u us => exact .of_head_ne (hends u rfl).1
    exact refused_separator hfin hi (h.exchange_append trivial hexchange) hends' hmarks
      (fun u hu => hnone u hu) hcomma hclosing
  | comma hc h hmark _ ih =>
    refine (ih hr).of_part h trivial (hne (by rw [hmark]; decide)) ?_
    intro i' m' fin hfin hi h _ hm
    exact refused_comma hfin hc hi h hmark hm
  | callee _ ih =>
    obtain ⟨taken, rfl, hrefused⟩ := ih hr
    exact ⟨taken, rfl, fun x' fin hfin hi => refused_callee (hrefused x' fin hfin hi)⟩
  | opening h hends hopening =>
    subst hr
    obtain ⟨front, rfl⟩ := h.suffix
    refine ⟨front, rfl, fun x' fin hfin hi => ?_⟩
    exact refused_opening hfin hi (h.exchange_append trivial (.of_head_ne (hends t rfl).1))
      (fun u hu => hends u hu) hopening
  | parameters h hfirst hclosing _ ih =>
    refine (ih hr).of_part h trivial (hne (by rw [hfirst]; decide)) ?_
    intro i' m' fin hfin hi h hpeek hm
    exact refused_parameters hfin hi h hfirst (hpeek _ ▸ hclosing) hm
  | finish h h' hconst hend =>
    subst hr
    obtain ⟨front, inner, rfl, hcall⟩ := h.exchange_call h'
    refine ⟨front ++ inner, by simp, fun x' fin hfin hi => ?_⟩
    rw [List.append_assoc] at hi ⊢
    obtain ⟨h, h'⟩ := hcall (t :: x')
    exact refused_finish hfin hi h h' (trailingConst_of_ne hconst) hend
  | @finishConst _ _ _ mark _ _ h h' hmark hend =>
    subst hr
    obtain ⟨front, inner, rfl, hcall⟩ := h.exchange_call h'
    refine ⟨front ++ (inner ++ [mark]), by simp, fun x' fin hfin hi => ?_⟩
    simp only [List.append_assoc, List.singleton_append] at hi ⊢
    obtain ⟨h, h'⟩ := hcall (mark :: t :: x')
    exact refused_finish hfin hi h h' (trailingConst_cons hmark) hend

end LinkerNames

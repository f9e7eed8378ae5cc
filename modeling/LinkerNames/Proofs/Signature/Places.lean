import LinkerNames.Proofs.Runs
import LinkerNames.Proofs.Token.Row
import LinkerNames.Signature.Parse
/-!
# Places do not matter

A reader looks at what tokens are and not at where they stand; the places only go into what it
answers. So readers on two rows with the same lexemes do the same, in parallel: both answer and come
as far in their rows, or both refuse the same lexeme for the same reason. We show it from reader to
reader; `exists_rejection_of_alike` says it of texts.
-/

namespace LinkerNames

/-! ## Up to places -/

/-- The same lexeme, perhaps at another place. -/
def Token.Alike (t u : Token) : Prop :=
  t.toLexeme = u.toLexeme

/-- The same lexemes are ahead. -/
structure Cursor.Alike (c d : Cursor) : Prop where
  ahead : c.ahead.map Token.toLexeme = d.ahead.map Token.toLexeme
  finish : c.finish.toLexeme = d.finish.toLexeme

/-- The same fault with the same lexeme. -/
inductive Fault.Alike : Fault → Fault → Prop
  | unexpected {t u : Token} (expected : List Expected) : t.Alike u →
    Alike (.unexpected t expected) (.unexpected u expected)
  | exhausted : Alike .exhausted .exhausted

/-- Two outcomes of reading, with answers that are related. -/
inductive Reader.Outcomes {α : Type} (R : α → α → Prop) :
    EStateM.Result Fault Cursor α → EStateM.Result Fault Cursor α → Prop
  | ok {a b : α} {c d : Cursor} : R a b → c.Alike d → Outcomes R (.ok a c) (.ok b d)
  | error {e f : Fault} {c d : Cursor} : e.Alike f → Outcomes R (.error e c) (.error f d)

/-- Two readers do the same where the same lexemes are ahead. -/
def Reader.Parallel {α : Type} (R : α → α → Prop) (x y : Reader α) : Prop :=
  ∀ c d : Cursor, c.Alike d → Outcomes R (x c) (y d)

/-- Any two answers: phrases are not looked at when they are read. -/
abbrev AnyTwo {α : Type} (_ _ : α) : Prop := True

/-- The same lexemes, perhaps at other places. -/
def Token.AllAlike (ts us : List Token) : Prop :=
  ts.map Token.toLexeme = us.map Token.toLexeme

theorem Token.Alike.text {t u : Token} (h : t.Alike u) : t.text = u.text :=
  congrArg Lexeme.text h

theorem Token.Alike.kind {t u : Token} (h : t.Alike u) : t.kind = u.kind :=
  congrArg Lexeme.kind h

theorem Token.Alike.isBuiltinWord {t u : Token} (h : t.Alike u) :
    t.isBuiltinWord = u.isBuiltinWord := by
  unfold Token.isBuiltinWord
  rw [h.kind, h.text]

namespace Cursor.Alike

variable {c d : Cursor}

theorem peekAt (h : c.Alike d) (n : Nat) : (c.peekAt n).Alike (d.peekAt n) := by
  have hmap (c : Cursor) : (c.peekAt n).toLexeme =
      (c.ahead.map Token.toLexeme).getD n c.finish.toLexeme := by
    unfold Cursor.peekAt
    simp only [List.getD_eq_getElem?_getD, List.getElem?_map]
    cases c.ahead[n]? <;> rfl
  unfold Token.Alike
  rw [hmap, hmap, h.ahead, h.finish]

theorem peek (h : c.Alike d) : c.peek.Alike d.peek :=
  h.peekAt 0

theorem length (h : c.Alike d) : c.ahead.length = d.ahead.length := by
  simpa using congrArg List.length h.ahead

theorem atStandardName (h : c.Alike d) : c.atStandardName = d.atStandardName := by
  unfold Cursor.atStandardName
  simp only [(h.peekAt 0).kind, (h.peekAt 0).text, (h.peekAt 1).text, (h.peekAt 2).kind,
    (h.peekAt 2).text, (h.peekAt 3).text]

end Cursor.Alike

theorem Token.AllAlike.cons {t u : Token} {ts us : List Token} (h : t.Alike u)
    (h' : AllAlike ts us) : AllAlike (t :: ts) (u :: us) := by
  unfold AllAlike at *
  rw [List.map_cons, List.map_cons, h, h']

/-- A run of tokens of one sort is as long where the same lexemes are. -/
theorem Token.AllAlike.span {p : Token → Bool} (hp : ∀ t u : Token, t.Alike u → p t = p u)
    {ts us : List Token} (h : AllAlike ts us) :
    AllAlike (ts.takeWhile p) (us.takeWhile p) ∧ AllAlike (ts.dropWhile p) (us.dropWhile p) := by
  induction ts generalizing us with
  | nil =>
    obtain rfl : us = [] := by simpa [AllAlike] using h.symm
    exact ⟨rfl, rfl⟩
  | cons t ts ih =>
    cases us with
    | nil => cases h
    | cons u us =>
      obtain ⟨htu, hrest⟩ := List.cons.inj h
      obtain ⟨htake, hdrop⟩ := ih hrest
      by_cases ht : p t = true
      · have hu : p u = true := hp t u htu ▸ ht
        rw [List.takeWhile_cons_of_pos ht, List.takeWhile_cons_of_pos hu,
          List.dropWhile_cons_of_pos ht, List.dropWhile_cons_of_pos hu]
        exact ⟨.cons htu htake, hdrop⟩
      · have hu : ¬ p u = true := hp t u htu ▸ ht
        rw [List.takeWhile_cons_of_neg ht, List.takeWhile_cons_of_neg hu,
          List.dropWhile_cons_of_neg ht, List.dropWhile_cons_of_neg hu]
        exact ⟨rfl, h⟩

theorem Cursor.Alike.builtinRun {c d : Cursor} (h : c.Alike d) : c.builtinRun = d.builtinRun := by
  have hmany : Token.AllAlike (c.peekMany maxBuiltinWords) (d.peekMany maxBuiltinWords) := by
    unfold Token.AllAlike Cursor.peekMany
    rw [List.map_map, List.map_map]
    exact List.map_congr_left fun n _ => h.peekAt n
  have htake := (hmany.span fun _ _ => Token.Alike.isBuiltinWord).1
  have htexts := congrArg (List.map Lexeme.text) htake
  rw [List.map_map, List.map_map] at htexts
  exact htexts

namespace Reader

variable {α β : Type} {R : α → α → Prop} {S : β → β → Prop}

/-! ## Small readers -/

theorem Parallel.pure {a b : α} (h : R a b) : Parallel R (pure a) (pure b) :=
  fun _ _ hcd => .ok h hcd

theorem Parallel.bind {x y : Reader α} {f g : α → Reader β} (h : Parallel R x y)
    (hfg : ∀ a b, R a b → Parallel S (f a) (g b)) : Parallel S (x >>= f) (y >>= g) := by
  intro c d hcd
  have hxy := h c d hcd
  cases hx : x c with
  | ok a c' =>
    rw [hx] at hxy
    cases hy : y d with
    | ok b d' =>
      rw [hy] at hxy
      obtain ⟨hab, hcd'⟩ : R a b ∧ c'.Alike d' := by
        cases hxy with
        | ok hab hcd' => exact ⟨hab, hcd'⟩
      rw [EStateM.bind_of_ok hx, EStateM.bind_of_ok hy]
      exact hfg a b hab c' d' hcd'
    | error f d' =>
      rw [hy] at hxy
      cases hxy
  | error e c' =>
    rw [hx] at hxy
    cases hy : y d with
    | ok b d' =>
      rw [hy] at hxy
      cases hxy
    | error f d' =>
      rw [hy] at hxy
      rw [EStateM.bind_of_error hx, EStateM.bind_of_error hy]
      cases hxy with
      | error hef => exact .error hef

theorem parallel_peek : Parallel Token.Alike peek peek :=
  fun _ _ hcd => .ok hcd.peek hcd

theorem parallel_get : Parallel Cursor.Alike (get : Reader Cursor) get :=
  fun _ _ hcd => .ok hcd hcd

theorem parallel_place : Parallel AnyTwo place place :=
  parallel_peek.bind fun _ _ _ => .pure trivial

theorem parallel_refuse (expected : List Expected) :
    Parallel R (refuse expected) (refuse expected) :=
  fun _ _ hcd => .error (.unexpected expected hcd.peek)

theorem parallel_next : Parallel Token.Alike next next := by
  rintro ⟨i, fin⟩ ⟨j, fin'⟩ ⟨hahead, hfinish⟩
  unfold next
  cases i with
  | nil =>
    obtain rfl : j = [] := by simpa using hahead.symm
    exact .error .exhausted
  | cons t i =>
    cases j with
    | nil => cases hahead
    | cons u j =>
      obtain ⟨htu, hrest⟩ := List.cons.inj hahead
      exact .ok htu ⟨hrest, hfinish⟩

theorem parallel_take (n : Nat) : Parallel Token.AllAlike (take n) (take n) := by
  induction n with
  | zero => exact .pure rfl
  | succ n ih =>
    exact parallel_next.bind fun t u htu => ih.bind fun ts us htus => .pure (.cons htu htus)

theorem parallel_takeWhile {p : Token → Bool} (hp : ∀ t u : Token, t.Alike u → p t = p u) :
    Parallel Token.AllAlike (takeWhile p) (takeWhile p) := by
  rintro c d ⟨hahead, hfinish⟩
  obtain ⟨htake, hdrop⟩ := Token.AllAlike.span hp hahead
  exact .ok htake ⟨hdrop, hfinish⟩

theorem admits_of_alike {t u : Token} (h : t.Alike u) (what : Expected) :
    what.admits t = what.admits u := by
  cases what with
  | kind k => exact congrArg (· == k) h.kind
  | text s => exact congrArg (· == s) h.text

theorem parallel_expect (expected : List Expected) :
    Parallel Token.Alike (expect expected) (expect expected) := by
  have hcheck : Parallel Token.Alike (check expected) (check expected) := by
    refine parallel_peek.bind fun t u htu => ?_
    have hany : expected.any (·.admits t) = expected.any (·.admits u) :=
      congrArg expected.any (funext (admits_of_alike htu))
    rw [hany]
    split
    · exact .pure htu
    · exact parallel_refuse expected
  exact hcheck.bind fun _ _ htu => parallel_next.bind fun _ _ _ => .pure htu

/-! ## Types -/

theorem parallel_builtinLength : Parallel Eq builtinLength builtinLength := by
  refine parallel_get.bind fun c d hcd => ?_
  rw [hcd.builtinRun]
  dsimp only
  split
  · exact .pure rfl
  · exact parallel_refuse _

theorem parallel_type : Parallel AnyTwo type type := by
  have hwords : Parallel AnyTwo typeWords typeWords := by
    refine parallel_get.bind fun c d hcd => ?_
    rw [hcd.atStandardName, hcd.peek.isBuiltinWord]
    split
    · exact parallel_place.bind fun _ _ _ => (parallel_take 3).bind fun _ _ _ => .pure trivial
    split
    · refine parallel_builtinLength.bind ?_
      rintro n _ rfl
      exact (parallel_take n).bind fun _ _ _ => .pure trivial
    · exact (parallel_expect _).bind fun _ _ _ => .pure trivial
  exact parallel_place.bind fun _ _ _ => hwords.bind fun _ _ _ => .pure trivial

/-! ## Lists and paths -/

variable {path : Reader Phrase}

theorem parallel_typedElementWith (h : Parallel AnyTwo path path) :
    Parallel AnyTwo (typedElementWith path) (typedElementWith path) := by
  have hmark (t u : Token) (htu : t.Alike u) : (mark? t).isSome = (mark? u).isSome := by
    simp [mark?, htu.text]
  have hmarks : Parallel AnyTwo marks marks :=
    (parallel_takeWhile hmark).bind fun _ _ _ => .pure trivial
  have helement : Parallel AnyTwo (elementWith path) (elementWith path) :=
    h.bind fun _ _ _ => .pure trivial
  exact parallel_place.bind fun _ _ _ => helement.bind fun _ _ _ => hmarks.bind fun _ _ _ =>
    .pure trivial

theorem parallel_typedElementsWith (h : Parallel AnyTwo path path) (closing : String)
    (turns : Nat) :
    Parallel AnyTwo (typedElementsWith path closing turns)
      (typedElementsWith path closing turns) := by
  induction turns with
  | zero => exact parallel_refuse _
  | succ turns ih =>
    refine (parallel_typedElementWith h).bind fun _ _ _ => ?_
    refine (parallel_expect _).bind fun t u htu => ?_
    rw [htu.text]
    split
    · exact .pure trivial
    · exact ih.bind fun _ _ _ => .pure trivial

theorem parallel_listWith (h : Parallel AnyTwo path path) (opening closing : String) (turns : Nat) :
    Parallel AnyTwo (listWith path opening closing turns)
      (listWith path opening closing turns) := by
  refine (parallel_expect _).bind fun _ _ _ => parallel_peek.bind fun t u htu => ?_
  rw [htu.text]
  split
  · exact parallel_next.bind fun _ _ _ => .pure trivial
  · exact parallel_typedElementsWith h closing turns

theorem parallel_pathOf {parts : Reader (List Phrase)} (h : Parallel AnyTwo parts parts) :
    Parallel AnyTwo (pathOf parts) (pathOf parts) :=
  parallel_place.bind fun _ _ _ => h.bind fun _ _ _ => .pure trivial

theorem parallel_segmentWith (h : Parallel AnyTwo path path) (turns : Nat) :
    Parallel AnyTwo (segmentWith path turns) (segmentWith path turns) := by
  have hgeneric : Parallel AnyTwo (genericWith path turns) (genericWith path turns) :=
    parallel_place.bind fun _ _ _ => (parallel_listWith h "<" ">" turns).bind fun _ _ _ =>
      .pure trivial
  refine parallel_type.bind fun _ _ _ => parallel_peek.bind fun t u htu => ?_
  rw [htu.text]
  split
  · exact hgeneric.bind fun _ _ _ => .pure trivial
  · exact .pure trivial

theorem parallel_segments (turns : Nat) : Parallel AnyTwo (segments turns) (segments turns) := by
  induction turns with
  | zero => exact parallel_refuse _
  | succ turns ih =>
    refine (parallel_segmentWith (parallel_pathOf ih) turns).bind fun _ _ _ => ?_
    refine parallel_peek.bind fun t u htu => ?_
    rw [htu.text]
    split
    · exact parallel_next.bind fun _ _ _ => ih.bind fun _ _ _ => .pure trivial
    · exact .pure trivial

theorem enough_of_alike {c d : Cursor} (h : c.Alike d) : enough c = enough d :=
  congrArg (· + 1) h.length

theorem parallel_path : Parallel AnyTwo Reader.path Reader.path :=
  parallel_pathOf fun c d hcd => by
    rw [enough_of_alike hcd]
    exact parallel_segments _ c d hcd

theorem parallel_list (opening closing : String) :
    Parallel AnyTwo (list opening closing) (list opening closing) := by
  intro c d hcd
  unfold list
  rw [enough_of_alike hcd]
  exact parallel_listWith parallel_path opening closing _ c d hcd

/-! ## Functions -/

theorem parallel_function : Parallel AnyTwo function function := by
  have hconst : Parallel AnyTwo trailingConst trailingConst := by
    refine parallel_peek.bind fun t u htu => ?_
    rw [htu.text]
    split
    · exact parallel_next.bind fun _ _ _ => .pure trivial
    · exact .pure trivial
  exact parallel_place.bind fun _ _ _ => parallel_path.bind fun _ _ _ =>
    (parallel_list "(" ")").bind fun _ _ _ => hconst.bind fun _ _ _ => .pure trivial

theorem parallel_signature : Parallel AnyTwo signature signature :=
  parallel_function.bind fun _ _ _ => (parallel_expect _).bind fun _ _ _ => .pure trivial

end Reader

/-! ## Texts -/

theorem alike_ofText {text text' : String}
    (h : (tokens text).map Token.toLexeme = (tokens text').map Token.toLexeme) :
    (Cursor.ofText text).Alike (Cursor.ofText text') := by
  obtain ⟨row, last, htokens, hlast, -⟩ := tokens_eq_append_finish text
  obtain ⟨row', last', htokens', hlast', -⟩ := tokens_eq_append_finish text'
  rw [ofText_eq text htokens, ofText_eq text' htokens']
  refine ⟨?_, hlast.trans hlast'.symm⟩
  rwa [htokens, htokens'] at h

/-- Of two texts with the same lexemes, if one is rejected so is the other, at the same lexeme and
with the same expectations. -/
theorem exists_rejection_of_alike {text text' : String} {why : Rejection}
    (h : (tokens text).map Token.toLexeme = (tokens text').map Token.toLexeme)
    (hwhy : parse text = .error (.rejected why)) :
    ∃ why', parse text' = .error (.rejected why') ∧ why.token.Alike why'.token ∧
      why'.expected = why.expected := by
  have houtcomes := Reader.parallel_signature _ _ (alike_ofText h)
  unfold parse at hwhy ⊢
  cases hleft : Reader.signature (Cursor.ofText text) with
  | ok p c =>
    rw [hleft] at hwhy
    cases hwhy
  | error e c =>
    rw [hleft] at hwhy houtcomes
    cases hright : Reader.signature (Cursor.ofText text') with
    | ok p d =>
      rw [hright] at houtcomes
      cases houtcomes
    | error f d =>
      rw [hright] at houtcomes
      cases houtcomes with
      | error hfault =>
        cases hfault with
        | unexpected expected htu =>
          cases hwhy
          exact ⟨_, rfl, htu, rfl⟩
        | exhausted => cases hwhy

end LinkerNames

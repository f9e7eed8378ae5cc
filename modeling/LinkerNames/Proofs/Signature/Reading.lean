import LinkerNames.Proofs.Runs
import LinkerNames.Proofs.Signature.Derivation
import LinkerNames.Proofs.Signature.Spelling
/-!
# What the small readers do

The readers that look at a bounded number of tokens, each with one law: what it answers on the
tokens ahead, and where it comes to. Behind the tokens ahead a cursor sees the end of the input,
which has no text; so a reader that finds a text has a token to take.

`type_cases`: the reader of types reads the one best derivation of a type, or misses an identifier.
-/

namespace LinkerNames

theorem SpellsBuiltin.length_le {words : List Token} (h : SpellsBuiltin words) :
    words.length ≤ maxBuiltinWords := by
  have hw : ∀ w ∈ words.map (·.text), w ∈ builtinWords := by
    intro w hw
    obtain ⟨t, ht, rfl⟩ := List.mem_map.1 hw
    exact (Token.isBuiltinWord_iff.1 (h.isBuiltinWord t ht)).2
  simpa using length_le_of_spelling hw h.spelled

/-- Only one beginning of a row spells the longest builtin type. -/
theorem LongestBuiltin.unique {words rest words' rest' : List Token}
    (hmax : LongestBuiltin words rest) (h : SpellsBuiltin words)
    (hmax' : LongestBuiltin words' rest') (h' : SpellsBuiltin words')
    (hrow : words ++ rest = words' ++ rest') : words = words' ∧ rest = rest' := by
  rcases List.append_eq_append_iff.1 hrow with ⟨more, rfl, rfl⟩ | ⟨more, rfl, rfl⟩
  · cases more with
    | nil => simp
    | cons w ws => exact absurd h' (hmax _ _ (by simp) rfl)
  · cases more with
    | nil => simp
    | cons w ws => exact absurd h (hmax' _ _ (by simp) rfl)

namespace Cursor

variable {i : List Token} {fin : Token}

theorem peekAt_mk (i : List Token) (fin : Token) (n : Nat) :
    peekAt ⟨i, fin⟩ n = i[n]?.getD fin :=
  List.getD_eq_getElem?_getD

@[simp]
theorem peek_cons (t : Token) (i : List Token) (fin : Token) : peek ⟨t :: i, fin⟩ = t :=
  rfl

@[simp]
theorem peek_nil (fin : Token) : peek ⟨[], fin⟩ = fin :=
  rfl

/-- A text that is seen next is that of a token ahead. -/
theorem exists_cons_of_peek_text {s : String} (hs : s ≠ "") (hfin : fin.toLexeme = .finish)
    (h : (peek ⟨i, fin⟩).text = s) : ∃ t m, i = t :: m ∧ t.text = s := by
  cases i with
  | nil =>
    rw [peek_nil, hfin] at h
    exact absurd h.symm hs
  | cons t m => exact ⟨t, m, rfl, h⟩

/-- A text that is not that of the next token is not seen. -/
theorem peek_text_ne {s : String} (hs : s ≠ "") (hfin : fin.toLexeme = .finish)
    (h : ∀ t ∈ i.head?, t.text ≠ s) : (peek ⟨i, fin⟩).text ≠ s := by
  intro hp
  obtain ⟨t, m, rfl, ht⟩ := exists_cons_of_peek_text hs hfin hp
  exact h t rfl ht

/-- The place that is seen is that of the row ahead, unless there is none. -/
theorem peek_place (h : i ≠ []) : (peek ⟨i, fin⟩).place = rowPlace i := by
  cases i with
  | nil => exact absurd rfl h
  | cons t m => rfl

theorem atStandardName_iff (hfin : fin.toLexeme = .finish) :
    atStandardName ⟨i, fin⟩ = true ↔ StandardAhead i := by
  rcases i with _ | ⟨root, _ | ⟨scope, _ | ⟨name, rest⟩⟩⟩
  case cons.cons.cons =>
    have hafter : (peekAt ⟨root :: scope :: name :: rest, fin⟩ 3).text ≠ "::" ∧
        (peekAt ⟨root :: scope :: name :: rest, fin⟩ 3).text ≠ "<" ↔
        ∀ t ∈ rest.head?, t.text ≠ "::" ∧ t.text ≠ "<" := by
      cases rest <;> simp [peekAt_mk, hfin, Lexeme.finish]
    simp only [atStandardName, Bool.and_eq_true, bne_iff_ne, and_assoc, hafter]
    simp only [peekAt_mk, beq_iff_eq, decide_eq_true_eq]
    constructor
    · rintro ⟨h₁, h₂, h₃, h₄, h₅, h₆⟩
      exact .mk h₁ h₂ h₃ h₄ h₅ h₆
    · rintro ⟨h₁, h₂, h₃, h₄, h₅, h₆⟩
      exact ⟨h₁, h₂, h₃, h₄, h₅, h₆⟩
  -- With less than three tokens ahead the name would be the end of the input.
  all_goals
    simp only [atStandardName, peekAt_mk]
    simp only [List.getElem?_nil, List.getElem?_cons_succ, Option.getD_none, hfin, Lexeme.finish,
      reduceCtorEq, beq_false_of_ne, Bool.and_false, Bool.false_and, Bool.false_eq_true, false_iff,
      ne_eq, not_false_eq_true]
    exact fun h => nomatch h

/-- Looking at the end of the input does not add to a run of tokens that it is not one of. -/
theorem takeWhile_peekMany {p : Token → Bool} (hp : p fin = false) (i : List Token) (n : Nat) :
    (peekMany ⟨i, fin⟩ n).takeWhile p = (i.takeWhile p).take n := by
  induction i generalizing n with
  | nil => cases n <;> simp [peekMany, List.range_succ_eq_map, peekAt_mk, hp]
  | cons t m ih =>
    cases n with
    | zero => simp [peekMany]
    | succ n =>
      have hshift : peekMany ⟨t :: m, fin⟩ (n + 1) = t :: peekMany ⟨m, fin⟩ n := by
        simp [peekMany, List.range_succ_eq_map, peekAt_mk, Function.comp_def]
      rw [hshift]
      by_cases ht : p t = true
      · rw [List.takeWhile_cons_of_pos ht, List.takeWhile_cons_of_pos ht, ih, List.take_succ_cons]
      · rw [List.takeWhile_cons_of_neg ht, List.takeWhile_cons_of_neg ht, List.take_nil]

theorem not_isBuiltinWord_finish (hfin : fin.toLexeme = .finish) : fin.isBuiltinWord = false := by
  simp [Token.isBuiltinWord, hfin, Lexeme.finish]

theorem builtinRun_mk (hfin : fin.toLexeme = .finish) (i : List Token) :
    builtinRun ⟨i, fin⟩ =
      ((i.takeWhile Token.isBuiltinWord).take maxBuiltinWords).map (·.text) := by
  rw [builtinRun, takeWhile_peekMany (not_isBuiltinWord_finish hfin)]

end Cursor

namespace Reader

variable {α : Type} {i r : List Token} {fin : Token} {c : Cursor}

/-! ## Steps -/

@[simp]
theorem peek_bind (f : Token → Reader α) (c : Cursor) : (peek >>= f) c = f c.peek c :=
  rfl

@[simp]
theorem place_bind (f : Place → Reader α) (c : Cursor) : (place >>= f) c = f c.peek.place c :=
  rfl

@[simp]
theorem get_bind (f : Cursor → Reader α) (c : Cursor) : ((get : Reader Cursor) >>= f) c = f c c :=
  rfl

@[simp]
theorem next_bind_cons (f : Token → Reader α) (t : Token) (i : List Token) (fin : Token) :
    (next >>= f) ⟨t :: i, fin⟩ = f t ⟨i, fin⟩ :=
  rfl

theorem check_of_admits {es : List Expected} (h : es.any (·.admits c.peek) = true) :
    check es c = .ok c.peek c := by
  rw [check, peek_bind, if_pos h]
  rfl

theorem check_of_not_admits {es : List Expected} (h : ¬ es.any (·.admits c.peek) = true) :
    check es c = .error (.unexpected c.peek es) c := by
  rw [check, peek_bind, if_neg h]
  rfl

theorem expect_cons {es : List Expected} {t : Token} (h : es.any (·.admits t)) :
    expect es ⟨t :: i, fin⟩ = .ok t ⟨i, fin⟩ := by
  rw [expect, EStateM.bind_of_ok (check_of_admits h)]
  rfl

theorem expect_of_not_admits {es : List Expected} (h : ¬ es.any (·.admits c.peek) = true) :
    expect es c = .error (.unexpected c.peek es) c := by
  rw [expect, EStateM.bind_of_error (check_of_not_admits h)]

theorem expect_eq_ok_iff {es : List Expected} {t : Token} :
    expect es ⟨i, fin⟩ = .ok t c ↔ ∃ m, i = t :: m ∧ es.any (·.admits t) ∧ c = ⟨m, fin⟩ := by
  constructor
  · intro h
    by_cases hany : es.any (·.admits (Cursor.peek ⟨i, fin⟩)) = true
    · cases i with
      | nil =>
        rw [expect, EStateM.bind_of_ok (check_of_admits hany)] at h
        cases h
      | cons u m =>
        rw [Cursor.peek_cons] at hany
        rw [expect_cons hany] at h
        cases h
        exact ⟨m, rfl, hany, rfl⟩
    · rw [expect_of_not_admits hany] at h
      cases h
  · rintro ⟨m, rfl, hany, rfl⟩
    exact expect_cons hany

theorem take_append (ts : List Token) (i : List Token) (fin : Token) :
    take ts.length ⟨ts ++ i, fin⟩ = .ok ts ⟨i, fin⟩ := by
  induction ts with
  | nil => rfl
  | cons t ts ih =>
    rw [List.length_cons, List.cons_append, take, next_bind_cons, EStateM.bind_of_ok ih]
    rfl

/-! ## Types -/

theorem type_of_standard (hfin : fin.toLexeme = .finish) {root scope name : Token}
    (h : StandardAhead (root :: scope :: name :: i)) :
    type ⟨root :: scope :: name :: i, fin⟩ =
      .ok (.branch .type root.place
        [⟨.word, root.text ++ scope.text ++ name.text, root.place, []⟩]) ⟨i, fin⟩ := by
  have hwords : standardWords ⟨root :: scope :: name :: i, fin⟩ =
      .ok [⟨.word, root.text ++ scope.text ++ name.text, root.place, []⟩] ⟨i, fin⟩ := by
    have htake : take 3 ⟨root :: scope :: name :: i, fin⟩ = .ok [root, scope, name] ⟨i, fin⟩ :=
      take_append [root, scope, name] i fin
    rw [standardWords, place_bind, EStateM.bind_of_ok htake]
    simp [String.join]
  have htype : typeWords ⟨root :: scope :: name :: i, fin⟩ =
      .ok [⟨.word, root.text ++ scope.text ++ name.text, root.place, []⟩] ⟨i, fin⟩ := by
    rw [typeWords, get_bind, if_pos ((Cursor.atStandardName_iff hfin).2 h), hwords]
  rw [type, place_bind, EStateM.bind_of_ok htype]
  rfl

/-- Nothing longer spells a builtin type if nothing does of the words that are looked at. -/
theorem longestBuiltin_take {run tail : List Token} {k : Nat}
    (hrun : (run ++ tail).takeWhile Token.isBuiltinWord = run)
    (hmax : ∀ j, k < j → j ≤ run.length → j ≤ maxBuiltinWords →
      spelling ((run.take j).map (·.text)) ∉ builtinSpellings) (hk : k ≤ run.length) :
    LongestBuiltin (run.take k) (run.drop k ++ tail) := by
  intro more others hne hrest hspells
  -- The run of words goes as far as there are words, so a longer spelling is a part of it.
  have hmore : (run.take k ++ more) <+: run := by
    refine ⟨others.takeWhile Token.isBuiltinWord, ?_⟩
    rw [← List.takeWhile_append_of_pos hspells.isBuiltinWord, List.append_assoc, ← hrest,
      ← List.append_assoc, List.take_append_drop, hrun]
  have hpos := List.length_pos_iff.2 hne
  refine hmax (run.take k ++ more).length ?_ hmore.length_le hspells.length_le ?_
  · rw [List.length_append, List.length_take]
    omega
  · rw [← List.prefix_iff_eq_take.1 hmore]
    exact hspells.spelled

/-- The words that are counted are those that spell the longest builtin type. -/
theorem builtinLength_of_builtin (hfin : fin.toLexeme = .finish) {t : Token} {m : List Token}
    (ht : t.isBuiltinWord = true) :
    ∃ words rest, t :: m = words ++ rest ∧ SpellsBuiltin words ∧ LongestBuiltin words rest ∧
      builtinLength ⟨t :: m, fin⟩ = .ok words.length ⟨t :: m, fin⟩ := by
  obtain ⟨run, tail, hrow, hrun⟩ :
      ∃ run tail, t :: m = run ++ tail ∧ (run ++ tail).takeWhile Token.isBuiltinWord = run :=
    ⟨_, _, List.takeWhile_append_dropWhile.symm, by rw [List.takeWhile_append_dropWhile]⟩
  have hseen : Cursor.builtinRun ⟨t :: m, fin⟩ = (run.take maxBuiltinWords).map (·.text) := by
    rw [Cursor.builtinRun_mk hfin, hrow, hrun]
  obtain ⟨k, hk⟩ : ∃ k, builtinLength? (Cursor.builtinRun ⟨t :: m, fin⟩)
      (Cursor.builtinRun ⟨t :: m, fin⟩).length = some k := by
    rw [Cursor.builtinRun_mk hfin, List.takeWhile_cons_of_pos ht, maxBuiltinWords,
      List.take_succ_cons, List.map_cons]
    exact builtinLength?_isSome (Token.isBuiltinWord_iff.1 ht).2
  rw [hseen] at hk
  obtain ⟨hpos, hle, hspelled, hmax⟩ := builtinLength?_eq_some.1 hk
  rw [List.length_map, List.length_take] at hle hmax
  have htake (j : Nat) (hj : j ≤ maxBuiltinWords) :
      ((run.take maxBuiltinWords).map (·.text)).take j = (run.take j).map (·.text) := by
    rw [← List.map_take, List.take_take, Nat.min_eq_left hj]
  rw [htake k (by omega)] at hspelled
  refine ⟨run.take k, run.drop k ++ tail, ?_, ⟨?_, ?_, hspelled⟩, ?_, ?_⟩
  · rw [hrow, ← List.append_assoc, List.take_append_drop]
  · exact List.ne_nil_of_length_pos (by rw [List.length_take]; omega)
  · intro w hw
    rw [← hrun] at hw
    exact List.all_eq_true.1 List.all_takeWhile w (List.mem_of_mem_take hw)
  · refine longestBuiltin_take hrun (fun j hlt hj hfour => ?_) (by omega)
    rw [← htake j hfour]
    exact hmax j hlt (by omega)
  · rw [builtinLength, get_bind, hseen, List.length_take, Nat.min_eq_left (by omega)]
    simp only [hk]
    rfl

/-- Words of builtin types are read as far as they spell the longest one. -/
theorem type_of_builtin (hfin : fin.toLexeme = .finish) {t : Token} {m : List Token}
    (ht : t.isBuiltinWord = true) :
    ∃ words rest, t :: m = words ++ rest ∧ SpellsBuiltin words ∧ LongestBuiltin words rest ∧
      type ⟨t :: m, fin⟩ =
        .ok (.branch .type (rowPlace words) (words.map (.leaf .word))) ⟨rest, fin⟩ := by
  obtain ⟨words, rest, hrow, hspells, hmax, hlen⟩ := builtinLength_of_builtin hfin ht
  refine ⟨words, rest, hrow, hspells, hmax, ?_⟩
  have hs : ¬ StandardAhead (t :: m) := by
    rintro ⟨-, hroot, -, -, -, -⟩
    simp [Token.isBuiltinWord_iff, hroot, builtinWords] at ht
  have hbuiltin : builtinTypeWords ⟨t :: m, fin⟩ = .ok (words.map (.leaf .word)) ⟨rest, fin⟩ := by
    rw [builtinTypeWords, EStateM.bind_of_ok hlen, hrow, EStateM.bind_of_ok (take_append _ _ _)]
    rfl
  have htype : typeWords ⟨t :: m, fin⟩ = .ok (words.map (.leaf .word)) ⟨rest, fin⟩ := by
    rw [typeWords, get_bind, if_neg (mt (Cursor.atStandardName_iff hfin).1 hs),
      if_pos (by exact ht), hbuiltin]
  have hplace : (Cursor.peek ⟨t :: m, fin⟩).place = rowPlace words := by
    cases words with
    | nil => exact absurd rfl hspells.ne_nil
    | cons w ws =>
      rw [List.cons_append, List.cons.injEq] at hrow
      rw [Cursor.peek_cons, hrow.1]
      rfl
  rw [type, place_bind, EStateM.bind_of_ok htype, hplace]
  rfl

theorem type_of_plain (hfin : fin.toLexeme = .finish) {t : Token} (hk : t.kind = .identifier)
    (ht : t.text ∉ builtinWords) (hs : ¬ StandardAhead (t :: i)) :
    type ⟨t :: i, fin⟩ = .ok (.branch .type t.place [.leaf .word t]) ⟨i, fin⟩ := by
  have hplain : plainWords ⟨t :: i, fin⟩ = .ok [.leaf .word t] ⟨i, fin⟩ := by
    rw [plainWords, EStateM.bind_of_ok (expect_cons (by simp [Expected.admits, hk]))]
    rfl
  have hword : ¬ (Cursor.peek ⟨t :: i, fin⟩).isBuiltinWord = true := by
    simp [Token.isBuiltinWord, ht]
  have htype : typeWords ⟨t :: i, fin⟩ = .ok [.leaf .word t] ⟨i, fin⟩ := by
    rw [typeWords, get_bind, if_neg (mt (Cursor.atStandardName_iff hfin).1 hs), if_neg hword,
      hplain]
  rw [type, place_bind, EStateM.bind_of_ok htype]
  rfl

/-- Where no identifier is next there is no type, and the reader says that one is missing. -/
theorem type_of_no_identifier (hfin : fin.toLexeme = .finish)
    (hk : (Cursor.peek ⟨i, fin⟩).kind ≠ .identifier) :
    type ⟨i, fin⟩ =
      .error (.unexpected (Cursor.peek ⟨i, fin⟩) [.kind .identifier]) ⟨i, fin⟩ := by
  have hs : ¬ StandardAhead i := by
    rintro ⟨hroot, -, -, -, -, -⟩
    exact hk hroot
  have hplain : plainWords ⟨i, fin⟩ =
      .error (.unexpected (Cursor.peek ⟨i, fin⟩) [.kind .identifier]) ⟨i, fin⟩ := by
    rw [plainWords,
      EStateM.bind_of_error (expect_of_not_admits (by simpa [Expected.admits] using hk))]
  have htype : typeWords ⟨i, fin⟩ =
      .error (.unexpected (Cursor.peek ⟨i, fin⟩) [.kind .identifier]) ⟨i, fin⟩ := by
    rw [typeWords, get_bind, if_neg (mt (Cursor.atStandardName_iff hfin).1 hs),
      if_neg (by simp [Token.isBuiltinWord, hk]), hplain]
  rw [type, place_bind, EStateM.bind_of_error htype]

/-- The reader of types reads a type, by a best derivation, or misses an identifier at once. -/
theorem type_cases (hfin : fin.toLexeme = .finish) (i : List Token) :
    (∃ p r, type ⟨i, fin⟩ = .ok p ⟨r, fin⟩ ∧ Derives true .type i r [p]) ∨
      (Cursor.peek ⟨i, fin⟩).kind ≠ .identifier ∧ type ⟨i, fin⟩ =
        .error (.unexpected (Cursor.peek ⟨i, fin⟩) [.kind .identifier]) ⟨i, fin⟩ := by
  by_cases hs : StandardAhead i
  · cases hs with
    | mk h₁ h₂ h₃ h₄ h₅ h₆ =>
      have hs := StandardAhead.mk h₁ h₂ h₃ h₄ h₅ h₆
      exact .inl ⟨_, _, type_of_standard hfin hs, .standard hs⟩
  by_cases hk : (Cursor.peek ⟨i, fin⟩).kind = .identifier
  · cases i with
    | nil =>
      rw [Cursor.peek_nil, hfin] at hk
      cases hk
    | cons t m =>
      rw [Cursor.peek_cons] at hk
      by_cases ht : t.isBuiltinWord = true
      · obtain ⟨words, rest, hrow, hspells, hmax, htype⟩ := type_of_builtin hfin ht (m := m)
        exact .inl ⟨_, rest, htype, hrow ▸ .builtin hspells fun _ => hmax⟩
      · have hw : t.text ∉ builtinWords := fun hw => ht (Token.isBuiltinWord_iff.2 ⟨hk, hw⟩)
        exact .inl ⟨_, m, type_of_plain hfin hk hw hs, .plain hk hw fun _ => hs⟩
  · exact .inr ⟨hk, type_of_no_identifier hfin hk⟩

theorem derives_of_type (hfin : fin.toLexeme = .finish) {p : Phrase}
    (h : type ⟨i, fin⟩ = .ok p c) : ∃ r, c = ⟨r, fin⟩ ∧ Derives true .type i r [p] := by
  rcases type_cases hfin i with ⟨q, r, hq, hd⟩ | ⟨-, herr⟩
  · rw [hq] at h
    cases h
    exact ⟨r, rfl, hd⟩
  · rw [herr] at h
    cases h

/-- The reader of types reads each type that has a best derivation. -/
theorem type_of_derives (hfin : fin.toLexeme = .finish) {ps : List Phrase}
    (h : Derives true .type i r ps) : ∃ p, ps = [p] ∧ type ⟨i, fin⟩ = .ok p ⟨r, fin⟩ := by
  cases h with
  | standard hs => exact ⟨_, rfl, type_of_standard hfin hs⟩
  | @builtin words _ hspells hmax =>
    obtain ⟨t, ts, rfl⟩ := List.exists_cons_of_ne_nil hspells.ne_nil
    obtain ⟨words, rest, hrow, hspells', hmax', htype⟩ :=
      type_of_builtin hfin (hspells.isBuiltinWord t List.mem_cons_self) (m := ts ++ r)
    obtain ⟨rfl, rfl⟩ := (hmax rfl).unique hspells hmax' hspells' hrow
    exact ⟨_, rfl, htype⟩
  | plain hk hw hs => exact ⟨_, rfl, type_of_plain hfin hk hw (hs rfl)⟩

end Reader
end LinkerNames

import LinkerNames.Proofs.Signature.Forward
import LinkerNames.Proofs.Signature.Refusal
import LinkerNames.Proofs.Signature.Turns
import LinkerNames.Proofs.Signature.Yield
/-!
# Readers at any position

The tokens of a text can be looked at and taken step by step, and a reader can be tried wherever one
has come, in the midst of a signature and behind the end of the input. A step never goes back. Where
a reader is tried it takes tokens, and not the end of the input, or it refuses the token that it has
come to (`readers_progress`).
-/

namespace LinkerNames

/-! ## Steps -/

/-- What can be done with the tokens of a text. -/
inductive Step
  /-- Some of the next tokens are looked at, however many. -/
  | look
  | next
  | rest
  | check (expected : List Expected)
  | expect (expected : List Expected)
  | builtinLength
  | read (x : Reader Phrase) (hx : x ∈ Reader.phraseReaders)
  | list (opening closing : String)

/-- Where a step leads, be it that it fails. -/
def Step.after : Step → Cursor → Cursor
  | .look => id
  | .next => Reader.next.stop
  | .rest => Reader.rest.stop
  | .check expected => (Reader.check expected).stop
  | .expect expected => (Reader.expect expected).stop
  | .builtinLength => Reader.builtinLength.stop
  | .read x _ => x.stop
  | .list opening closing => (Reader.list opening closing).stop

/-- The position in a text that some steps lead to. -/
def reached (text : String) (steps : List Step) : Cursor :=
  steps.foldl (fun c step => step.after c) (.ofText text)

namespace Reader

theorem forward_of_mem {x : Reader Phrase} (hx : x ∈ phraseReaders) : Forward x := by
  simp only [phraseReaders, List.mem_cons, List.not_mem_nil, or_false] at hx
  rcases hx with rfl | rfl | rfl | rfl | rfl | rfl
  · exact forward_function
  · exact forward_path
  · exact fun c => forward_genericWith forward_path _ c
  · exact forward_typedElementWith forward_path
  · exact forward_elementWith forward_path
  · exact forward_type

end Reader

/-- A step does not go back. -/
theorem Step.after_behind (step : Step) (c : Cursor) : (step.after c).Behind c := by
  cases step with
  | look => exact .refl c
  | next => exact Reader.forward_next c
  | rest => exact Reader.forward_rest c
  | check expected => exact Reader.forward_check expected c
  | expect expected => exact Reader.forward_expect expected c
  | builtinLength => exact Reader.forward_builtinLength c
  | read x hx => exact Reader.forward_of_mem hx c
  | list opening closing => exact Reader.forward_list opening closing c

theorem reached_behind (text : String) (steps : List Step) :
    (reached text steps).Behind (.ofText text) := by
  induction steps using List.reverseRecOn with
  | nil => exact .refl _
  | append_singleton steps step ih =>
    rw [reached, List.foldl_append]
    exact (step.after_behind _).trans ih

/-- Steps lead to positions of the text. -/
theorem isIn_reached (text : String) (steps : List Step) : (reached text steps).IsIn text := by
  obtain ⟨row, last, htokens, -, -⟩ := tokens_eq_append_finish text
  have h := reached_behind text steps
  rw [ofText_eq text htokens] at h
  exact ⟨htokens ▸ h.ahead, by rw [htokens, List.getLast?_concat, h.finish]⟩

/-! ## What is taken says something -/

/-- No token but the end of the input says so. -/
theorem toLexeme_of_endOfInput {text : String} {t : Token} (ht : t ∈ tokens text)
    (hkind : t.kind = .endOfInput) : t.toLexeme = .finish := by
  obtain ⟨row, last, htokens, hlast, hrow⟩ := tokens_eq_append_finish text
  rw [htokens, List.mem_append, List.mem_singleton] at ht
  rcases ht with ht | rfl
  · exact absurd hkind (hrow t ht)
  · exact hlast

/-- The tokens of the first row, up to where the second begins, are identifiers or have a text. -/
def Says (input rest : List Token) : Prop :=
  ∃ taken, input = taken ++ rest ∧ ∀ t ∈ taken, t.kind = .identifier ∨ t.text ≠ ""

theorem Says.trans {i m r : List Token} (h : Says i m) (h' : Says m r) : Says i r := by
  obtain ⟨taken, rfl, htaken⟩ := h
  obtain ⟨taken', rfl, htaken'⟩ := h'
  refine ⟨taken ++ taken', (List.append_assoc ..).symm, fun t ht => ?_⟩
  exact (List.mem_append.1 ht).elim (htaken t) (htaken' t)

theorem says_cons {t : Token} {m r : List Token} (ht : t.kind = .identifier ∨ t.text ≠ "")
    (h : Says m r) : Says (t :: m) r :=
  Says.trans ⟨[t], rfl, by simpa using ht⟩ h

theorem says_refl (r : List Token) : Says r r :=
  ⟨[], rfl, by simp⟩

theorem Derives.says {best : Bool} {cat : Category} {i r : List Token} {ps : List Phrase}
    (h : Derives best cat i r ps) (hcat : cat.HasBrackets) : Says i r := by
  induction h with
  | standard hs =>
    cases hs with
    | mk hk _ hscope hk' =>
      exact says_cons (.inl hk) (says_cons (.inr (by simp [hscope]))
        (says_cons (.inl hk') (says_refl _)))
  | @builtin words _ hw =>
    exact ⟨words, rfl, fun t ht => .inl (Token.isBuiltinWord_iff.1 (hw.isBuiltinWord t ht)).1⟩
  | plain hk => exact says_cons (.inl hk) (says_refl _)
  | generic _ ih => exact ih ⟨by simp, by simp⟩
  | segment _ ih | last _ ih | path _ ih | elementType _ ih | elementPath _ _ ih
  | single _ ih => exact ih trivial
  | segmentGeneric _ _ ih ih' => exact (ih trivial).trans (ih' trivial)
  | scope _ hmark _ ih ih' | comma _ hmark _ ih ih' =>
    exact (ih trivial).trans (says_cons (.inr (by simp [hmark])) (ih' trivial))
  | @typedElement _ marks _ _ _ _ hm ih =>
    refine (ih trivial).trans ⟨marks, rfl, fun t ht => .inr ?_⟩
    obtain ⟨p, -, hp⟩ := hm.exists_of_mem_left ht
    rcases Reader.text_of_markLeaf hp with h | h | h <;> simp [h]
  | empty ho hc =>
    obtain ⟨hopening, hclosing⟩ := hcat
    exact says_cons (.inr (ho ▸ hopening)) (says_cons (.inr (hc ▸ hclosing)) (says_refl _))
  | list ho _ hc ih =>
    obtain ⟨hopening, hclosing⟩ := hcat
    exact says_cons (.inr (ho ▸ hopening))
      ((ih trivial).trans (says_cons (.inr (hc ▸ hclosing)) (says_refl _)))
  | function _ _ ih ih' => exact (ih trivial).trans (ih' ⟨by simp, by simp⟩)
  | constFunction _ _ hmark ih ih' =>
    exact ((ih trivial).trans (ih' ⟨by simp, by simp⟩)).trans
      (says_cons (.inr (by simp [hmark])) (says_refl _))

/-! ## Refusals -/

namespace Reader

variable {α : Type} {i : List Token} {fin : Token}

/-- Where a reader fails it refuses the next token. -/
def Refuses (x : Reader α) (c : Cursor) : Prop :=
  ∀ e c', x c = .error e c' → ∃ es, e = .unexpected c'.peek es

theorem Sticks.refuses {x : Reader α} {item : Item} (h : Sticks x item i fin) :
    Refuses x ⟨i, fin⟩ := by
  intro e c hx
  obtain ⟨r, es, rfl, rfl, -⟩ := h e c hx
  exact ⟨es, rfl⟩

theorem refuses_typedElementsWith {path : Reader Phrase} {closing : String}
    (hsound : Sound path .path ([·]))
    (hpath : ∀ i fin, fin.toLexeme = .finish → Refuses path ⟨i, fin⟩) (hclosing : closing ≠ "")
    (turns : Nat) (hfin : fin.toLexeme = .finish) :
    Refuses (typedElementsWith path closing turns) ⟨i, fin⟩ := by
  have hes : [Expected.text ",", .text closing].any (·.admits fin) = false := by
    simp [Expected.admits, hfin, Lexeme.finish, Ne.symm hclosing]
  induction turns generalizing i with
  | zero =>
    intro e c h
    cases h
    exact ⟨_, rfl⟩
  | succ turns ih =>
    intro e c h
    rw [typedElementsWith, EStateM.bind_eq_error_iff] at h
    rcases h with h | ⟨first, c', hfirst, h⟩
    · exact hpath i fin hfin e c (typedElementWith_eq_error h)
    obtain ⟨m, rfl, -⟩ := sound_typedElementWith hsound i fin first c' hfin hfirst
    rw [EStateM.bind_eq_error_iff] at h
    rcases h with h | ⟨t, c'', ht, h⟩
    · obtain ⟨rfl, rfl, -⟩ := expect_eq_error hes h
      exact ⟨_, rfl⟩
    obtain ⟨r, rfl, -, rfl⟩ := expect_eq_ok_iff.1 ht
    split at h
    · cases h
    · rw [EStateM.bind_eq_error_iff] at h
      rcases h with h | ⟨_, _, -, h⟩
      · exact ih e c h
      · cases h

theorem refuses_path (hfin : fin.toLexeme = .finish) : Refuses path ⟨i, fin⟩ :=
  (sticks_path hfin).refuses

/-- A list between any two brackets refuses the token where it is stuck. -/
theorem refuses_list {opening closing : String} (hopening : opening ≠ "") (hclosing : closing ≠ "")
    (hfin : fin.toLexeme = .finish) : Refuses (list opening closing) ⟨i, fin⟩ := by
  intro e c h
  rcases listWith_eq_error hopening hclosing hfin h with
    ⟨rfl, rfl, -⟩ | ⟨first, m, -, -, -, h⟩
  · exact ⟨_, rfl⟩
  · exact refuses_typedElementsWith sound_path (fun i fin hfin => refuses_path hfin) hclosing _ hfin
      e c h

theorem refuses_of_mem {x : Reader Phrase} (hx : x ∈ phraseReaders)
    (hfin : fin.toLexeme = .finish) : Refuses x ⟨i, fin⟩ := by
  simp only [phraseReaders, List.mem_cons, List.not_mem_nil, or_false] at hx
  rcases hx with rfl | rfl | rfl | rfl | rfl | rfl
  · exact (sticks_function hfin).refuses
  · exact refuses_path hfin
  · intro e c h
    change (place >>= _) _ = _ at h
    rw [place_bind, EStateM.bind_eq_error_iff] at h
    rcases h with h | ⟨_, _, -, h⟩
    · exact refuses_list (by simp) (by simp) hfin e c h
    · cases h
  · intro e c h
    exact refuses_path hfin e c (typedElementWith_eq_error h)
  · intro e c h
    rw [element, elementWith, EStateM.bind_eq_error_iff] at h
    rcases h with h | ⟨_, _, -, h⟩
    · exact refuses_path hfin e c h
    · cases h
  · intro e c h
    obtain ⟨rfl, rfl, -⟩ := type_eq_error hfin h
    exact ⟨_, rfl⟩

/-! ## Main theorem -/

/-- A reader answers and has taken tokens, not the end of the input, or it refuses the next token of
where it has come to. -/
def Progresses (x : Reader α) (c : Cursor) : Prop :=
  (∃ a c' taken, x c = .ok a c' ∧ c'.finish = c.finish ∧ c.ahead = taken ++ c'.ahead ∧
      taken ≠ [] ∧ ∀ t ∈ taken, t.kind ≠ .endOfInput) ∨
    ∃ es c', x c = .error (.unexpected c'.peek es) c' ∧ c'.Behind c

theorem progresses {x : Reader α} {cat : Category} {view : α → List Phrase} {text : String}
    {c : Cursor} (hsound : Sound x cat view) (hcat : cat.HasBrackets) (hforward : Forward x)
    (hrefuses : Refuses x c) (hc : c.IsIn text) : Progresses x c := by
  cases h : x c with
  | ok a c' =>
    obtain ⟨r, rfl, hd⟩ := hsound c.ahead c.finish a c' hc.toLexeme_finish h
    obtain ⟨taken, htaken, hsays⟩ := hd.says hcat
    rw [htaken] at hd
    refine .inl ⟨a, _, taken, h, rfl, htaken, hd.taken_ne_nil, fun t ht hkind => ?_⟩
    have hmem : t ∈ tokens text := hc.ahead.subset (htaken ▸ List.mem_append_left r ht)
    have hfinish := toLexeme_of_endOfInput hmem hkind
    rcases hsays t ht with h | h <;> simp [hfinish, Lexeme.finish] at h
  | error e c' =>
    obtain ⟨es, rfl⟩ := hrefuses e c' h
    have hbehind := hforward c
    rw [stop, h] at hbehind
    exact .inr ⟨es, c', h, hbehind⟩

end Reader

/-- Wherever steps lead to in a text, each reader, and the reader of lists between any two brackets,
takes tokens but not the end of the input, or refuses the token that it has come to. None of them
can go on without end: it is called again with fewer tokens ahead. -/
theorem readers_progress (text : String) (steps : List Step) :
    (∀ x ∈ Reader.phraseReaders, Reader.Progresses x (reached text steps)) ∧
      (∀ opening closing, opening ≠ "" → closing ≠ "" →
        Reader.Progresses (Reader.list opening closing) (reached text steps)) ∧
      Reader.Descends (reached text steps) := by
  have hin := isIn_reached text steps
  have hfin := hin.toLexeme_finish
  refine ⟨fun x hx => ?_, fun opening closing hopening hclosing => ?_, Reader.descends hfin⟩
  · obtain ⟨cat, hsound, hcat, -⟩ := Reader.exists_sound hx
    exact Reader.progresses hsound hcat (Reader.forward_of_mem hx)
      (Reader.refuses_of_mem hx hfin) hin
  · have hsound : Reader.Sound (Reader.list opening closing) (.list opening closing) id :=
      fun i fin a c hfin h => Reader.sound_listWith Reader.sound_path hclosing _ i fin a c hfin h
    exact Reader.progresses hsound ⟨hopening, hclosing⟩ (Reader.forward_list opening closing)
      (Reader.refuses_list hopening hclosing hfin) hin

/-- A word can be the bracket and a comma can close the list. Behind the end of the input there is
nothing to take. -/
theorem readers_progress_comma :
    Reader.Progresses (Reader.list "int" ",") (reached "f(int x& const, y)" [.next, .next]) ∧
      Reader.Progresses (Reader.list "int" ",") (reached "f(int x& const, y)" [.rest, .next]) := by
  have hword : "int" ≠ "" := by decide
  have hcomma : "," ≠ "" := by decide
  exact ⟨(readers_progress _ _).2.1 _ _ hword hcomma, (readers_progress _ _).2.1 _ _ hword hcomma⟩

end LinkerNames

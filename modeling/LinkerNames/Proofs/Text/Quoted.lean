import LinkerNames.Text.Quoted
/-!
# Quoted text can be read back

An escape says which character it stands for and where it ends (`unescape_escape`), and none begins
with the quote in use. So a quoted text says what the text is and where it ends, whatever comes
behind the quote (`showsEnd_quote`). All its characters are printable, and no line ends at a
printable character.
-/

namespace LinkerNames.Text

/-! ## Texts that say where they end -/

/-- What is shown of this thing says what it is, and where it ends, whatever comes behind. -/
def ShowsEnd {α : Type} (shown : α → List Char) (a : α) : Prop :=
  ∀ b r s, shown a ++ r = shown b ++ s → a = b ∧ r = s

/-- Of two texts with a common beginning one begins the other. -/
theorem append_inj_of_isPrefix {a b r s : List Char} (hab : a <+: b → a = b)
    (hba : b <+: a → b = a) (h : a ++ r = b ++ s) : a = b ∧ r = s := by
  have heq : a = b := by
    rcases List.append_eq_append_iff.1 h with ⟨t, hb, -⟩ | ⟨t, ha, -⟩
    · exact hab ⟨t, hb.symm⟩
    · exact (hba ⟨t, ha.symm⟩).symm
  subst heq
  exact ⟨rfl, List.append_cancel_left h⟩

/-! ## Hexadecimal digits -/

/-- The number that a digit stands for; letters are digits from ten on. -/
def digitValue (c : Char) : Nat :=
  if c.isDigit then c.toNat - '0'.toNat else c.toNat - 'a'.toNat + 10

/-- The number that hexadecimal digits stand for. -/
def ofHexDigits (cs : List Char) : Nat :=
  cs.foldl (fun n c => 16 * n + digitValue c) 0

theorem digitValue_digitChar : ∀ d < 16, digitValue (Nat.digitChar d) = d := by
  decide

theorem length_hexDigits (width n : Nat) : (hexDigits width n).length = width := by
  simp [hexDigits]

/-- The last digit is that of the remainder, and those before it are the digits of the quotient. -/
theorem hexDigits_succ (width n : Nat) :
    hexDigits (width + 1) n = hexDigits width (n / 16) ++ [Nat.digitChar (n % 16)] := by
  have hlast : n / Nat.pow 16 (width + 1 - 1 - width) % 16 = n % 16 := by
    rw [Nat.add_sub_cancel, Nat.sub_self]
    exact congrArg (· % 16) (Nat.div_one n)
  rw [hexDigits, List.range_succ, List.map_append, List.map_singleton, hlast, hexDigits]
  congr 1
  refine List.map_congr_left fun i hi => ?_
  have hplace : width + 1 - 1 - i = width - 1 - i + 1 := by
    have := List.mem_range.1 hi
    omega
  have hpow : Nat.pow 16 (width - 1 - i + 1) = 16 * Nat.pow 16 (width - 1 - i) := Nat.mul_comm _ _
  rw [hplace, hpow, Nat.div_div_eq_div_mul]

theorem ofHexDigits_hexDigits (width n : Nat) :
    ofHexDigits (hexDigits width n) = n % Nat.pow 16 width := by
  induction width generalizing n with
  | zero => exact (Nat.mod_one n).symm
  | succ width ih =>
    have hpow : Nat.pow 16 (width + 1) = 16 * Nat.pow 16 width := Nat.mul_comm _ _
    have hdigit := digitValue_digitChar (n % 16) (Nat.mod_lt n (by decide))
    unfold ofHexDigits at ih ⊢
    rw [hexDigits_succ, List.foldl_append, List.foldl_cons, List.foldl_nil, ih, hdigit, hpow,
      Nat.mod_mul]
    omega

/-! ## Escapes -/

/-- The character whose code point has these many digits at the beginning of a text, and what comes
behind them. -/
def takeCode (width : Nat) (cs : List Char) : Char × List Char :=
  (Char.ofNat (ofHexDigits (cs.take width)), cs.drop width)

/-- The character that a text begins with as it stands between quotes, and what comes behind it. -/
def unescape : List Char → Option (Char × List Char)
  | [] => none
  | c :: cs =>
    if c ≠ backslash then some (c, cs)
    else match cs with
      | [] => none
      | 'n' :: cs => some ('\n', cs)
      | 'r' :: cs => some ('\r', cs)
      | 't' :: cs => some ('\t', cs)
      | 'x' :: cs => some (takeCode 2 cs)
      | 'u' :: cs => some (takeCode 4 cs)
      | 'U' :: cs => some (takeCode 8 cs)
      | c :: cs => some (c, cs)

/-- One of the two characters that a text is put between. -/
def IsQuote (q : Char) : Prop :=
  q = singleQuote ∨ q = doubleQuote

theorem isQuote_quoteFor (cs : List Char) : IsQuote (quoteFor cs) := by
  unfold quoteFor
  split
  · exact .inr rfl
  · exact .inl rfl

theorem takeCode_hexDigits {width : Nat} {c : Char} (h : c.toNat < Nat.pow 16 width)
    (r : List Char) : takeCode width (hexDigits width c.toNat ++ r) = (c, r) := by
  rw [takeCode, List.take_left' (length_hexDigits _ _), List.drop_left' (length_hexDigits _ _),
    ofHexDigits_hexDigits, Nat.mod_eq_of_lt h, Char.ofNat_toNat]

theorem unescape_escapeCode (c : Char) (r : List Char) :
    unescape (escapeCode c ++ r) = some (c, r) := by
  unfold escapeCode
  dsimp only
  split
  next h => exact congrArg some (takeCode_hexDigits h r)
  split
  next h => exact congrArg some (takeCode_hexDigits h r)
  next =>
    have h : c.toNat < Nat.pow 16 8 := c.val.toNat_lt
    exact congrArg some (takeCode_hexDigits h r)

/-- What is escaped can be read back, whatever comes behind. -/
theorem unescape_escape {q : Char} (hq : IsQuote q) (c : Char) (r : List Char) :
    unescape (escape q c ++ r) = some (c, r) := by
  unfold escape
  split
  next h =>
    have hc : c = singleQuote ∨ c = doubleQuote ∨ c = backslash := by
      rcases h with rfl | rfl
      · exact hq.imp_right .inl
      · exact .inr (.inr rfl)
    rcases hc with rfl | rfl | rfl <;> rfl
  next h =>
    split
    next hc => rw [hc]; rfl
    split
    next hc => rw [hc]; rfl
    split
    next hc => rw [hc]; rfl
    split
    next => exact if_pos fun hc => h (.inr hc)
    next => exact unescape_escapeCode c r

theorem showsEnd_escape {q : Char} (hq : IsQuote q) (c : Char) : ShowsEnd (escape q) c := by
  intro d r s h
  have hread := unescape_escape hq c r
  rw [h, unescape_escape hq d s] at hread
  cases hread
  exact ⟨rfl, rfl⟩

/-! ## Printable characters -/

/-- The characters that end a line somewhere or other. -/
def lineBreaks : List Char :=
  ['\n', '\r', '\x0b', '\x0c', '\x1c', '\x1d', '\x1e', '\u0085', '\u2028', '\u2029']

/-- No line ends at a printable character. -/
theorem not_mem_lineBreaks {c : Char} (h : isPrintable c = true) : c ∉ lineBreaks := by
  have hall : lineBreaks.all (!isPrintable ·) = true := by decide +kernel
  intro hc
  have hnot := List.all_eq_true.1 hall c hc
  rw [h] at hnot
  cases hnot

theorem isPrintable_of_mem_hexDigits {width n : Nat} {c : Char} (h : c ∈ hexDigits width n) :
    isPrintable c = true := by
  have hdigits : ∀ d < 16, isPrintable (Nat.digitChar d) = true := by decide
  obtain ⟨i, -, rfl⟩ := List.mem_map.1 h
  exact hdigits _ (Nat.mod_lt _ (by decide))

theorem IsQuote.isPrintable {q : Char} (hq : IsQuote q) : isPrintable q = true := by
  rcases hq with rfl | rfl <;> decide

theorem escapeCode_eq_cons (c : Char) :
    ∃ d width, escapeCode c = backslash :: d :: hexDigits width c.toNat ∧
      isPrintable d = true := by
  unfold escapeCode
  dsimp only
  split
  next => exact ⟨'x', 2, rfl, by decide⟩
  split
  next => exact ⟨'u', 4, rfl, by decide⟩
  next => exact ⟨'U', 8, rfl, by decide⟩

/-- A character stands as it is, or what stands for it begins with a backslash. -/
theorem escape_cases {q : Char} (hq : IsQuote q) (c : Char) :
    (escape q c = [c] ∧ c ≠ q ∧ isPrintable c = true) ∨
      ∃ ds, escape q c = backslash :: ds ∧ ∀ d ∈ ds, isPrintable d = true := by
  unfold escape
  split
  next h =>
    refine .inr ⟨_, rfl, fun d hd => ?_⟩
    obtain rfl := List.mem_singleton.1 hd
    rcases h with rfl | rfl
    · exact hq.isPrintable
    · decide
  next h =>
    split
    next => exact .inr ⟨_, rfl, List.forall_mem_singleton.2 (by decide)⟩
    split
    next => exact .inr ⟨_, rfl, List.forall_mem_singleton.2 (by decide)⟩
    split
    next => exact .inr ⟨_, rfl, List.forall_mem_singleton.2 (by decide)⟩
    split
    next hc => exact .inl ⟨rfl, fun heq => h (.inl heq), hc⟩
    next =>
      obtain ⟨d, width, hcode, hd⟩ := escapeCode_eq_cons c
      exact .inr ⟨_, hcode, List.forall_mem_cons.2 ⟨hd, fun _ => isPrintable_of_mem_hexDigits⟩⟩

/-- No escape begins with the quote in use. -/
theorem escape_eq_cons {q : Char} (hq : IsQuote q) (c : Char) :
    ∃ d ds, escape q c = d :: ds ∧ d ≠ q := by
  rcases escape_cases hq c with ⟨hescape, hc, -⟩ | ⟨ds, hescape, -⟩
  · exact ⟨c, [], hescape, hc⟩
  · refine ⟨backslash, ds, hescape, ?_⟩
    rcases hq with rfl | rfl <;> decide

theorem isPrintable_of_mem_escape {q : Char} (hq : IsQuote q) {c d : Char} (h : d ∈ escape q c) :
    isPrintable d = true := by
  rcases escape_cases hq c with ⟨hescape, -, hc⟩ | ⟨ds, hescape, hds⟩
  · rw [hescape] at h
    exact List.mem_singleton.1 h ▸ hc
  · rw [hescape] at h
    rcases List.mem_cons.1 h with rfl | h
    · decide
    · exact hds d h

/-! ## Quoted texts -/

/-- Between quotes a text ends where the quote comes again. -/
theorem flatMap_escape_append_inj {q : Char} (hq : IsQuote q) {cs ds r s : List Char}
    (h : cs.flatMap (escape q) ++ q :: r = ds.flatMap (escape q) ++ q :: s) :
    cs = ds ∧ r = s := by
  induction cs generalizing ds with
  | nil =>
    cases ds with
    | nil => exact ⟨rfl, (List.cons.inj h).2⟩
    | cons d ds =>
      -- Where the first text has its quote the second goes on with an escape.
      obtain ⟨e, es, hescape, he⟩ := escape_eq_cons hq d
      rw [List.flatMap_cons, hescape] at h
      exact absurd (List.cons.inj h).1.symm he
  | cons c cs ih =>
    cases ds with
    | nil =>
      obtain ⟨e, es, hescape, he⟩ := escape_eq_cons hq c
      rw [List.flatMap_cons, hescape] at h
      exact absurd (List.cons.inj h).1 he
    | cons d ds =>
      rw [List.flatMap_cons, List.flatMap_cons, List.append_assoc, List.append_assoc] at h
      obtain ⟨rfl, hrest⟩ := showsEnd_escape hq c d _ _ h
      obtain ⟨rfl, hr⟩ := ih hrest
      exact ⟨rfl, hr⟩

theorem quote_eq_cons (cs : List Char) :
    quote cs = quoteFor cs :: (cs.flatMap (escape (quoteFor cs)) ++ [quoteFor cs]) :=
  rfl

/-- A quoted text says what the text is, and where it ends. -/
theorem showsEnd_quote (cs : List Char) : ShowsEnd quote cs := by
  intro ds r s h
  rw [quote_eq_cons, quote_eq_cons, List.cons_append, List.cons_append, List.append_assoc,
    List.append_assoc, List.cons.injEq] at h
  obtain ⟨hquote, h⟩ := h
  rw [← hquote] at h
  exact flatMap_escape_append_inj (isQuote_quoteFor cs) h

/-- Every character of a quoted text is printable. -/
theorem isPrintable_of_mem_quote {cs : List Char} {c : Char} (h : c ∈ quote cs) :
    isPrintable c = true := by
  have hquote := isQuote_quoteFor cs
  rw [quote_eq_cons, List.mem_cons, List.mem_append, List.mem_singleton] at h
  rcases h with rfl | h | rfl
  · exact hquote.isPrintable
  · obtain ⟨d, -, h⟩ := List.mem_flatMap.1 h
    exact isPrintable_of_mem_escape hquote h
  · exact hquote.isPrintable

end LinkerNames.Text

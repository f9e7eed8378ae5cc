import LinkerNames.Encoding.Encoder
import LinkerNames.Proofs.Symbol.Folding
import LinkerNames.Proofs.Text.Quoted
/-!
# Texts without parts

What stands in a linker name for a type, and the reference back. Such a text says where it ends:
none begins another, and a name of which the length comes first is as long as its digits say. None
begins with a letter that is written for a qualifier or for a bracket.
-/

namespace LinkerNames

/-- The letters that are written around other texts. -/
def structureLetters : List Char := ['E', 'I', 'K', 'N', 'P', 'R']

/-- The texts that are written as they stand in a table. -/
def fixedTexts : List (List Char) :=
  ['S', '_'] :: typeCodes.map (·.2.toList)

/-- A text without parts: one of the table, or a name after its length. -/
inductive IsAtom : List Char → Prop
  | fixed {text : List Char} : text ∈ fixedTexts → IsAtom text
  | name {name : String} : IsName name → IsAtom (lengthPrefixed name).toList

/-! ## The table -/

theorem eq_of_prefix_fixedText : ∀ a ∈ fixedTexts, ∀ b ∈ fixedTexts, a <+: b → a = b := by
  decide +kernel

/-- Whether a text begins otherwise than a bracket, a qualifier or a number. -/
def beginsPlain : List Char → Bool
  | [] => false
  | c :: _ => !c.isDigit && !structureLetters.contains c

theorem fixedText_eq_cons {a : List Char} (h : a ∈ fixedTexts) :
    ∃ c cs, a = c :: cs ∧ c.isDigit = false ∧ c ∉ structureLetters := by
  have hall : ∀ a ∈ fixedTexts, beginsPlain a = true := by decide +kernel
  have ha := hall a h
  cases a with
  | nil => cases ha
  | cons c cs =>
    obtain ⟨hdigit, hletter⟩ : c.isDigit = false ∧ c ∉ structureLetters := by
      simpa [beginsPlain] using ha
    exact ⟨c, cs, rfl, hdigit, hletter⟩

/-- Names of builtin types and of the standard library have codes. -/
theorem typeCode?_isSome : (∀ name ∈ builtinSpellings, (typeCode? name).isSome = true) ∧
    ∀ name ∈ standardNames, (typeCode? ("std::" ++ name)).isSome = true := by
  decide +kernel

theorem code_ne_backReference : ∀ entry ∈ typeCodes, entry.2.toList ≠ ['S', '_'] := by
  decide +kernel

theorem mem_typeCodes {name code : String} (h : typeCode? name = some code) :
    (name, code) ∈ typeCodes := by
  obtain ⟨before, after, htable, -⟩ := List.lookup_eq_some_iff.1 h
  simp [htable]

theorem mem_of_typeCode? {name code : String} (h : typeCode? name = some code) :
    code.toList ∈ fixedTexts ∧ code.toList ≠ ['S', '_'] := by
  have hmem := mem_typeCodes h
  exact ⟨List.mem_cons_of_mem _ (List.mem_map_of_mem (f := (·.2.toList)) hmem),
    code_ne_backReference _ hmem⟩

/-! ## Names after their lengths -/

theorem toList_lengthPrefixed (name : String) :
    (lengthPrefixed name).toList = Nat.toDigits 10 name.length ++ name.toList := by
  simp [lengthPrefixed]

theorem toDigits_inj {m n : Nat} (h : Nat.toDigits 10 m = Nat.toDigits 10 n) : m = n := by
  rw [← Nat.ofDigitChars_ten_toDigits (n := m), h, Nat.ofDigitChars_ten_toDigits]

theorem isDigit_of_mem_toDigits {n : Nat} {c : Char} (h : c ∈ Nat.toDigits 10 n) :
    c.isDigit = true :=
  Nat.isDigit_of_mem_toDigits (by omega) (by omega) h

theorem isDigit_of_isNameStart {c : Char} (h : isNameStart c = true) : c.isDigit = false := by
  refine Bool.eq_false_iff.2 fun hd => ?_
  have hle : c.toNat ≤ '9'.toNat := (Char.isDigit_iff_toNat.1 hd).2
  have hlt : '9'.toNat < c.toNat := by
    change (c.isUpper || c.isLower || c == '_') = true at h
    rcases (Bool.or_eq_true_iff.1 h).imp_left Bool.or_eq_true_iff.1 with (h | h) | h
    · have hupper : 'A'.val ≤ c.val ∧ c.val ≤ 'Z'.val := of_decide_eq_true h
      exact Nat.lt_of_lt_of_le (by decide) (UInt32.le_iff_toNat_le.1 hupper.1)
    · have hlower : 'a'.val ≤ c.val := of_decide_eq_true (Bool.and_eq_true_iff.1 h).1
      exact Nat.lt_of_lt_of_le (by decide) (UInt32.le_iff_toNat_le.1 hlower)
    · obtain rfl : c = '_' := eq_of_beq h
      decide
  omega

/-- The digits of a name after its length end where the name begins. -/
theorem IsName.takeWhile_isDigit {name : String} (h : IsName name) (r : List Char) :
    ((lengthPrefixed name).toList ++ r).takeWhile Char.isDigit = Nat.toDigits 10 name.length := by
  obtain ⟨c, cs, hname, hc, -⟩ := h
  rw [toList_lengthPrefixed, hname, List.append_assoc, List.cons_append,
    List.takeWhile_append_of_pos fun d hd => isDigit_of_mem_toDigits hd,
    List.takeWhile_cons_of_neg (by simp [isDigit_of_isNameStart hc]), List.append_nil]

theorem lengthPrefixed_append_inj {m n : String} {r s : List Char} (hm : IsName m) (hn : IsName n)
    (h : (lengthPrefixed m).toList ++ r = (lengthPrefixed n).toList ++ s) : m = n ∧ r = s := by
  have hlength : m.length = n.length := by
    apply toDigits_inj
    rw [← hm.takeWhile_isDigit r, h, hn.takeWhile_isDigit s]
  rw [toList_lengthPrefixed, toList_lengthPrefixed, hlength, List.append_assoc, List.append_assoc,
    List.append_cancel_left_eq] at h
  obtain ⟨hname, hrest⟩ := List.append_inj h hlength
  exact ⟨String.toList_inj.1 hname, hrest⟩

theorem lengthPrefixed_eq_cons (name : String) :
    ∃ c cs, (lengthPrefixed name).toList = c :: cs ∧ c.isDigit = true := by
  obtain ⟨c, cs, hdigits⟩ := List.exists_cons_of_ne_nil (Nat.toDigits_ne_nil (n := name.length))
  exact ⟨c, cs ++ name.toList, by rw [toList_lengthPrefixed, hdigits, List.cons_append],
    isDigit_of_mem_toDigits (hdigits ▸ List.mem_cons_self)⟩

/-! ## Atoms -/

namespace IsAtom

variable {a b r s : List Char}

/-- No atom begins like a bracket or a qualifier. -/
theorem eq_cons (h : IsAtom a) : ∃ c cs, a = c :: cs ∧ c ∉ structureLetters := by
  cases h with
  | fixed h =>
    obtain ⟨c, cs, rfl, -, hc⟩ := fixedText_eq_cons h
    exact ⟨c, cs, rfl, hc⟩
  | @name n _ =>
    obtain ⟨c, cs, hn, hc⟩ := lengthPrefixed_eq_cons n
    refine ⟨c, cs, hn, fun hmem => ?_⟩
    have hletters : structureLetters.all (!·.isDigit) = true := by decide
    have hnot := List.all_eq_true.1 hletters c hmem
    rw [hc] at hnot
    cases hnot

theorem fixed_ne_name {name : String} (h : a ∈ fixedTexts) :
    a ++ r ≠ (lengthPrefixed name).toList ++ s := by
  obtain ⟨c, cs, rfl, hc, -⟩ := fixedText_eq_cons h
  obtain ⟨d, ds, hname, hd⟩ := lengthPrefixed_eq_cons name
  rw [hname]
  intro heq
  obtain rfl : c = d := (List.cons.inj heq).1
  rw [hc] at hd
  cases hd

/-- An atom says where it ends. -/
theorem append_inj (ha : IsAtom a) (hb : IsAtom b) (h : a ++ r = b ++ s) : a = b ∧ r = s := by
  cases ha with
  | fixed ha =>
    cases hb with
    | fixed hb =>
      exact Text.append_inj_of_isPrefix (eq_of_prefix_fixedText a ha b hb)
        (eq_of_prefix_fixedText b hb a ha) h
    | name => exact absurd h (fixed_ne_name ha)
  | name hm =>
    cases hb with
    | fixed hb => exact absurd h.symm (fixed_ne_name hb)
    | name hn =>
      obtain ⟨rfl, hrest⟩ := lengthPrefixed_append_inj hm hn h
      exact ⟨rfl, hrest⟩

end IsAtom

/-- Among the names that a signature can give to a type only identifiers have no code. -/
theorem IsTypeName.isName_of_no_code {name : String} (h : IsTypeName name)
    (hcode : typeCode? name = none) : IsName name ∧ name ∉ keywords := by
  cases h with
  | builtin h =>
    have := typeCode?_isSome.1 _ h
    rw [hcode] at this
    cases this
  | standard h =>
    have := typeCode?_isSome.2 _ h
    rw [hcode] at this
    cases this
  | plain hname hkeyword => exact ⟨hname, hkeyword⟩

/-- What is written for a type is an atom, and not the reference back. -/
theorem IsTypeName.isAtom {name : String} (h : IsTypeName name) :
    IsAtom (encodeType name).toList ∧ (encodeType name).toList ≠ ['S', '_'] := by
  cases hcode : typeCode? name with
  | some code =>
    obtain ⟨hmem, hne⟩ := mem_of_typeCode? hcode
    rw [encodeType, hcode]
    exact ⟨.fixed hmem, hne⟩
  | none =>
    obtain ⟨c, cs, htext, hc⟩ := lengthPrefixed_eq_cons name
    rw [encodeType, hcode]
    refine ⟨.name (h.isName_of_no_code hcode).1, fun heq => ?_⟩
    rw [Option.getD_none, htext] at heq
    cases heq
    cases hc

end LinkerNames

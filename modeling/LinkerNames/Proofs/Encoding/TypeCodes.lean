import LinkerNames.Proofs.Encoding.Atoms
/-!
# What is written for names of types

A name without a code is written behind its length, whatever its characters are, and it may begin
with digits itself. It is known from what is written all the same, since a longer name has no fewer
digits in front. So two names are written alike only if the table gives them the same code
(`encodeType_eq_iff`). The names that signatures give to types do not begin with digits, so that
what is written for them says where it ends.
-/

namespace LinkerNames

/-! ## Names behind their lengths -/

/-- A larger number has no fewer digits. -/
theorem length_toDigits_mono {m n : Nat} (h : m ≤ n) :
    (Nat.toDigits 10 m).length ≤ (Nat.toDigits 10 n).length := by
  have hn := (Nat.length_toDigits_le_iff (by decide) Nat.length_toDigits_pos).1
    (Nat.le_refl (Nat.toDigits 10 n).length)
  exact (Nat.length_toDigits_le_iff (by decide) Nat.length_toDigits_pos).2 (Nat.lt_of_le_of_lt h hn)

theorem length_toList_lengthPrefixed (name : String) :
    (lengthPrefixed name).toList.length = (Nat.toDigits 10 name.length).length + name.length := by
  rw [toList_lengthPrefixed, List.length_append, String.length_toList]

/-- Any name is known from its text behind its length. -/
theorem lengthPrefixed_injective : Function.Injective lengthPrefixed := by
  intro a b h
  have htext : (lengthPrefixed a).toList = (lengthPrefixed b).toList := by rw [h]
  -- Digits and characters together are more the longer the name is, so their number tells its length.
  have hlength : a.length = b.length := by
    have hsum := congrArg List.length htext
    rw [length_toList_lengthPrefixed, length_toList_lengthPrefixed] at hsum
    rcases Nat.le_total a.length b.length with hle | hle
    · have hdigits := length_toDigits_mono hle
      omega
    · have hdigits := length_toDigits_mono hle
      omega
  rw [toList_lengthPrefixed, toList_lengthPrefixed, hlength] at htext
  exact String.toList_inj.1 (List.append_cancel_left htext)

/-! ## Names with codes -/

/-- No name stands twice in the table. -/
theorem typeCode?_of_mem : ∀ entry ∈ typeCodes, typeCode? entry.1 = some entry.2 := by
  decide +kernel

theorem typeCode?_eq_some_iff {name code : String} :
    typeCode? name = some code ↔ (name, code) ∈ typeCodes :=
  ⟨mem_typeCodes, typeCode?_of_mem (name, code)⟩

theorem encodeType_of_mem {name code : String} (h : (name, code) ∈ typeCodes) :
    encodeType name = code := by
  rw [encodeType, typeCode?_eq_some_iff.2 h, Option.getD_some]

theorem encodeType_of_no_code {name : String} (h : typeCode? name = none) :
    encodeType name = lengthPrefixed name := by
  rw [encodeType, h, Option.getD_none]

/-- No code looks like a name behind its length. -/
theorem code_ne_lengthPrefixed {name code : String} (h : (name, code) ∈ typeCodes)
    (other : String) : code ≠ lengthPrefixed other := by
  rintro rfl
  obtain ⟨hfixed, -⟩ := mem_of_typeCode? (typeCode?_eq_some_iff.2 h)
  exact IsAtom.fixed_ne_name (r := []) (s := []) hfixed rfl

theorem encodeType_eq_iff {a b : String} : encodeType a = encodeType b ↔
    a = b ∨ ∃ code, (a, code) ∈ typeCodes ∧ (b, code) ∈ typeCodes := by
  constructor
  · intro h
    cases ha : typeCode? a with
    | some code =>
      have hmem := typeCode?_eq_some_iff.1 ha
      rw [encodeType_of_mem hmem] at h
      cases hb : typeCode? b with
      | some code' =>
        have hmem' := typeCode?_eq_some_iff.1 hb
        rw [encodeType_of_mem hmem'] at h
        exact .inr ⟨code, hmem, h ▸ hmem'⟩
      | none =>
        rw [encodeType_of_no_code hb] at h
        exact absurd h (code_ne_lengthPrefixed hmem b)
    | none =>
      rw [encodeType_of_no_code ha] at h
      cases hb : typeCode? b with
      | some code' =>
        have hmem' := typeCode?_eq_some_iff.1 hb
        rw [encodeType_of_mem hmem'] at h
        exact absurd h.symm (code_ne_lengthPrefixed hmem' a)
      | none =>
        rw [encodeType_of_no_code hb] at h
        exact .inl (lengthPrefixed_injective h)
  · rintro (rfl | ⟨code, ha, hb⟩)
    · rfl
    · rw [encodeType_of_mem ha, encodeType_of_mem hb]

/-! ## Beginnings -/

/-- No atom begins another. -/
theorem IsAtom.eq_of_isPrefix {a b : List Char} (ha : IsAtom a) (hb : IsAtom b) (h : a <+: b) :
    a = b := by
  obtain ⟨r, h⟩ := h
  exact (ha.append_inj hb (h.trans (List.append_nil b).symm)).1

theorem isAtom_backReference : IsAtom ['S', '_'] :=
  .fixed List.mem_cons_self

/-! ## Main theorem -/

/-- Two names of any characters are written alike exactly when they are the same or have the same
code in the table. Among the names that signatures can give to types, what is written for one begins
what is written for another only if the two are written alike. It never begins the reference back,
nor does the reference back begin it. -/
theorem encodeType_distinguishes :
    (∀ a b, encodeType a = encodeType b ↔
      a = b ∨ ∃ code, (a, code) ∈ typeCodes ∧ (b, code) ∈ typeCodes) ∧
    (∀ a b, IsTypeName a → IsTypeName b → (encodeType a).toList <+: (encodeType b).toList →
      encodeType a = encodeType b) ∧
    ∀ a, IsTypeName a →
      ¬ (encodeType a).toList <+: ['S', '_'] ∧ ¬ ['S', '_'] <+: (encodeType a).toList := by
  refine ⟨fun a b => encodeType_eq_iff, fun a b ha hb h => ?_, fun a ha => ⟨fun h => ?_, fun h => ?_⟩⟩
  · exact String.toList_inj.1 (ha.isAtom.1.eq_of_isPrefix hb.isAtom.1 h)
  · exact ha.isAtom.2 (ha.isAtom.1.eq_of_isPrefix isAtom_backReference h)
  · exact ha.isAtom.2 (isAtom_backReference.eq_of_isPrefix ha.isAtom.1 h).symm

/-- Two lengths that begin with the same digit, and a code that begins with the letter of the
reference back. -/
theorem encodeType_distinguishes_lengths :
    ¬ "1a".toList <+: "11abcdefghijk".toList ∧
      ¬ "Ss".toList <+: ['S', '_'] ∧ ¬ ['S', '_'] <+: "Ss".toList := by
  have hshort : IsTypeName "a" :=
    .plain ⟨'a', [], rfl, by decide, nofun⟩ (by decide) (by decide)
  have hlong : IsTypeName "abcdefghijk" :=
    .plain ⟨'a', "bcdefghijk".toList, rfl, by decide, List.all_eq_true.1 (by decide)⟩ (by decide)
      (by decide)
  obtain ⟨-, hbegins, hreference⟩ := encodeType_distinguishes
  refine ⟨fun h => ?_, hreference ("std::" ++ "string") (.standard (by decide))⟩
  exact absurd (hbegins "a" "abcdefghijk" hshort hlong h) (by decide +kernel)

end LinkerNames

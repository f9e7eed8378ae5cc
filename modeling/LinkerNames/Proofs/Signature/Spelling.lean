import LinkerNames.Signature.Words
/-!
# Rows of words that spell builtin types

A reader looks at four words at most. That is enough: words have no blanks in them and a spelling
has one blank less than words, so no longer row spells a builtin type.
-/

namespace LinkerNames

theorem Token.isBuiltinWord_iff {t : Token} :
    t.isBuiltinWord = true ↔ t.kind = .identifier ∧ t.text ∈ builtinWords := by
  simp [isBuiltinWord]

/-! ## Blanks count the words -/

theorem blank_not_mem_builtinWord : ∀ w ∈ builtinWords, ' ' ∉ w.toList := by
  decide +kernel

theorem count_blank_builtinSpelling :
    ∀ s ∈ builtinSpellings, s.toList.count ' ' < maxBuiltinWords := by
  decide +kernel

theorem spelling_singleton (w : String) : spelling [w] = w :=
  String.intercalate_singleton

theorem toList_spelling_cons_cons (v w : String) (ws : List String) :
    (spelling (v :: w :: ws)).toList = v.toList ++ ' ' :: (spelling (w :: ws)).toList := by
  simp [spelling, String.intercalate_cons_cons]

theorem count_blank_spelling (w : String) (ws : List String)
    (h : ∀ v ∈ w :: ws, ' ' ∉ v.toList) : (spelling (w :: ws)).toList.count ' ' = ws.length := by
  induction ws generalizing w with
  | nil =>
    rw [spelling_singleton]
    exact List.count_eq_zero.2 (h w (by simp))
  | cons v ws ih =>
    rw [toList_spelling_cons_cons, List.count_append, List.count_cons_self,
      ih v fun x hx => h x (by simp [hx]), List.count_eq_zero.2 (h w (by simp)),
      List.length_cons]
    omega

/-- No spelling of a builtin type has more words than a reader looks at. -/
theorem length_le_of_spelling {ws : List String} (hw : ∀ w ∈ ws, w ∈ builtinWords)
    (hs : spelling ws ∈ builtinSpellings) : ws.length ≤ maxBuiltinWords := by
  cases ws with
  | nil => simp
  | cons w ws =>
    have hc := count_blank_builtinSpelling _ hs
    rw [count_blank_spelling w ws fun v hv => blank_not_mem_builtinWord v (hw v hv)] at hc
    exact hc

/-! ## The longest spelling -/

theorem builtinLength?_eq_some {ws : List String} {n k : Nat} :
    builtinLength? ws n = some k ↔ 0 < k ∧ k ≤ n ∧ spelling (ws.take k) ∈ builtinSpellings ∧
      ∀ j, k < j → j ≤ n → spelling (ws.take j) ∉ builtinSpellings := by
  induction n with
  | zero =>
    simp only [builtinLength?, reduceCtorEq, false_iff]
    omega
  | succ n ih =>
    rw [builtinLength?]
    split
    next hs =>
      rw [Option.some.injEq]
      constructor
      · rintro rfl
        exact ⟨Nat.succ_pos n, Nat.le_refl _, hs, fun j h₁ h₂ => by omega⟩
      · rintro ⟨-, hk, -, hmax⟩
        rcases Nat.lt_or_eq_of_le hk with hlt | rfl
        · exact absurd hs (hmax (n + 1) hlt (Nat.le_refl _))
        · rfl
    next hs =>
      rw [ih]
      constructor
      · rintro ⟨h₀, hk, hk', hmax⟩
        refine ⟨h₀, by omega, hk', fun j h₁ h₂ => ?_⟩
        by_cases hj : j = n + 1
        · exact hj ▸ hs
        · exact hmax j h₁ (by omega)
      · rintro ⟨h₀, hk, hk', hmax⟩
        have hne : k ≠ n + 1 := by
          rintro rfl
          exact hs hk'
        exact ⟨h₀, by omega, hk', fun j h₁ h₂ => hmax j h₁ (by omega)⟩

/-- Each word alone spells a type, so a row of words always begins with a spelling. -/
theorem builtinLength?_isSome {w : String} {ws : List String} (hw : w ∈ builtinWords) :
    ∃ k, builtinLength? (w :: ws) (w :: ws).length = some k := by
  have h (n : Nat) : ∃ k, builtinLength? (w :: ws) (n + 1) = some k := by
    induction n with
    | zero =>
      refine ⟨1, builtinLength?_eq_some.2 ⟨Nat.one_pos, Nat.le_refl _, ?_, by omega⟩⟩
      rw [List.take_succ_cons, List.take_zero, spelling_singleton]
      exact List.mem_append_left _ hw
    | succ n ih =>
      rw [builtinLength?]
      split
      · exact ⟨_, rfl⟩
      · exact ih
  exact h ws.length

end LinkerNames

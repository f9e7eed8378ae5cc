/-!
# Runs that may fail

What a run in two parts comes to, for programs that carry a state and keep it when they fail, and
for programs that carry none.
-/

namespace EStateM

variable {ε σ α β : Type}

theorem bind_of_ok {x : EStateM ε σ α} {f : α → EStateM ε σ β} {s t : σ} {a : α}
    (h : x s = .ok a t) : (x >>= f) s = f a t := by
  change EStateM.bind x f s = f a t
  rw [EStateM.bind, h]

theorem bind_of_error {x : EStateM ε σ α} {f : α → EStateM ε σ β} {s t : σ} {e : ε}
    (h : x s = .error e t) : (x >>= f) s = .error e t := by
  change EStateM.bind x f s = .error e t
  rw [EStateM.bind, h]

theorem bind_eq_ok_iff {x : EStateM ε σ α} {f : α → EStateM ε σ β} {s u : σ} {b : β} :
    (x >>= f) s = .ok b u ↔ ∃ a t, x s = .ok a t ∧ f a t = .ok b u := by
  constructor
  · intro h
    cases hx : x s with
    | ok a t =>
      rw [bind_of_ok hx] at h
      exact ⟨a, t, rfl, h⟩
    | error e t =>
      rw [bind_of_error hx] at h
      cases h
  · rintro ⟨a, t, hx, hf⟩
    rw [bind_of_ok hx, hf]

/-- A run in two parts fails in the first, or in the second. -/
theorem bind_eq_error_iff {x : EStateM ε σ α} {f : α → EStateM ε σ β} {s u : σ} {e : ε} :
    (x >>= f) s = .error e u ↔
      x s = .error e u ∨ ∃ a t, x s = .ok a t ∧ f a t = .error e u := by
  constructor
  · intro h
    cases hx : x s with
    | ok a t =>
      rw [bind_of_ok hx] at h
      exact .inr ⟨a, t, rfl, h⟩
    | error e' t =>
      rw [bind_of_error hx] at h
      cases h
      exact .inl rfl
  · rintro (hx | ⟨a, t, hx, hf⟩)
    · exact bind_of_error hx
    · rw [bind_of_ok hx, hf]

@[simp]
theorem pure_apply (a : α) (s : σ) : (pure a : EStateM ε σ α) s = .ok a s :=
  rfl

end EStateM

namespace Except

variable {ε δ α β : Type}

theorem bind_eq_ok_iff {x : Except ε α} {f : α → Except ε β} {b : β} :
    x >>= f = .ok b ↔ ∃ a, x = .ok a ∧ f a = .ok b := by
  constructor
  · intro h
    cases x with
    | ok a => exact ⟨a, rfl, h⟩
    | error e => cases h
  · rintro ⟨a, rfl, h⟩
    exact h

/-- Checks that each succeed or come to the same do so together. -/
theorem forM_eq_ok_or {f : α → Except ε Unit} {x : Except ε Unit}
    (h : ∀ a, f a = .ok () ∨ f a = x) (as : List α) : as.forM f = .ok () ∨ as.forM f = x := by
  induction as with
  | nil => exact .inl rfl
  | cons a as ih =>
    have hcons : (a :: as).forM f = f a >>= fun _ => as.forM f := rfl
    rw [hcons]
    rcases h a with ha | ha <;> rw [ha]
    · exact ih
    · cases x with
      | ok _ => exact ih
      | error e => exact .inr rfl

theorem mapError_eq_ok_iff {f : ε → δ} {x : Except ε α} {a : α} :
    x.mapError f = .ok a ↔ x = .ok a := by
  cases x with
  | ok b => exact ⟨fun h => by cases h; rfl, fun h => by cases h; rfl⟩
  | error e => exact ⟨nofun, nofun⟩

/-- Why a run fails, if it does. -/
def error? : Except ε α → Option ε
  | .ok _ => none
  | .error e => some e

/-- For closed runs: options of what can be compared can be compared. -/
theorem eq_error_of_error? {x : Except ε α} {e : ε} (h : x.error? = some e) : x = .error e := by
  cases x with
  | ok b => cases h
  | error e' => exact congrArg error (Option.some.inj h)

theorem eq_ok_of_toOption {x : Except ε α} {a : α} (h : x.toOption = some a) : x = .ok a := by
  cases x with
  | ok b => exact congrArg ok (Option.some.inj h)
  | error e => cases h

end Except

import LinkerNames.Proofs.Signature.Reading
import LinkerNames.Signature.Grammar
/-!
# Readers do not go back

A reader that answers has come to some position, and so has a reader that refuses. Either way it has
not gone back: what is ahead is the end of what was ahead before. We show it from reader to reader,
for lists between any two brackets.
-/

namespace LinkerNames

/-- The first cursor is where the second is, or further on. -/
structure Cursor.Behind (c' c : Cursor) : Prop where
  ahead : c'.ahead <:+ c.ahead
  finish : c'.finish = c.finish

theorem Cursor.Behind.refl (c : Cursor) : c.Behind c :=
  ⟨List.suffix_refl c.ahead, rfl⟩

theorem Cursor.Behind.trans {c c' c'' : Cursor} (h : c''.Behind c') (h' : c'.Behind c) :
    c''.Behind c :=
  ⟨h.ahead.trans h'.ahead, h.finish.trans h'.finish⟩

namespace Reader

variable {α β : Type}

/-- Where a reader comes to, be it that it answers or that it refuses. -/
def stop (x : Reader α) (c : Cursor) : Cursor :=
  match x c with
  | .ok _ c' => c'
  | .error _ c' => c'

/-- A reader never goes back. -/
def Forward (x : Reader α) : Prop :=
  ∀ c, (x.stop c).Behind c

namespace Forward

theorem pure (a : α) : Forward (Pure.pure a) :=
  Cursor.Behind.refl

theorem bind {x : Reader α} {f : α → Reader β} (hx : Forward x) (hf : ∀ a, Forward (f a)) :
    Forward (x >>= f) := by
  intro c
  have hc := hx c
  unfold stop at hc ⊢
  cases h : x c with
  | ok a c' =>
    rw [h] at hc
    rw [EStateM.bind_of_ok h]
    exact (hf a c').trans hc
  | error e c' =>
    rw [h] at hc
    rwa [EStateM.bind_of_error h]

end Forward

theorem forward_get : Forward (get : Reader Cursor) :=
  Cursor.Behind.refl

theorem forward_peek : Forward peek :=
  Cursor.Behind.refl

theorem forward_place : Forward place :=
  forward_peek.bind fun _ => .pure _

theorem forward_refuse (es : List Expected) : Forward (refuse es : Reader α) :=
  Cursor.Behind.refl

theorem forward_next : Forward next := by
  rintro ⟨i, fin⟩
  cases i with
  | nil => exact .refl _
  | cons t m => exact ⟨List.suffix_cons t m, rfl⟩

theorem forward_rest : Forward rest :=
  fun _ => ⟨List.nil_suffix, rfl⟩

theorem forward_take (n : Nat) : Forward (take n) := by
  induction n with
  | zero => exact .pure _
  | succ n ih => exact forward_next.bind fun _ => ih.bind fun _ => .pure _

theorem forward_check (es : List Expected) : Forward (check es) := by
  refine forward_peek.bind fun t => ?_
  split
  · exact .pure t
  · exact forward_refuse es

theorem forward_expect (es : List Expected) : Forward (expect es) :=
  (forward_check es).bind fun _ => forward_next.bind fun _ => .pure _

theorem forward_builtinLength : Forward builtinLength := by
  refine forward_get.bind fun c => ?_
  dsimp only
  split
  · exact .pure _
  · exact forward_refuse _

theorem forward_type : Forward type := by
  have hwords : Forward typeWords := by
    refine forward_get.bind fun c => ?_
    split
    · exact forward_place.bind fun _ => (forward_take 3).bind fun _ => .pure _
    split
    · exact forward_builtinLength.bind fun n => (forward_take n).bind fun _ => .pure _
    · exact (forward_expect _).bind fun _ => .pure _
  exact forward_place.bind fun _ => hwords.bind fun _ => .pure _

theorem forward_marks : Forward marks := by
  have htake : Forward (takeWhile fun t => (mark? t).isSome) :=
    fun _ => ⟨List.dropWhile_suffix _, rfl⟩
  exact htake.bind fun _ => .pure _

section
variable {path : Reader Phrase} (hpath : Forward path)
include hpath

theorem forward_elementWith : Forward (elementWith path) :=
  hpath.bind fun _ => .pure _

theorem forward_typedElementWith : Forward (typedElementWith path) :=
  forward_place.bind fun _ => (forward_elementWith hpath).bind fun _ =>
    forward_marks.bind fun _ => .pure _

theorem forward_listWith (opening closing : String) (turns : Nat) :
    Forward (listWith path opening closing turns) := by
  have helements : Forward (typedElementsWith path closing turns) := by
    induction turns with
    | zero => exact forward_refuse _
    | succ turns ih =>
      refine (forward_typedElementWith hpath).bind fun _ => (forward_expect _).bind fun t => ?_
      split
      · exact .pure _
      · exact ih.bind fun _ => .pure _
  refine (forward_expect _).bind fun _ => forward_peek.bind fun t => ?_
  split
  · exact forward_next.bind fun _ => .pure _
  · exact helements

theorem forward_genericWith (turns : Nat) : Forward (genericWith path turns) :=
  forward_place.bind fun _ => (forward_listWith hpath "<" ">" turns).bind fun _ => .pure _

end

theorem forward_pathOf {segments : Reader (List Phrase)} (h : Forward segments) :
    Forward (pathOf segments) :=
  forward_place.bind fun _ => h.bind fun _ => .pure _

theorem forward_segments (turns : Nat) : Forward (segments turns) := by
  induction turns with
  | zero => exact forward_refuse _
  | succ turns ih =>
    have hsegment : Forward (segmentWith (pathOf (segments turns)) turns) := by
      refine forward_type.bind fun _ => forward_peek.bind fun t => ?_
      split
      · exact (forward_genericWith (forward_pathOf ih) turns).bind fun _ => .pure _
      · exact .pure _
    refine hsegment.bind fun _ => forward_peek.bind fun t => ?_
    split
    · exact forward_next.bind fun _ => ih.bind fun _ => .pure _
    · exact .pure _

theorem forward_path : Forward path :=
  forward_pathOf fun c => forward_segments _ c

theorem forward_list (opening closing : String) : Forward (list opening closing) :=
  fun c => forward_listWith forward_path opening closing _ c

theorem forward_function : Forward function := by
  have hconst : Forward trailingConst := by
    refine forward_peek.bind fun t => ?_
    split
    · exact forward_next.bind fun _ => .pure _
    · exact .pure _
  exact forward_place.bind fun _ => forward_path.bind fun _ =>
    (forward_list "(" ")").bind fun _ => hconst.bind fun _ => .pure _

end Reader
end LinkerNames

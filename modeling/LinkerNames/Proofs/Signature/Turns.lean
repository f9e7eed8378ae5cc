import LinkerNames.Proofs.Signature.Soundness
/-!
# Turns are enough

The readers of lists and paths take turns, with a bound on their number. The bound is never reached:
a turn takes a token, so whoever is called again has fewer tokens ahead. Hence the readers are the
loops they stand for, whatever would come of a call with as many tokens ahead as before
(`descends`).
-/

namespace LinkerNames
namespace Reader

variable {α β : Type}

/-- Two readers do the same wherever fewer than `n` tokens are ahead. -/
def Agree (n : Nat) (x y : Reader α) : Prop :=
  ∀ i fin, fin.toLexeme = .finish → i.length < n → x ⟨i, fin⟩ = y ⟨i, fin⟩

/-- A reader that answers has taken a token. -/
def Takes (x : Reader α) : Prop :=
  ∀ i fin a c, fin.toLexeme = .finish → x ⟨i, fin⟩ = .ok a c →
    ∃ r, c = ⟨r, fin⟩ ∧ r.length < i.length

theorem Sound.takes {x : Reader α} {cat : Category} {view : α → List Phrase}
    (h : Sound x cat view) : Takes x := by
  intro i fin a c hfin hx
  obtain ⟨r, rfl, hd⟩ := h i fin a c hfin hx
  exact ⟨r, rfl, hd.length_lt⟩

theorem takes_expect (es : List Expected) : Takes (expect es) := by
  intro i fin t c _ h
  obtain ⟨m, rfl, -, rfl⟩ := expect_eq_ok_iff.1 h
  exact ⟨m, rfl, by simp⟩

theorem takes_next : Takes next := by
  intro i fin t c _ h
  cases i with
  | nil => cases h
  | cons u m =>
    cases h
    exact ⟨m, rfl, by simp⟩

namespace Agree

variable {m n : Nat} {x y : Reader α} {f g : α → Reader β}

theorem refl (n : Nat) (x : Reader α) : Agree n x x :=
  fun _ _ _ _ => rfl

theorem mono (h : Agree n x y) (hmn : m ≤ n) : Agree m x y :=
  fun i fin hfin hi => h i fin hfin (by omega)

theorem trans {z : Reader α} (h : Agree n x y) (h' : Agree n y z) : Agree n x z :=
  fun i fin hfin hi => (h i fin hfin hi).trans (h' i fin hfin hi)

theorem bind_same (h : Agree n x y) (f : α → Reader β) : Agree n (x >>= f) (y >>= f) := by
  intro i fin hfin hi
  change EStateM.bind x f _ = EStateM.bind y f _
  rw [EStateM.bind, EStateM.bind, h i fin hfin hi]

/-- What comes behind a taken token need agree with fewer tokens ahead only. -/
theorem bind (h : Agree (n + 1) x y) (hx : Takes x) (hf : ∀ a, Agree n (f a) (g a)) :
    Agree (n + 1) (x >>= f) (y >>= g) := by
  intro i fin hfin hi
  have hxy := h i fin hfin hi
  cases hrun : x ⟨i, fin⟩ with
  | ok a c =>
    obtain ⟨r, rfl, hlt⟩ := hx i fin a c hfin hrun
    rw [EStateM.bind_of_ok hrun, EStateM.bind_of_ok (hxy ▸ hrun)]
    exact hf a r fin hfin (by omega)
  | error e c => rw [EStateM.bind_of_error hrun, EStateM.bind_of_error (hxy ▸ hrun)]

theorem bind_takes (hx : Takes x) (hf : ∀ a, Agree n (f a) (g a)) :
    Agree n (x >>= f) (x >>= g) := by
  have h := (refl (n + 1) x).bind hx hf
  exact h.mono (Nat.le_succ n)

theorem peek_bind {f g : Token → Reader β} (h : ∀ t, Agree n (f t) (g t)) :
    Agree n (peek >>= f) (peek >>= g) :=
  fun i fin hfin hi => h _ i fin hfin hi

theorem place_bind {f g : Place → Reader β} (h : ∀ p, Agree n (f p) (g p)) :
    Agree n (place >>= f) (place >>= g) :=
  fun i fin hfin hi => h _ i fin hfin hi

end Agree

/-! ## Lists -/

section
variable {path path' : Reader Phrase} {m m' n : Nat} (hpath : Agree n path path')
include hpath

theorem agree_typedElementWith : Agree n (typedElementWith path) (typedElementWith path') :=
  .place_bind fun _ => (hpath.bind_same _).bind_same _

theorem agree_typedElementsWith (hsound : Sound path .path ([·])) (closing : String)
    (hm : n ≤ m) (hm' : n ≤ m') :
    Agree n (typedElementsWith path closing m) (typedElementsWith path' closing m') := by
  induction n generalizing m m' with
  | zero => exact fun _ _ _ hi => absurd hi (Nat.not_lt_zero _)
  | succ n ih =>
    obtain ⟨k, rfl⟩ := Nat.exists_eq_add_of_lt hm
    obtain ⟨k', rfl⟩ := Nat.exists_eq_add_of_lt hm'
    refine (agree_typedElementWith hpath).bind (sound_typedElementWith hsound).takes fun _ => ?_
    refine .bind_takes (takes_expect _) fun t => ?_
    split
    · exact .refl _ _
    · exact (ih (hpath.mono (by omega)) (by omega) (by omega)).bind_same _

theorem agree_listWith (hsound : Sound path .path ([·])) (opening closing : String)
    (hm : n ≤ m) (hm' : n ≤ m') :
    Agree n (listWith path opening closing m) (listWith path' opening closing m') := by
  refine .bind_takes (takes_expect _) fun _ => .peek_bind fun t => ?_
  split
  · exact .refl _ _
  · exact agree_typedElementsWith hpath hsound closing hm hm'

theorem agree_genericWith (hsound : Sound path .path ([·])) (hm : n ≤ m) (hm' : n ≤ m') :
    Agree n (genericWith path m) (genericWith path' m') :=
  .place_bind fun _ => (agree_listWith hpath hsound "<" ">" hm hm').bind_same _

theorem agree_segmentWith (hsound : Sound path .path ([·])) (hm : n ≤ m) (hm' : n ≤ m') :
    Agree (n + 1) (segmentWith path m) (segmentWith path' m') := by
  refine (Agree.refl _ type).bind sound_type.takes fun _ => .peek_bind fun t => ?_
  split
  · exact (agree_genericWith hpath hsound hm hm').bind_same _
  · exact .refl _ _

end

/-! ## Paths -/

theorem agree_pathOf {n : Nat} {x y : Reader (List Phrase)} (h : Agree n x y) :
    Agree n (pathOf x) (pathOf y) :=
  .place_bind fun _ => h.bind_same _

theorem agree_segments {m m' n : Nat} (hm : n ≤ m) (hm' : n ≤ m') :
    Agree n (segments m) (segments m') := by
  induction n generalizing m m' with
  | zero => exact fun _ _ _ hi => absurd hi (Nat.not_lt_zero _)
  | succ n ih =>
    obtain ⟨k, rfl⟩ := Nat.exists_eq_add_of_lt hm
    obtain ⟨k', rfl⟩ := Nat.exists_eq_add_of_lt hm'
    have hsound := sound_pathOf (sound_segments (n + k))
    have hpath := agree_pathOf (ih (Nat.le_add_right n k) (Nat.le_add_right n k'))
    refine (agree_segmentWith hpath hsound (by omega) (by omega)).bind
      (sound_segmentWith hsound _).takes fun _ => .peek_bind fun t => ?_
    split
    · exact .bind_takes takes_next fun _ =>
        (ih (Nat.le_add_right n k) (Nat.le_add_right n k')).bind_same _
    · exact .refl _ _

/-! ## Loops -/

/-- The parts of all segments of a path, with turns enough. -/
def parts : Reader (List Phrase) := fun c => segments (enough c) c

/-- The typed elements of a list with its closing bracket, with turns enough. -/
def elements (closing : String) : Reader (List Phrase) := fun c =>
  typedElementsWith path closing (enough c) c

/-- One segment, given how template arguments are read. -/
def segmentTurn (arguments : Reader Phrase) : Reader (List Phrase) := do
  let head ← type
  let t ← peek
  if t.text = "<" then
    let arguments ← arguments
    return [head, arguments]
  else return [head]

/-- One turn of the loop over segments. -/
def partsTurn (arguments : Reader Phrase) (again : Reader (List Phrase)) :
    Reader (List Phrase) := do
  let parts ← segmentTurn arguments
  let t ← peek
  if t.text = "::" then
    let _ ← next
    let others ← again
    return parts ++ others
  else return parts

/-- One turn of the loop over typed elements. -/
def elementsTurn (element : Reader Phrase) (closing : String) (again : Reader (List Phrase)) :
    Reader (List Phrase) := do
  let first ← element
  let t ← expect [.text ",", .text closing]
  if t.text = closing then return [first]
  else
    let others ← again
    return first :: others

/-- A list, given how its typed elements are read. -/
def listTurn (opening closing : String) (elements : Reader (List Phrase)) :
    Reader (List Phrase) := do
  let _ ← expect [.text opening]
  let t ← peek
  if t.text = closing then
    let _ ← next
    return []
  else elements

/-- A reader where fewer than `n` tokens are ahead, and another elsewhere. -/
def below (n : Nat) (x out : Reader α) : Reader α := fun c =>
  if c.ahead.length < n then x c else out c

/-- Template arguments, given how their list is read. -/
def genericTurn (list : Reader (List Phrase)) : Reader Phrase := do
  let start ← place
  let arguments ← list
  return .branch .generic start arguments

/-- At a cursor the readers are loops and call each other: lists their typed elements, these a path,
and a path its parts. Whoever calls a reader again has fewer tokens ahead, so that it does not matter
what would come of any other call. -/
structure Descends (c : Cursor) : Prop where
  path_eq : path c = pathOf parts c
  parts_eq (generic' : Reader Phrase) (parts' : Reader (List Phrase)) :
    parts c = partsTurn (below c.ahead.length generic generic')
      (below c.ahead.length parts parts') c
  generic_eq : generic c = genericTurn (list "<" ">") c
  list_eq (opening closing : String) :
    list opening closing c = listTurn opening closing (elements closing) c
  elements_eq (closing : String) (elements' : Reader (List Phrase)) :
    elements closing c = elementsTurn typedElement closing
      (below c.ahead.length (elements closing) elements') c

/-! ## The loops are the readers -/

theorem agree_parts {m n : Nat} (hm : n ≤ m) : Agree n (segments m) parts :=
  fun i fin hfin hi => agree_segments (by omega) (Nat.le_refl (i.length + 1)) i fin hfin (by omega)

theorem agree_path {m n : Nat} (hm : n ≤ m) : Agree n (pathOf (segments m)) path :=
  agree_pathOf (agree_parts hm)

theorem agree_generic {m n : Nat} (hm : n ≤ m) :
    Agree n (genericWith (pathOf (segments m)) m) generic :=
  fun i fin hfin hi => agree_genericWith (agree_path (by omega)) (sound_pathOf (sound_segments m))
    (by omega) (Nat.le_refl (i.length + 1)) i fin hfin (by omega)

theorem agree_elements {m n : Nat} (closing : String) (hm : n ≤ m) :
    Agree n (typedElementsWith path closing m) (elements closing) :=
  fun i fin hfin hi => agree_typedElementsWith (.refl _ path) sound_path closing (by omega)
    (Nat.le_refl (i.length + 1)) i fin hfin (by omega)

theorem agree_below (n : Nat) (x out : Reader α) : Agree n x (below n x out) :=
  fun _ _ _ hi => (if_pos hi).symm

theorem agree_partsTurn (n : Nat) (generic' : Reader Phrase) (parts' : Reader (List Phrase)) :
    Agree (n + 1) (segments (n + 1))
      (partsTurn (below n generic generic') (below n parts parts')) := by
  have hgeneric := (agree_generic (Nat.le_refl n)).trans (agree_below n generic generic')
  have hparts := (agree_parts (Nat.le_refl n)).trans (agree_below n parts parts')
  have hsegment : Agree (n + 1) (segmentWith (pathOf (segments n)) n)
      (segmentTurn (below n generic generic')) := by
    refine (Agree.refl _ type).bind sound_type.takes fun _ => .peek_bind fun t => ?_
    split
    · exact hgeneric.bind_same _
    · exact .refl _ _
  have htakes := (sound_segmentWith (sound_pathOf (sound_segments n)) n).takes
  refine hsegment.bind htakes fun _ => .peek_bind fun t => ?_
  split
  · exact .bind_takes takes_next fun _ => hparts.bind_same _
  · exact .refl _ _

theorem agree_elementsTurn (n : Nat) (closing : String) (elements' : Reader (List Phrase)) :
    Agree (n + 1) (typedElementsWith path closing (n + 1))
      (elementsTurn typedElement closing (below n (elements closing) elements')) := by
  have helements := (agree_elements closing (Nat.le_refl n)).trans
    (agree_below n (elements closing) elements')
  refine (Agree.refl _ typedElement).bind (sound_typedElementWith sound_path).takes fun _ =>
    .bind_takes (takes_expect _) fun t => ?_
  split
  · exact .refl _ _
  · exact helements.bind_same _

theorem agree_listTurn {m n : Nat} (opening closing : String) (hm : n ≤ m) :
    Agree n (listWith path opening closing m) (listTurn opening closing (elements closing)) := by
  refine .bind_takes (takes_expect _) fun _ => .peek_bind fun t => ?_
  split
  · exact .refl _ _
  · exact agree_elements closing hm

/-- The readers of paths and lists are loops, at every position. -/
theorem descends {c : Cursor} (hfin : c.finish.toLexeme = .finish) : Descends c where
  path_eq := rfl
  parts_eq generic' parts' :=
    agree_partsTurn c.ahead.length generic' parts' _ _ hfin (Nat.lt_succ_self _)
  generic_eq := rfl
  list_eq opening closing :=
    agree_listTurn opening closing (Nat.le_refl _) _ _ hfin (Nat.lt_succ_self _)
  elements_eq closing elements' :=
    agree_elementsTurn c.ahead.length closing elements' _ _ hfin (Nat.lt_succ_self _)

end Reader
end LinkerNames

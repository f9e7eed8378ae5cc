import LinkerNames.Encoding.Encoder
/-!
# A walk through a symbol

What there is to come by in a symbol when all of it is looked at from left to right: path
elements that are behind with everything in them, and symbols that begin and have no encoding.
The walk keeps no table and does not stop, so it goes through the inside of an element as often
as the element stands there.
-/

namespace LinkerNames

/-- What a walk comes by. -/
inductive Event
  /-- A path element is behind, and all that stands in it. -/
  | finished (element : Symbol)
  /-- A symbol begins that has no encoding. -/
  | offence (why : EncodeError)

namespace Symbol

mutual
/-- All occurrences of path elements in a symbol, in the order in which they end: what stands in
an element comes before it, and a callee before the arguments. -/
def occurrences : Symbol → List Symbol
  | .path elements => elementOccurrences elements
  | .function callee args => occurrences callee ++ allOccurrences args
  | .constructor args => allOccurrences args
  | .generic args => allOccurrences args
  | .type _ => []
  | .operator _ => []
  | .typed inner _ => occurrences inner
  | .stray _ => []

/-- All occurrences of path elements in some symbols. -/
def allOccurrences : List Symbol → List Symbol
  | [] => []
  | s :: ss => occurrences s ++ allOccurrences ss

/-- All occurrences of path elements in the elements of a path, which are some themselves. -/
def elementOccurrences : List Symbol → List Symbol
  | [] => []
  | s :: ss => occurrences s ++ s :: elementOccurrences ss
end

mutual
/-- What a walk through a symbol comes by, if the next path is the name of a `const` function in
case of `pending`. -/
def events (pending : Bool) : Symbol → List Event
  | .path elements => elementEvents elements
  | .function callee args =>
    (if pending && !callee.isPath then [.offence (.constWithoutPath callee)] else []) ++
      events pending callee ++ allEvents args
  | .constructor args => .offence (.unsupported (.constructor args)) :: allEvents args
  | .generic args => allEvents args
  | .type _ => []
  | .operator name => [.offence (.unsupported (.operator name))]
  | .typed inner qualifiers =>
    if inner.isFunction && qualifiers ≠ [] then events true inner else events pending inner
  | .stray text => [.offence (.notSymbol (.stray text))]

/-- What a walk through some symbols comes by. -/
def allEvents : List Symbol → List Event
  | [] => []
  | s :: ss => events false s ++ allEvents ss

/-- What a walk through the elements of a path comes by. -/
def elementEvents : List Symbol → List Event
  | [] => []
  | s :: ss => events false s ++ .finished s :: elementEvents ss
end

end Symbol

namespace Event

/-- The path elements that a walk leaves behind. -/
def elements : List Event → List Symbol
  | [] => []
  | .finished e :: evs => e :: elements evs
  | .offence _ :: evs => elements evs

/-- The path elements that are behind when a walk comes by the first symbol without encoding. -/
def completed : List Event → List Symbol
  | [] => []
  | .finished e :: evs => e :: completed evs
  | .offence _ :: _ => []

/-- The first reason why there is no encoding. -/
def firstOffence? : List Event → Option EncodeError
  | [] => none
  | .finished _ :: evs => firstOffence? evs
  | .offence why :: _ => some why

theorem elements_append (xs ys : List Event) :
    elements (xs ++ ys) = elements xs ++ elements ys := by
  induction xs with
  | nil => rfl
  | cons x xs ih => cases x <;> simp [elements, ih]

theorem firstOffence?_append (xs ys : List Event) :
    firstOffence? (xs ++ ys) = (firstOffence? xs).or (firstOffence? ys) := by
  induction xs with
  | nil => rfl
  | cons x xs ih => cases x <;> simp [firstOffence?, ih]

theorem completed_append_of_none {xs : List Event} (h : firstOffence? xs = none) (ys : List Event) :
    completed (xs ++ ys) = completed xs ++ completed ys := by
  induction xs with
  | nil => rfl
  | cons x xs ih =>
    cases x with
    | finished e => simpa [completed] using ih h
    | offence why => cases h

theorem completed_append_of_some {xs : List Event} {why : EncodeError}
    (h : firstOffence? xs = some why) (ys : List Event) :
    completed (xs ++ ys) = completed xs := by
  induction xs with
  | nil => cases h
  | cons x xs ih =>
    cases x with
    | finished e => simpa [completed] using ih h
    | offence why => rfl

/-- Without offence the walk leaves all its elements behind. -/
theorem completed_eq_elements {evs : List Event} (h : firstOffence? evs = none) :
    completed evs = elements evs := by
  induction evs with
  | nil => rfl
  | cons x evs ih =>
    cases x with
    | finished e => simpa [completed, elements] using ih h
    | offence why => cases h

/-- With an offence the walk parts in what is finished before it, the offence, and the rest. -/
theorem eq_of_firstOffence? {evs : List Event} {why : EncodeError}
    (h : firstOffence? evs = some why) :
    ∃ after, evs = (completed evs).map .finished ++ .offence why :: after := by
  induction evs with
  | nil => cases h
  | cons x evs ih =>
    cases x with
    | finished e =>
      obtain ⟨after, hafter⟩ := ih h
      exact ⟨after, by simpa [completed] using hafter⟩
    | offence w =>
      cases h
      exact ⟨evs, rfl⟩

theorem elements_map_finished (es : List Symbol) : elements (es.map .finished) = es := by
  induction es with
  | nil => rfl
  | cons e es ih => simp [elements, ih]

end Event

namespace Symbol

mutual
/-- A walk comes by each occurrence of a path element, whatever has no encoding. -/
theorem elements_events (pending : Bool) :
    (s : Symbol) → Event.elements (s.events pending) = s.occurrences
  | .path es => by simpa [events, occurrences] using elements_elementEvents es
  | .function callee args => by
    simp only [events, occurrences, Event.elements_append, elements_events pending callee,
      elements_allEvents args]
    split <;> rfl
  | .constructor args => by
    simpa [events, occurrences, Event.elements] using elements_allEvents args
  | .generic args => by simpa [events, occurrences] using elements_allEvents args
  | .type _ => rfl
  | .operator _ => rfl
  | .typed inner qualifiers => by
    simp only [events, occurrences]
    split
    · exact elements_events true inner
    · exact elements_events pending inner
  | .stray _ => rfl

theorem elements_allEvents : (ss : List Symbol) → Event.elements (allEvents ss) = allOccurrences ss
  | [] => rfl
  | s :: ss => by
    simp only [allEvents, allOccurrences, Event.elements_append, elements_events false s,
      elements_allEvents ss]

theorem elements_elementEvents :
    (ss : List Symbol) → Event.elements (elementEvents ss) = elementOccurrences ss
  | [] => rfl
  | s :: ss => by
    simp only [elementEvents, elementOccurrences, Event.elements_append, Event.elements,
      elements_events false s, elements_elementEvents ss]
end

theorem completed_events {pending : Bool} {s : Symbol}
    (h : Event.firstOffence? (s.events pending) = none) :
    Event.completed (s.events pending) = s.occurrences := by
  rw [Event.completed_eq_elements h, elements_events]

/-! ## No element stands in itself -/

mutual
theorem sizeOf_lt_of_mem_occurrences :
    (s : Symbol) → ∀ e ∈ s.occurrences, sizeOf e < sizeOf s
  | .path es => fun e he => by
    have := sizeOf_lt_of_mem_elementOccurrences es e he
    simp only [path.sizeOf_spec]; omega
  | .function callee args => fun e he => by
    simp only [function.sizeOf_spec]
    rcases List.mem_append.1 he with he | he
    · have := sizeOf_lt_of_mem_occurrences callee e he; omega
    · have := sizeOf_lt_of_mem_allOccurrences args e he; omega
  | .constructor args => fun e he => by
    have := sizeOf_lt_of_mem_allOccurrences args e he
    simp only [constructor.sizeOf_spec]; omega
  | .generic args => fun e he => by
    have := sizeOf_lt_of_mem_allOccurrences args e he
    simp only [generic.sizeOf_spec]; omega
  | .type _ => fun e he => by simp [occurrences] at he
  | .operator _ => fun e he => by simp [occurrences] at he
  | .typed inner qualifiers => fun e he => by
    have := sizeOf_lt_of_mem_occurrences inner e he
    simp only [typed.sizeOf_spec]; omega
  | .stray _ => fun e he => by simp [occurrences] at he

theorem sizeOf_lt_of_mem_allOccurrences :
    (ss : List Symbol) → ∀ e ∈ allOccurrences ss, sizeOf e < sizeOf ss
  | [] => fun e he => by simp [allOccurrences] at he
  | s :: ss => fun e he => by
    simp only [List.cons.sizeOf_spec]
    rcases List.mem_append.1 he with he | he
    · have := sizeOf_lt_of_mem_occurrences s e he; omega
    · have := sizeOf_lt_of_mem_allOccurrences ss e he; omega

theorem sizeOf_lt_of_mem_elementOccurrences :
    (ss : List Symbol) → ∀ e ∈ elementOccurrences ss, sizeOf e < sizeOf ss
  | [] => fun e he => by simp [elementOccurrences] at he
  | s :: ss => fun e he => by
    simp only [List.cons.sizeOf_spec]
    rcases List.mem_append.1 he with he | he
    · have := sizeOf_lt_of_mem_occurrences s e he; omega
    rcases List.mem_cons.1 he with rfl | he
    · omega
    · have := sizeOf_lt_of_mem_elementOccurrences ss e he; omega
end

theorem not_mem_occurrences_self (s : Symbol) : s ∉ s.occurrences := fun h =>
  absurd (sizeOf_lt_of_mem_occurrences s s h) (Nat.lt_irrefl _)

end Symbol
end LinkerNames

import LinkerNames.Proofs.Encoding.Sketch
import LinkerNames.Proofs.Runs
/-!
# Encoding refers back to what was there before

The encoder skips the inside of an element that is in its table, and records an element only
when everything in it is recorded. We prove that it still answers as if it looked at all of the
symbol: `encode_eq_outcome` compares it with the walk and the sketch, which know no table.

The invariant is that a table is `Settled`: with an element it holds everything that stands in
the element, and nothing in it is without encoding. So a reference back hides neither an element
that is to be recorded nor a symbol that is to be refused.
-/

namespace LinkerNames

namespace Table

/-- The table with elements that are in it from now on, one after the other. -/
def recordAll (t : Table) (es : List Symbol) : Table :=
  es.foldl record t

/-- The table with those elements at its end that it does not hold, each where it comes first. -/
def extend (t : Table) (es : List Symbol) : Table :=
  t ++ (es.filter (· ∉ t)).eraseDups

/-- The table that a call leaves behind, whether it succeeds or not. -/
def afterCall (t : Table) (pending : Bool) (s : Symbol) : Table :=
  match encode pending s t with
  | .ok _ t' => t'
  | .error _ t' => t'

/-- The table after some calls, the first of them with an empty one. -/
def afterCalls (calls : List (Bool × Symbol)) : Table :=
  calls.foldl (fun t call => t.afterCall call.1 call.2) []

/-! ## Recording -/

theorem record_of_mem {t : Table} {e : Symbol} (h : e ∈ t) : t.record e = t :=
  if_pos h

theorem record_of_not_mem {t : Table} {e : Symbol} (h : e ∉ t) : t.record e = t ++ [e] :=
  if_neg h

theorem mem_record {t : Table} {e x : Symbol} : x ∈ t.record e ↔ x ∈ t ∨ x = e := by
  by_cases h : e ∈ t
  · rw [record_of_mem h]
    exact ⟨.inl, fun hx => hx.elim id (· ▸ h)⟩
  · simp [record_of_not_mem h]

@[simp]
theorem recordAll_nil (t : Table) : t.recordAll [] = t :=
  rfl

@[simp]
theorem recordAll_cons (t : Table) (e : Symbol) (es : List Symbol) :
    t.recordAll (e :: es) = (t.record e).recordAll es :=
  rfl

theorem recordAll_append (t : Table) (xs ys : List Symbol) :
    t.recordAll (xs ++ ys) = (t.recordAll xs).recordAll ys :=
  List.foldl_append

theorem mem_recordAll {t : Table} {es : List Symbol} {x : Symbol} :
    x ∈ t.recordAll es ↔ x ∈ t ∨ x ∈ es := by
  induction es generalizing t with
  | nil => simp
  | cons e es ih => rw [recordAll_cons, ih, mem_record, List.mem_cons, or_assoc]

theorem recordAll_of_forall_mem {t : Table} {es : List Symbol} (h : ∀ e ∈ es, e ∈ t) :
    t.recordAll es = t := by
  induction es with
  | nil => rfl
  | cons e es ih =>
    rw [recordAll_cons, record_of_mem (h e (by simp)), ih fun x hx => h x (by simp [hx])]

theorem recordAll_eq_extend (t : Table) (es : List Symbol) : t.recordAll es = t.extend es := by
  induction es generalizing t with
  | nil => simp [extend]
  | cons e es ih =>
    rw [recordAll_cons, ih]
    by_cases h : e ∈ t
    · simp [record_of_mem h, extend, h]
    · have hf : (fun x => decide (x ∉ t ++ [e])) = fun x => !x == e && decide (x ∉ t) := by
        funext x
        by_cases hx : x = e <;> simp [hx]
      rw [record_of_not_mem h, extend, extend, List.filter_cons_of_pos (by simpa using h),
        List.eraseDups_cons, List.filter_filter, hf, List.append_assoc, List.singleton_append]

/-! ## Settled tables -/

/-- All that stands in an element of the table is in the table too, and it all has an encoding. -/
def Settled (t : Table) : Prop :=
  ∀ e ∈ t, Event.firstOffence? (e.events false) = none ∧ ∀ x ∈ e.occurrences, x ∈ t

theorem settled_nil : Settled [] := by
  simp [Settled]

/-- What a walk completes can be recorded in a settled table. -/
def Settles (evs : List Event) : Prop :=
  ∀ t : Table, t.Settled → (t.recordAll (Event.completed evs)).Settled

theorem settles_nil : Settles [] :=
  fun _ ht => ht

theorem settles_offence (why : EncodeError) (evs : List Event) : Settles (.offence why :: evs) :=
  fun _ ht => ht

theorem Settles.append {xs ys : List Event} (hx : Settles xs) (hy : Settles ys) :
    Settles (xs ++ ys) := by
  intro t ht
  cases h : Event.firstOffence? xs with
  | none =>
    rw [Event.completed_append_of_none h, recordAll_append]
    exact hy _ (hx t ht)
  | some why =>
    rw [Event.completed_append_of_some h]
    exact hx t ht

/-- Once the inside of an element is recorded, so can be the element. -/
theorem Settles.finish {s : Symbol} (h : Settles (s.events false)) :
    Settles (s.events false ++ [.finished s]) := by
  intro t ht
  cases ho : Event.firstOffence? (s.events false) with
  | some why =>
    rw [Event.completed_append_of_some ho]
    exact h t ht
  | none =>
    have inside := h t ht
    rw [Event.completed_append_of_none ho, recordAll_append, Symbol.completed_events ho] at *
    intro e he
    rcases mem_record.1 he with he | rfl
    · exact ⟨(inside e he).1, fun x hx => mem_record.2 (.inl ((inside e he).2 x hx))⟩
    · exact ⟨ho, fun x hx => mem_record.2 (.inl (mem_recordAll.2 (.inr hx)))⟩

mutual
theorem settles_events (pending : Bool) : (s : Symbol) → Settles (s.events pending)
  | .path es => settles_elementEvents es
  | .function callee args => by
    simp only [Symbol.events]
    have tail := (settles_events pending callee).append (settles_allEvents args)
    rw [List.append_assoc]
    split
    · exact settles_offence _ _
    · exact tail
  | .constructor _ => settles_offence _ _
  | .generic args => settles_allEvents args
  | .type _ => settles_nil
  | .operator _ => settles_offence _ _
  | .typed inner qualifiers => by
    simp only [Symbol.events]
    split
    · exact settles_events true inner
    · exact settles_events pending inner
  | .stray _ => settles_offence _ _

theorem settles_allEvents : (ss : List Symbol) → Settles (Symbol.allEvents ss)
  | [] => settles_nil
  | s :: ss => (settles_events false s).append (settles_allEvents ss)

theorem settles_elementEvents : (ss : List Symbol) → Settles (Symbol.elementEvents ss)
  | [] => settles_nil
  | s :: ss => by
    have h := (settles_events false s).finish.append (settles_elementEvents ss)
    simpa only [List.append_assoc, List.singleton_append, Symbol.elementEvents] using h
end

end Table

/-! ## Occurrences that were there before -/

/-- Of the occurrences numbered from `n` on, exactly those are to be left out that are in the
table or come earlier in the row. -/
def Marks (leave : Nat → Bool) (n : Nat) (t : Table) (row : List Symbol) : Prop :=
  ∀ i e, row[i]? = some e → (leave (n + i) = true ↔ e ∈ t ∨ e ∈ row.take i)

theorem marks_repeats (t : Table) (row : List Symbol) : Marks (repeats t row) 0 t row := by
  intro i e he
  simp [repeats, he]

theorem Marks.left {leave : Nat → Bool} {n : Nat} {t : Table} {xs ys : List Symbol}
    (h : Marks leave n t (xs ++ ys)) : Marks leave n t xs := by
  intro i e he
  obtain ⟨hi, -⟩ := List.getElem?_eq_some_iff.1 he
  have := h i e (by rw [List.getElem?_append_left hi, he])
  rwa [List.take_append_of_le_length (Nat.le_of_lt hi)] at this

theorem Marks.right {leave : Nat → Bool} {n : Nat} {t : Table} {xs ys : List Symbol}
    (h : Marks leave n t (xs ++ ys)) : Marks leave (n + xs.length) (t.recordAll xs) ys := by
  intro i e he
  have := h (xs.length + i) e (by rw [List.getElem?_append_right (by omega)]; simpa using he)
  rw [List.take_append, List.take_of_length_le (by omega), Nat.add_sub_cancel_left,
    List.mem_append, ← Nat.add_assoc] at this
  rw [this, Table.mem_recordAll, or_assoc]

/-- An element ends behind all that stands in it, and does not stand in itself. -/
theorem Marks.element {leave : Nat → Bool} {n : Nat} {t : Table} {s : Symbol} {row : List Symbol}
    (h : Marks leave n t (s.occurrences ++ s :: row)) :
    leave (n + s.occurrences.length) = true ↔ s ∈ t := by
  have := h s.occurrences.length s (by simp)
  rw [List.take_left] at this
  rw [this]
  exact ⟨fun hs => hs.resolve_right s.not_mem_occurrences_self, .inl⟩

/-! ## The encoder and the walk -/

/-- What encoding leaves if a walk comes by these events: the text and all elements, or the
first offence and what was finished before it. -/
def outcome (evs : List Event) (t : Table) (text : List Char) :
    EStateM.Result EncodeError Table (List Char) :=
  match Event.firstOffence? evs with
  | none => .ok text (t.recordAll (Event.completed evs))
  | some why => .error why (t.recordAll (Event.completed evs))

theorem outcome_bind {x : Encoder (List Char)} {f : List Char → Encoder (List Char)} {t : Table}
    {xs ys : List Event} {a b : List Char} (hx : x t = outcome xs t a)
    (hf : Event.firstOffence? xs = none →
      f a (t.recordAll (Event.completed xs)) = outcome ys (t.recordAll (Event.completed xs)) b) :
    (x >>= f) t = outcome (xs ++ ys) t b := by
  cases h : Event.firstOffence? xs with
  | none =>
    have hok : x t = .ok a (t.recordAll (Event.completed xs)) := by rw [hx, outcome, h]
    rw [EStateM.bind_of_ok hok, hf h]
    simp only [outcome, Event.firstOffence?_append, h, Option.none_or,
      Event.completed_append_of_none h, Table.recordAll_append]
  | some why =>
    have herr : x t = .error why (t.recordAll (Event.completed xs)) := by rw [hx, outcome, h]
    rw [EStateM.bind_of_error herr]
    simp only [outcome, Event.firstOffence?_append, h, Option.some_or,
      Event.completed_append_of_some h]

theorem outcome_map {x : Encoder (List Char)} {t : Table} {evs : List Event} {a : List Char}
    (f : List Char → List Char) (hx : x t = outcome evs t a) :
    (x >>= fun text => pure (f text)) t = outcome evs t (f a) := by
  rw [← List.append_nil evs]
  exact outcome_bind hx fun _ => rfl

theorem outcome_finished (e : Symbol) (evs : List Event) (t : Table) (text : List Char) :
    outcome (.finished e :: evs) t text = outcome evs (t.record e) text :=
  rfl

/-- Nothing comes of walking again through what is recorded. -/
theorem outcome_append_of_recorded {xs : List Event} {t : Table}
    (h : Event.firstOffence? xs = none) (hm : ∀ e ∈ Event.completed xs, e ∈ t) (ys : List Event)
    (text : List Char) : outcome (xs ++ ys) t text = outcome ys t text := by
  simp only [outcome, Event.firstOffence?_append, h, Option.none_or,
    Event.completed_append_of_none h, Table.recordAll_append, Table.recordAll_of_forall_mem hm]

mutual
theorem encode_eq_outcome (leave : Nat → Bool) (pending : Bool) : (s : Symbol) → (n : Nat) →
    (t : Table) → t.Settled → Marks leave n t s.occurrences →
    encode pending s t = outcome (s.events pending) t ((s.sketch leave n).print pending)
  | .path es, n, t, ht, hm => by
    simp only [encode, Symbol.events, Symbol.sketch, Sketch.print_path]
    exact outcome_map _ (encodeElements_eq_outcome leave es n t ht hm)
  | .type _, _, _, _, _ => rfl
  | .generic args, n, t, ht, hm => by
    simp only [encode, Symbol.events, Symbol.sketch, Sketch.print_generic]
    exact outcome_map _ (encodeAll_eq_outcome leave args n t ht hm)
  | .function callee args, n, t, ht, hm => by
    simp only [encode, Symbol.events, Symbol.sketch, Sketch.print]
    split
    · rfl
    · rw [List.nil_append]
      refine outcome_bind (encode_eq_outcome leave pending callee n t ht hm.left) fun ho => ?_
      have hs := Table.settles_events pending callee t ht
      rw [Symbol.completed_events ho] at hs
      rw [Symbol.completed_events ho]
      exact outcome_map _ (encodeAll_eq_outcome leave args _ _ hs hm.right)
  | .typed inner qualifiers, n, t, ht, hm => by
    simp only [encode, Symbol.events, Symbol.sketch, Sketch.print, Symbol.isFunction_sketch,
      Sketch.letter_eq]
    split
    · exact encode_eq_outcome leave true inner n t ht hm
    · exact outcome_map _ (encode_eq_outcome leave pending inner n t ht hm)
  | .constructor _, _, _, _, _ => rfl
  | .operator _, _, _, _, _ => rfl
  | .stray _, _, _, _, _ => rfl

theorem encodeAll_eq_outcome (leave : Nat → Bool) : (ss : List Symbol) → (n : Nat) → (t : Table) →
    t.Settled → Marks leave n t (Symbol.allOccurrences ss) →
    encodeAll ss t =
      outcome (Symbol.allEvents ss) t (Sketch.printAll (Symbol.sketchAll leave n ss))
  | [], _, _, _, _ => rfl
  | s :: ss, n, t, ht, hm => by
    simp only [encodeAll, Symbol.allEvents, Symbol.sketchAll, Sketch.printAll]
    refine outcome_bind (encode_eq_outcome leave false s n t ht hm.left) fun ho => ?_
    have hs := Table.settles_events false s t ht
    rw [Symbol.completed_events ho] at hs
    rw [Symbol.completed_events ho]
    exact outcome_map _ (encodeAll_eq_outcome leave ss _ _ hs hm.right)

theorem encodeElements_eq_outcome (leave : Nat → Bool) : (ss : List Symbol) → (n : Nat) →
    (t : Table) → t.Settled → Marks leave n t (Symbol.elementOccurrences ss) →
    encodeElements ss t =
      outcome (Symbol.elementEvents ss) t (Sketch.printAll (Symbol.sketchElements leave n ss))
  | [], _, _, _, _ => rfl
  | s :: ss, n, t, ht, hm => by
    have hs := Table.settles_events false s t ht
    simp only [encodeElements, Symbol.elementEvents, Symbol.sketchElements, Sketch.printAll]
    rw [EStateM.bind_of_ok (show (get : Encoder Table) t = .ok t t from rfl)]
    have hleave := hm.element
    have hrest : Marks leave (n + s.occurrences.length + 1) ((t.recordAll s.occurrences).record s)
        (Symbol.elementOccurrences ss) := by
      have h : Marks leave n t ((s.occurrences ++ [s]) ++ Symbol.elementOccurrences ss) := by
        simpa [Symbol.elementOccurrences] using hm
      simpa [Table.recordAll_append, Nat.add_assoc] using h.right
    by_cases hmem : s ∈ t
    · -- The walk goes through the element once more, and finds nothing that is not recorded.
      obtain ⟨ho, hin⟩ := ht s hmem
      have hall : ∀ e ∈ Event.completed (s.events false ++ [.finished s]), e ∈ t := by
        rw [Event.completed_append_of_none ho, Symbol.completed_events ho]
        intro e he
        rcases List.mem_append.1 he with he | he
        · exact hin e he
        · exact List.mem_singleton.1 he ▸ hmem
      rw [Table.recordAll_of_forall_mem hin, Table.record_of_mem hmem] at hrest
      rw [if_pos hmem, if_pos (hleave.2 hmem), ← List.singleton_append, ← List.append_assoc,
        outcome_append_of_recorded (by simp [Event.firstOffence?_append, ho, Event.firstOffence?])
          hall]
      exact outcome_map _ (encodeElements_eq_outcome leave ss _ t ht hrest)
    · rw [if_neg hmem, if_neg (mt hleave.1 hmem)]
      refine outcome_bind (encode_eq_outcome leave false s n t ht hm.left) fun ho => ?_
      have hdone : ((t.recordAll s.occurrences).record s).Settled := by
        have := (Table.settles_events false s).finish t ht
        rwa [Event.completed_append_of_none ho, Symbol.completed_events ho, Table.recordAll_append]
          at this
      rw [Symbol.completed_events ho, outcome_finished,
        EStateM.bind_of_ok (show (modify (Table.record · s) : Encoder Unit) _ = .ok () _ from rfl)]
      exact outcome_map _ (encodeElements_eq_outcome leave ss _ _ hdone hrest)
end

/-- Encoding with a settled table, compared with a walk and a sketch that know the whole symbol. -/
theorem encode_of_settled {t : Table} (ht : t.Settled) (pending : Bool) (s : Symbol) :
    encode pending s t = outcome (s.events pending) t ((s.marked t).print pending) :=
  encode_eq_outcome _ pending s 0 t ht (marks_repeats t s.occurrences)

/-- The linker name of a symbol without offences shows the sketch of the symbol. -/
theorem Symbol.linkerName_of_none {s : Symbol} (h : Event.firstOffence? (s.events false) = none) :
    s.linkerName = .ok (.ofList (linkerMark ++ (s.marked []).print false)) := by
  rw [linkerName, encode_of_settled Table.settled_nil, outcome, h]

theorem Symbol.linkerName_of_some {s : Symbol} {why : EncodeError}
    (h : Event.firstOffence? (s.events false) = some why) : s.linkerName = .error why := by
  rw [linkerName, encode_of_settled Table.settled_nil, outcome, h]

/-! ## Tables after calls -/

theorem Table.afterCall_of_settled {t : Table} (ht : t.Settled) (pending : Bool) (s : Symbol) :
    t.afterCall pending s = t.recordAll (Event.completed (s.events pending)) := by
  rw [afterCall, encode_of_settled ht, outcome]
  cases Event.firstOffence? (s.events pending) <;> rfl

theorem Table.settled_foldl_afterCall (calls : List (Bool × Symbol)) {t : Table} (ht : t.Settled) :
    Settled (calls.foldl (fun t call => t.afterCall call.1 call.2) t) := by
  induction calls generalizing t with
  | nil => exact ht
  | cons call calls ih =>
    refine ih (t := t.afterCall call.1 call.2) ?_
    rw [afterCall_of_settled ht]
    exact settles_events call.1 call.2 t ht

/-- No sequence of calls unsettles the table, whichever of them fail. -/
theorem Table.settled_afterCalls (calls : List (Bool × Symbol)) : (afterCalls calls).Settled :=
  settled_foldl_afterCall calls settled_nil

/-! ## Main theorem -/

/-- After any calls, encoding writes the symbol without regard to the table but for references in
place of exactly those outermost path elements that are in the table or end earlier in the
symbol. It adds to the table what it does not hold of all elements of the symbol, in the order in
which they end; if it fails, of those that end before the first symbol without encoding begins. -/
theorem encode_afterCalls (calls : List (Bool × Symbol)) (pending : Bool) (s : Symbol) :
    match encode pending s (Table.afterCalls calls) with
    | .ok text t =>
      text = (s.sketch (repeats (Table.afterCalls calls) s.occurrences) 0).print pending ∧
        t = (Table.afterCalls calls).extend s.occurrences
    | .error why t =>
      ∃ before later after, s.occurrences = before ++ later ∧
        s.events pending = before.map .finished ++ .offence why :: after ∧
        t = (Table.afterCalls calls).extend before := by
  rw [encode_of_settled (Table.settled_afterCalls calls), outcome]
  cases h : Event.firstOffence? (s.events pending) with
  | none =>
    refine ⟨rfl, ?_⟩
    rw [Symbol.completed_events h, Table.recordAll_eq_extend]
  | some why =>
    obtain ⟨after, hparts⟩ := Event.eq_of_firstOffence? h
    refine ⟨_, Event.elements after, after, ?_, hparts, Table.recordAll_eq_extend _ _⟩
    have hrow := congrArg Event.elements hparts
    rwa [Symbol.elements_events, Event.elements_append, Event.elements_map_finished] at hrow

end LinkerNames

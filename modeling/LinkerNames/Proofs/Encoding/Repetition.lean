import LinkerNames.Proofs.Encoding.Supported
import LinkerNames.Proofs.Symbol.Respelling
/-!
# Which elements repeat an earlier one

A sketch shows which outermost elements of a signature were there before, and says nothing of what
stands in those. That is no loss: all that stands in an element comes directly before it, so it was
there before as well wherever the element was. Of signatures that are the same under other names,
those and only those are written alike in which the same elements repeat an earlier one.
-/

namespace LinkerNames

/-- Nothing behind a row repeats what is in it. -/
theorem repeats_of_length_le {row : List Symbol} {i : Nat} (h : row.length ≤ i) :
    repeats [] row i = false := by
  rw [repeats, List.getElem?_eq_none h]

namespace Symbol

/-! ## What stands in an element comes directly before it -/

/-- All that stands in an element of the row comes directly before the element. -/
def Nested (row : List Symbol) : Prop :=
  ∀ i e, row[i]? = some e → e.occurrences <:+ row.take i

theorem nested_nil : Nested [] :=
  fun _ _ he => nomatch he

theorem Nested.append {xs ys : List Symbol} (hxs : Nested xs) (hys : Nested ys) :
    Nested (xs ++ ys) := by
  intro i e he
  rcases Nat.lt_or_ge i xs.length with hi | hi
  · rw [List.getElem?_append_left hi] at he
    rw [List.take_append_of_le_length (Nat.le_of_lt hi)]
    exact hxs i e he
  · rw [List.getElem?_append_right hi] at he
    rw [List.take_append, List.take_of_length_le hi]
    exact (hys _ e he).trans (List.suffix_append _ _)

theorem Nested.element {s : Symbol} (h : Nested s.occurrences) : Nested (s.occurrences ++ [s]) := by
  intro i e he
  rcases Nat.lt_trichotomy i s.occurrences.length with hi | rfl | hi
  · rw [List.getElem?_append_left hi] at he
    rw [List.take_append_of_le_length (Nat.le_of_lt hi)]
    exact h i e he
  · obtain rfl : s = e := by simpa using he
    exact ⟨[], List.take_left.symm⟩
  · have hbehind : (s.occurrences ++ [s]).length ≤ i := by rwa [List.length_append]
    rw [List.getElem?_eq_none hbehind] at he
    cases he

theorem nested_allOccurrences {ss : List Symbol} (ih : ∀ s ∈ ss, Nested s.occurrences) :
    Nested (allOccurrences ss) := by
  induction ss with
  | nil => exact nested_nil
  | cons s ss ihs =>
    exact (ih s List.mem_cons_self).append (ihs fun t ht => ih t (List.mem_cons_of_mem s ht))

theorem nested_elementOccurrences {ss : List Symbol} (ih : ∀ s ∈ ss, Nested s.occurrences) :
    Nested (elementOccurrences ss) := by
  induction ss with
  | nil => exact nested_nil
  | cons s ss ihs =>
    have := (ih s List.mem_cons_self).element.append
      (ihs fun t ht => ih t (List.mem_cons_of_mem s ht))
    rwa [List.append_assoc, List.singleton_append] at this

theorem nested_occurrences (s : Symbol) : Nested s.occurrences := by
  induction s using Symbol.induct with
  | path _ ih => exact nested_elementOccurrences ih
  | function _ _ ih ih' => exact ih.append (nested_allOccurrences ih')
  | constructor _ ih | generic _ ih => exact nested_allOccurrences ih
  | type | operator | stray => exact nested_nil
  | typed _ _ ih => exact ih

/-- As many as stand in an element, directly before it, do stand in it. -/
theorem Nested.exists_mem {row : List Symbol} (h : Nested row) {i j : Nat} {e : Symbol}
    (he : row[i]? = some e) (hj : j < i) (hinside : i ≤ j + e.occurrences.length) :
    ∃ x ∈ e.occurrences, row[j]? = some x := by
  obtain ⟨hi, -⟩ := List.getElem?_eq_some_iff.1 he
  obtain ⟨front, hfront⟩ := h i e he
  have hlength : front.length + e.occurrences.length = i := by
    rw [← List.length_append, hfront, List.length_take_of_le (Nat.le_of_lt hi)]
  have hbefore : front.length ≤ j := by omega
  have hlt : j - front.length < e.occurrences.length := by omega
  refine ⟨e.occurrences[j - front.length], List.getElem_mem hlt, ?_⟩
  rw [← List.getElem?_take_of_lt hj, ← hfront, List.getElem?_append_right hbefore,
    List.getElem?_eq_getElem hlt]

/-! ## What is left out is left out with its inside -/

/-- Where an element of the row is to be left out, so is all that stands in it. -/
def Hides (leave : Nat → Bool) (n : Nat) (row : List Symbol) : Prop :=
  ∀ i e, row[i]? = some e → leave (n + i) = true →
    ∀ j < i, i ≤ j + e.occurrences.length → leave (n + j) = true

variable {leave leave' : Nat → Bool} {n : Nat}

theorem Hides.left {xs ys : List Symbol} (h : Hides leave n (xs ++ ys)) : Hides leave n xs := by
  intro i e he
  obtain ⟨hi, -⟩ := List.getElem?_eq_some_iff.1 he
  exact h i e (by rw [List.getElem?_append_left hi, he])

theorem Hides.right {xs ys : List Symbol} (h : Hides leave n (xs ++ ys)) :
    Hides leave (n + xs.length) ys := by
  intro i e he hleave j hj hinside
  rw [Nat.add_assoc] at hleave ⊢
  have hat : (xs ++ ys)[xs.length + i]? = some e := by
    rw [List.getElem?_append_right (Nat.le_add_right _ _), Nat.add_sub_cancel_left, he]
  exact h _ e hat hleave (xs.length + j) (by omega) (by omega)

/-- How many elements stand in each member of a row. -/
def insides (row : List Symbol) : List Nat :=
  row.map (·.occurrences.length)

theorem insides_cons (e : Symbol) (row : List Symbol) :
    insides (e :: row) = e.occurrences.length :: insides row :=
  rfl

theorem insides_append (row row' : List Symbol) :
    insides (row ++ row') = insides row ++ insides row' :=
  List.map_append

theorem Hides.of_insides {row row' : List Symbol} (h : Hides leave n row)
    (hinsides : insides row = insides row') : Hides leave n row' := by
  intro i e' he'
  have hcount : (insides row)[i]? = some e'.occurrences.length := by
    rw [hinsides, insides, List.getElem?_map, he', Option.map_some]
  rw [insides, List.getElem?_map, Option.map_eq_some_iff] at hcount
  obtain ⟨e, he, hlength⟩ := hcount
  rw [← hlength]
  exact h i e he

/-- What is inside of what does not depend on the names. -/
theorem insides_map_rename (row : List Symbol) (r : String → String) :
    insides (row.map (rename r)) = insides row := by
  rw [insides, insides, List.map_map]
  exact List.map_congr_left fun s _ => length_occurrences_rename r s

theorem length_eq_of_insides {row row' : List Symbol} (h : insides row' = insides row) :
    row'.length = row.length := by
  simpa [insides] using congrArg List.length h

/-- Behind two rows of one length nothing repeats what is in them. -/
theorem repeats_eq_behind {row row' : List Symbol} (h : insides row' = insides row) (i : Nat)
    (hi : row.length ≤ i) : repeats [] row i = repeats [] row' i := by
  rw [repeats_of_length_le hi, repeats_of_length_le (length_eq_of_insides h ▸ hi)]

/-- What repeats something earlier holds what was there before. -/
theorem Nested.hides_repeats {row : List Symbol} (h : Nested row) :
    Hides (repeats [] row) 0 row := by
  have hmarks := marks_repeats [] row
  intro i e he hleave j hj hinside
  obtain ⟨x, hx, hxj⟩ := h.exists_mem he hj hinside
  obtain ⟨k, hk, hek⟩ := List.mem_take_iff_getElem.1
    (((hmarks i e he).1 hleave).resolve_left List.not_mem_nil)
  have hek : row[k]? = some e := List.getElem?_eq_some_iff.2 ⟨by omega, hek⟩
  -- The earlier occurrence is not in the inside of the later one, for nothing is inside of itself.
  have hkj : k ≤ j := by
    by_contra hkj
    obtain ⟨y, hy, hyk⟩ := h.exists_mem he (by omega : k < i) (by omega)
    rw [hek] at hyk
    cases hyk
    exact e.not_mem_occurrences_self hy
  refine (hmarks j x hxj).2 (.inr ?_)
  exact (List.take_subset_take_left row hkj) ((h k e hek).subset hx)

/-! ## Sketches show what is left out -/

theorem sketch_ne_reference (leave : Nat → Bool) (n : Nat) (s : Symbol) :
    s.sketch leave n ≠ .reference := by
  cases s <;> exact nofun

/-- The same is left out of a row in both cases. -/
def Agree (leave leave' : Nat → Bool) (n count : Nat) : Prop :=
  ∀ j < count, leave (n + j) = leave' (n + j)

theorem Agree.append {count count' : Nat} (h : Agree leave leave' n count)
    (h' : Agree leave leave' (n + count) count') : Agree leave leave' n (count + count') := by
  intro j hj
  rcases Nat.lt_or_ge j count with hlt | hge
  · exact h j hlt
  · have := h' (j - count) (by omega)
    rwa [Nat.add_assoc, Nat.add_sub_cancel' hge] at this

/-- If the same is written with what is left out in two ways, the same is left out. -/
def ShowsLeave (leave leave' : Nat → Bool) (s : Symbol) : Prop :=
  ∀ n, Hides leave n s.occurrences → Hides leave' n s.occurrences →
    s.sketch leave n = s.sketch leave' n → Agree leave leave' n s.occurrences.length

theorem agree_allOccurrences {ss : List Symbol} (ih : ∀ s ∈ ss, ShowsLeave leave leave' s) {n : Nat}
    (h : Hides leave n (allOccurrences ss)) (h' : Hides leave' n (allOccurrences ss))
    (hsketch : sketchAll leave n ss = sketchAll leave' n ss) :
    Agree leave leave' n (allOccurrences ss).length := by
  induction ss generalizing n with
  | nil => exact nofun
  | cons s ss ihs =>
    obtain ⟨hs, hss⟩ := List.cons.inj hsketch
    rw [allOccurrences, List.length_append]
    exact (ih s List.mem_cons_self n h.left h'.left hs).append
      (ihs (fun t ht => ih t (List.mem_cons_of_mem s ht)) h.right h'.right hss)

/-- An element is left out with all that stands in it, or shows what is left out of it. -/
theorem agree_element {s : Symbol} (ih : ShowsLeave leave leave' s) {n : Nat} {row : List Symbol}
    (h : Hides leave n (s.occurrences ++ s :: row))
    (h' : Hides leave' n (s.occurrences ++ s :: row))
    (hsketch : (if leave (n + s.occurrences.length) then .reference else s.sketch leave n) =
      if leave' (n + s.occurrences.length) then .reference else s.sketch leave' n) :
    Agree leave leave' n (s.occurrences.length + 1) := by
  have hat : (s.occurrences ++ s :: row)[s.occurrences.length]? = some s := by simp
  have hone {a b : Bool} (hab : a = b) (ha : leave (n + s.occurrences.length) = a)
      (hb : leave' (n + s.occurrences.length) = b) :
      Agree leave leave' (n + s.occurrences.length) 1 := by
    rintro j hj
    obtain rfl : j = 0 := by omega
    rw [Nat.add_zero, ha, hb, hab]
  cases hleave : leave (n + s.occurrences.length) <;>
    cases hleave' : leave' (n + s.occurrences.length) <;> rw [hleave, hleave'] at hsketch
  · exact (ih n h.left h'.left hsketch).append (hone rfl hleave hleave')
  · exact absurd hsketch (sketch_ne_reference _ _ s)
  · exact absurd hsketch.symm (sketch_ne_reference _ _ s)
  · refine Agree.append (fun j hj => ?_) (hone rfl hleave hleave')
    rw [h _ s hat hleave j hj (by omega), h' _ s hat hleave' j hj (by omega)]

theorem agree_elementOccurrences {ss : List Symbol} (ih : ∀ s ∈ ss, ShowsLeave leave leave' s)
    {n : Nat} (h : Hides leave n (elementOccurrences ss))
    (h' : Hides leave' n (elementOccurrences ss))
    (hsketch : sketchElements leave n ss = sketchElements leave' n ss) :
    Agree leave leave' n (elementOccurrences ss).length := by
  induction ss generalizing n with
  | nil => exact nofun
  | cons s ss ihs =>
    obtain ⟨hs, hss⟩ := List.cons.inj hsketch
    have hsplit :
        elementOccurrences (s :: ss) = (s.occurrences ++ [s]) ++ elementOccurrences ss := by
      rw [elementOccurrences, List.append_assoc, List.singleton_append]
    have hlength : (s.occurrences ++ [s]).length = s.occurrences.length + 1 := List.length_append
    have hfirst := agree_element (ih s List.mem_cons_self) h h' hs
    rw [hsplit] at h h' ⊢
    have hright := h.right
    have hright' := h'.right
    rw [hlength] at hright hright'
    rw [List.length_append, hlength]
    exact hfirst.append (ihs (fun t ht => ih t (List.mem_cons_of_mem s ht)) hright hright' hss)

theorem agree_function {callee : Symbol} {args : List Symbol} (ih : ShowsLeave leave leave' callee)
    (ih' : ∀ a ∈ args, ShowsLeave leave leave' a) {n : Nat}
    (h : Hides leave n (function callee args).occurrences)
    (h' : Hides leave' n (function callee args).occurrences)
    (hsketch : (function callee args).sketch leave n = (function callee args).sketch leave' n) :
    Agree leave leave' n (function callee args).occurrences.length := by
  obtain ⟨hcallee, hargs⟩ := Sketch.function.inj hsketch
  rw [occurrences, List.length_append]
  exact (ih n h.left h'.left hcallee).append (agree_allOccurrences ih' h.right h'.right hargs)

/-- The sketch of a symbol shows all that is left out of it. -/
theorem Supported.showsLeave {s : Symbol} (h : Supported s) (leave leave' : Nat → Bool) :
    ShowsLeave leave leave' s := by
  induction h with
  | type => exact fun _ _ _ _ => nofun
  | generic _ ih =>
    exact fun n h h' hsketch => agree_allOccurrences ih h h' (Sketch.generic.inj hsketch)
  | path _ ih =>
    exact fun n h h' hsketch => agree_elementOccurrences ih h h' (Sketch.path.inj hsketch)
  | typed _ ih => exact fun n h h' hsketch => ih n h h' (Sketch.typed.inj hsketch).1
  | function _ _ ih ih' => exact fun n h h' hsketch => agree_function ih ih' h h' hsketch

/-- Of one symbol the sketches with two choices of what is left out are the same, if and only if the
choices agree on all its elements. -/
theorem Supported.sketch_eq_iff {s : Symbol} (h : Supported s) {leave leave' : Nat → Bool}
    (hhides : Hides leave 0 s.occurrences) (hhides' : Hides leave' 0 s.occurrences)
    (hbehind : ∀ i, s.occurrences.length ≤ i → leave i = leave' i) :
    s.sketch leave 0 = s.sketch leave' 0 ↔ ∀ i, leave i = leave' i := by
  constructor
  · intro hsketch i
    rcases Nat.lt_or_ge i s.occurrences.length with hi | hi
    · have hagree := h.showsLeave leave leave' 0 hhides hhides' hsketch i hi
      rwa [Nat.zero_add] at hagree
    · exact hbehind i hi
  · intro hall
    rw [funext hall]

/-! ## The same signature under other names -/

/-- Signatures that are the same under other names show the same sketch with the same left out. -/
theorem Fits.sketch_eq_of_rename {role role' : Role} {s s' : Symbol} (h : Fits role s)
    (h' : Fits role' s') {r : String → String}
    (hr : ∀ name, encodeType (r name) = encodeType name) (hrename : s.rename r = s'.rename r)
    (leave : Nat → Bool) (n : Nat) : s.sketch leave n = s'.sketch leave n := by
  rw [← h.sketch_rename hr, hrename, h'.sketch_rename hr]

/-- Two signatures that are the same under other names are written alike if and only if the same
elements of both repeat an earlier one. -/
theorem Fits.marked_eq_iff {role role' : Role} {s s' : Symbol} (h : Fits role s)
    (h' : Fits role' s') {r : String → String}
    (hr : ∀ name, encodeType (r name) = encodeType name) (hrename : s.rename r = s'.rename r) :
    s.marked [] = s'.marked [] ↔ ∀ i, repeats [] s.occurrences i = repeats [] s'.occurrences i := by
  have hinsides : insides s'.occurrences = insides s.occurrences := by
    rw [← insides_map_rename _ r, ← occurrences_rename, ← hrename, occurrences_rename,
      insides_map_rename]
  rw [marked, marked, h'.sketch_eq_of_rename h hr hrename.symm]
  exact h.supported.sketch_eq_iff s.nested_occurrences.hides_repeats
    (s'.nested_occurrences.hides_repeats.of_insides hinsides) (repeats_eq_behind hinsides)

end Symbol

/-! ## Main theorem -/

/-- A signature whose builtin types are spelled in other ways is a signature too, and means the same
symbol up to the spelling of type names. Both have the same linker name if and only if the same
elements repeat an earlier one, for two spellings of one type are not the same element. -/
theorem linkerName_respelled {text text' : String} {s : Symbol} (h : Symbol.ofText text = .ok s)
    (hwords : Respelled (words text) (words text')) :
    ∃ s' name name', Symbol.ofText text' = .ok s' ∧ s'.coded = s.coded ∧
      linkerName text = .ok name ∧ linkerName text' = .ok name' ∧
      (name' = name ↔
        ∀ i, repeats [] s.occurrences i = repeats [] s'.occurrences i) := by
  obtain ⟨s', h', hrename⟩ := hwords.exists_ofText h
  obtain ⟨hfits, hname⟩ := linkerName_of_ofText h
  obtain ⟨hfits', hname'⟩ := linkerName_of_ofText h'
  have hcoded : s'.coded = s.coded := by
    rw [← Symbol.coded_rename encodeType_canonical s, hrename,
      Symbol.coded_rename encodeType_canonical s']
  have hsketch := hfits.marked_eq_iff hfits' encodeType_canonical hrename
  refine ⟨s', _, _, h', hcoded, hname, hname', ?_⟩
  rw [← hsketch]
  constructor
  · intro heq
    have hprint := List.append_cancel_left (String.ofList_injective heq)
    exact ((hfits'.sketch _ 0).print_inj (hfits.sketch _ 0) hprint).symm
  · intro heq
    rw [heq]

/-- A path with two template arguments that are builtin types. -/
theorem respelled_template_arguments {first first' second second' : String}
    (h : Synonymous first first') (h' : Synonymous second second') :
    Respelled
      ("f" :: "<" :: (words first ++
        ">" :: "::" :: "g" :: "<" :: (words second ++ [">", "(", ")"])))
      ("f" :: "<" :: (words first' ++
        ">" :: "::" :: "g" :: "<" :: (words second' ++ [">", "(", ")"]))) := by
  have hbehind : Respelled [">", "(", ")"] [">", "(", ")"] :=
    .other (by decide) (.other (by decide) (.other (by decide) .nil))
  have hsecond := Respelled.builtin h' (by rintro w ⟨⟩; decide) hbehind
  have hbetween := Respelled.builtin h (by rintro w ⟨⟩; decide)
    (.other (w := ">") (by decide) (.other (w := "::") (by decide)
      (.other (w := "g") (by decide) (.other (w := "<") (by decide) hsecond))))
  exact .other (by decide) (.other (by decide) hbetween)

/-- Where all spellings of a type are replaced alike, the same elements repeat an earlier one. -/
theorem linkerName_respelled_alike :
    ∃ name, linkerName "f<long>::g<long>()" = .ok name ∧
      linkerName "f<long int>::g<long int>()" = .ok name := by
  have h : Symbol.ofText "f<long>::g<long>()" = .ok (.function (.path
      [.type "f", .generic [.typed (.type "long") []], .type "g",
        .generic [.typed (.type "long") []]]) []) :=
    Except.eq_ok_of_toOption (by decide +kernel)
  have h' : Symbol.ofText "f<long int>::g<long int>()" = .ok (.function (.path
      [.type "f", .generic [.typed (.type "long int") []], .type "g",
        .generic [.typed (.type "long int") []]]) []) :=
    Except.eq_ok_of_toOption (by decide +kernel)
  have hsame : Synonymous "long" "long int" := by decide +kernel
  have hrow := respelled_template_arguments hsame hsame
  have hwords : Respelled (words "f<long>::g<long>()") (words "f<long int>::g<long int>()") := by
    convert hrow using 1 <;> decide +kernel
  obtain ⟨s', name, name', hs', -, hname, hname', hiff⟩ := linkerName_respelled h hwords
  obtain rfl := Except.ok.inj (h'.symm.trans hs')
  obtain rfl : name' = name := hiff.2 fun i => by
    rcases Nat.lt_or_ge i 4 with hi | hi
    · revert i
      decide +kernel
    · rw [repeats_of_length_le hi, repeats_of_length_le hi]
  exact ⟨name', hname, hname'⟩

/-- Where they are not, an element is no longer the same as an earlier one, and the name changes. -/
theorem linkerName_respelled_apart :
    ¬ ∀ text text' s, Symbol.ofText text = .ok s → Respelled (words text) (words text') →
      (∃ s', Symbol.ofText text' = .ok s') ∧ linkerName text' = linkerName text := by
  intro h
  have hs : Symbol.ofText "f<int>::g<int>()" = .ok (.function (.path
      [.type "f", .generic [.typed (.type "int") []], .type "g",
        .generic [.typed (.type "int") []]]) []) :=
    Except.eq_ok_of_toOption (by decide +kernel)
  have hrow := respelled_template_arguments (by decide +kernel : Synonymous "int" "int")
    (by decide +kernel : Synonymous "int" "signed")
  have hwords : Respelled (words "f<int>::g<int>()") (words "f<int>::g<signed>()") := by
    convert hrow using 1 <;> decide +kernel
  exact absurd (h _ _ _ hs hwords).2 (by decide +kernel)

end LinkerNames

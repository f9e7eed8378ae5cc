import LinkerNames.Proofs.Encoding.Decoding
import Mathlib.Data.List.Basic
/-!
# What references back stand for

A reference back has no number, so a linker name does not say which element stands there, and two
signatures can have the same name. That is all that is lost but for the spellings of codes: with the
numbers of the elements that its references stand for, a linker name determines its signature.

The elements are numbered as they come into the table. Two walks with the same sketch and the same
references record elements that are the same up to spelling, one by one, so that equal numbers stand
for equal elements.
-/

namespace LinkerNames
namespace Symbol

mutual
/-- A symbol with its type names replaced. -/
def rename (r : String → String) : Symbol → Symbol
  | .path elements => .path (renameAll r elements)
  | .function callee args => .function (rename r callee) (renameAll r args)
  | .constructor args => .constructor (renameAll r args)
  | .generic args => .generic (renameAll r args)
  | .type name => .type (r name)
  | .operator name => .operator name
  | .typed inner qualifiers => .typed (rename r inner) qualifiers
  | .stray text => .stray text

/-- Some symbols with their type names replaced. -/
def renameAll (r : String → String) : List Symbol → List Symbol
  | [] => []
  | s :: ss => rename r s :: renameAll r ss
end

/-- A symbol up to the spelling of its type names: in place of each stands what is written for
it. -/
def coded (s : Symbol) : Symbol :=
  s.rename encodeType

mutual
/-- The numbers in the table of the elements that the references back in a symbol stand for, from
left to right, if the table is `t` where the symbol begins. -/
def references (t : Table) : Symbol → List Nat
  | .path elements => elementReferences t elements
  | .function callee args =>
    references t callee ++ allReferences (t.recordAll callee.occurrences) args
  | .generic args => allReferences t args
  | .typed inner _ => references t inner
  | .constructor _ | .type _ | .operator _ | .stray _ => []

/-- The references in some symbols, one after the other. -/
def allReferences (t : Table) : List Symbol → List Nat
  | [] => []
  | s :: ss => references t s ++ allReferences (t.recordAll s.occurrences) ss

/-- The references in the elements of a path, and those in place of elements. -/
def elementReferences (t : Table) : List Symbol → List Nat
  | [] => []
  | s :: ss =>
    (if s ∈ t then [t.idxOf s] else references t s) ++
      elementReferences ((t.recordAll s.occurrences).record s) ss
end

end Symbol

/-! ## Two walks -/

/-- Two tables hold the same elements in the same order, up to spelling. -/
def Table.Alike (t t' : Table) : Prop :=
  t.map Symbol.coded = t'.map Symbol.coded

/-- A walk is about to come by a row of elements: the table is settled, and `leave` tells from the
number on which of the row were there before. -/
structure Aligned (leave : Nat → Bool) (n : Nat) (t : Table) (row : List Symbol) : Prop where
  settled : t.Settled
  marks : Marks leave n t row

theorem Table.Alike.record {t t' : Table} {e e' : Symbol} (h : t.Alike t') (he : e ∉ t)
    (he' : e' ∉ t') (hcoded : e.coded = e'.coded) : (t.record e).Alike (t'.record e') := by
  rw [Alike, record_of_not_mem he, record_of_not_mem he', List.map_append, List.map_append, h]
  simp [hcoded]

/-- Elements with the same number are the same up to spelling. -/
theorem Table.Alike.coded_eq {t t' : Table} {e e' : Symbol} (h : t.Alike t') (he : e ∈ t)
    (he' : e' ∈ t') (hnumber : t.idxOf e = t'.idxOf e') : e.coded = e'.coded := by
  have hat {t : Table} {e : Symbol} (he : e ∈ t) :
      (t.map Symbol.coded)[t.idxOf e]? = some e.coded := by
    rw [List.getElem?_map, List.getElem?_idxOf he, Option.map_some]
  have := hat he
  rw [h, hnumber, hat he', Option.some_inj] at this
  exact this.symm

/-- What a signature means leaves a settled table behind. -/
theorem Symbol.Fits.settled_recordAll {role : Role} {s : Symbol} (h : Fits role s) {t : Table}
    (ht : t.Settled) : (t.recordAll s.occurrences).Settled := by
  have := Table.settles_events false s t ht
  rwa [completed_events (h.firstOffence?_events false)] at this

/-- Behind an element the table holds it and all that stands in it. -/
theorem Aligned.element {leave : Nat → Bool} {n : Nat} {t : Table} {s : Symbol}
    {row : List Symbol} (h : Aligned leave n t (s.occurrences ++ s :: row))
    (hs : Symbol.Fits .element s) :
    Aligned leave (n + s.occurrences.length + 1) ((t.recordAll s.occurrences).record s) row := by
  constructor
  · have hdone := (Table.settles_events false s).finish t h.settled
    have hnone := hs.firstOffence?_events false
    rwa [Event.completed_append_of_none hnone, Symbol.completed_events hnone,
      Table.recordAll_append] at hdone
  · have hparts : Marks leave n t ((s.occurrences ++ [s]) ++ row) := by
      simpa using h.marks
    simpa [Table.recordAll_append, Nat.add_assoc] using hparts.right

/-- Two walks from alike tables with the same sketch and the same references come by the same up to
spelling, and to alike tables. -/
def Determined (s s' : Symbol) : Prop :=
  ∀ {leave leave' : Nat → Bool} {n n' : Nat} {t t' : Table} {r r' : List Nat},
    Aligned leave n t s.occurrences → Aligned leave' n' t' s'.occurrences → t.Alike t' →
    s.sketch leave n = s'.sketch leave' n' → s.references t ++ r = s'.references t' ++ r' →
    s.coded = s'.coded ∧ (t.recordAll s.occurrences).Alike (t'.recordAll s'.occurrences) ∧ r = r'

/-- Nothing is to be shown of symbols with different sketches. -/
theorem Determined.of_ne {s s' : Symbol}
    (h : ∀ leave n leave' n', s.sketch leave n ≠ s'.sketch leave' n') : Determined s s' :=
  fun _ _ _ hsketch _ => absurd hsketch (h _ _ _ _)

namespace Symbol

theorem determined_all {role : Role} {ss ss' : List Symbol}
    (hss : ∀ s ∈ ss, Fits role s) (hss' : ∀ s ∈ ss', Fits role s)
    (ih : ∀ s ∈ ss, ∀ s', Fits role s' → Determined s s') {leave leave' : Nat → Bool} {n n' : Nat}
    {t t' : Table} {r r' : List Nat} (ht : Aligned leave n t (allOccurrences ss))
    (ht' : Aligned leave' n' t' (allOccurrences ss')) (halike : t.Alike t')
    (hsketch : sketchAll leave n ss = sketchAll leave' n' ss')
    (hreferences : allReferences t ss ++ r = allReferences t' ss' ++ r') :
    renameAll encodeType ss = renameAll encodeType ss' ∧
      (t.recordAll (allOccurrences ss)).Alike (t'.recordAll (allOccurrences ss')) ∧ r = r' := by
  induction ss generalizing ss' n n' t t' with
  | nil =>
    cases ss' with
    | nil => exact ⟨rfl, halike, hreferences⟩
    | cons s' ss' => cases hsketch
  | cons s ss ihs =>
    cases ss' with
    | nil => cases hsketch
    | cons s' ss' =>
      obtain ⟨hs, hrest⟩ := List.cons.inj hsketch
      rw [allReferences, allReferences, List.append_assoc, List.append_assoc] at hreferences
      have hfits := hss s List.mem_cons_self
      have hfits' := hss' s' List.mem_cons_self
      obtain ⟨hcoded, halike, hreferences⟩ := ih s List.mem_cons_self s' hfits'
        ⟨ht.settled, ht.marks.left⟩ ⟨ht'.settled, ht'.marks.left⟩ halike hs hreferences
      obtain ⟨hall, halike, hr⟩ := ihs (fun x hx => hss x (List.mem_cons_of_mem s hx))
        (fun x hx => hss' x (List.mem_cons_of_mem s' hx))
        (fun x hx => ih x (List.mem_cons_of_mem s hx))
        ⟨hfits.settled_recordAll ht.settled, ht.marks.right⟩
        ⟨hfits'.settled_recordAll ht'.settled, ht'.marks.right⟩ halike hrest hreferences
      rw [allOccurrences, allOccurrences, Table.recordAll_append, Table.recordAll_append]
      refine ⟨?_, halike, hr⟩
      rw [renameAll, renameAll, hall]
      exact congrArg (· :: _) hcoded

/-- A step along two paths: the walks come by an element each, or leave one out each. -/
theorem determined_element {s s' : Symbol} (hs : Fits .element s) (hs' : Fits .element s')
    (ih : Determined s s') {leave leave' : Nat → Bool} {n n' : Nat} {t t' : Table}
    {r r' : List Nat} {row row' : List Symbol}
    (ht : Aligned leave n t (s.occurrences ++ s :: row))
    (ht' : Aligned leave' n' t' (s'.occurrences ++ s' :: row')) (halike : t.Alike t')
    (hsketch : (if leave (n + s.occurrences.length) then .reference else s.sketch leave n) =
      if leave' (n' + s'.occurrences.length) then .reference else s'.sketch leave' n')
    (hreferences : (if s ∈ t then [t.idxOf s] else s.references t) ++ r =
      (if s' ∈ t' then [t'.idxOf s'] else s'.references t') ++ r') :
    s.coded = s'.coded ∧
      ((t.recordAll s.occurrences).record s).Alike ((t'.recordAll s'.occurrences).record s') ∧
      r = r' := by
  have hne {s : Symbol} (h : Fits .element s) {leave : Nat → Bool} {n : Nat} :
      s.sketch leave n ≠ .reference := by
    cases h with
    | elementType h => cases h; exact nofun
    | generic => exact nofun
  have hmem := ht.marks.element
  have hmem' := ht'.marks.element
  by_cases h : s ∈ t
  · -- Both leave the element out, which is in the table with all that stands in it.
    rw [if_pos (hmem.2 h)] at hsketch
    have h' : s' ∈ t' := by
      by_contra h'
      rw [if_neg (mt hmem'.1 h')] at hsketch
      exact hne hs' hsketch.symm
    rw [if_pos h, if_pos h', List.singleton_append, List.singleton_append] at hreferences
    obtain ⟨hnumber, hr⟩ := List.cons.inj hreferences
    rw [Table.recordAll_of_forall_mem (ht.settled s h).2, Table.record_of_mem h,
      Table.recordAll_of_forall_mem (ht'.settled s' h').2, Table.record_of_mem h']
    exact ⟨halike.coded_eq h h' hnumber, halike, hr⟩
  · rw [if_neg (mt hmem.1 h)] at hsketch
    have h' : s' ∉ t' := by
      intro h'
      rw [if_pos (hmem'.2 h')] at hsketch
      exact hne hs hsketch
    rw [if_neg (mt hmem'.1 h')] at hsketch
    rw [if_neg h, if_neg h'] at hreferences
    obtain ⟨hcoded, hinside, hr⟩ := ih ⟨ht.settled, ht.marks.left⟩ ⟨ht'.settled, ht'.marks.left⟩
      halike hsketch hreferences
    have hnew {s : Symbol} {t : Table} (h : s ∉ t) : s ∉ t.recordAll s.occurrences := fun hs =>
      (Table.mem_recordAll.1 hs).elim h s.not_mem_occurrences_self
    exact ⟨hcoded, hinside.record (hnew h) (hnew h') hcoded, hr⟩

theorem determined_elements {ss ss' : List Symbol} (hss : ∀ s ∈ ss, Fits .element s)
    (hss' : ∀ s ∈ ss', Fits .element s)
    (ih : ∀ s ∈ ss, ∀ s', Fits .element s' → Determined s s') {leave leave' : Nat → Bool}
    {n n' : Nat} {t t' : Table} {r r' : List Nat} (ht : Aligned leave n t (elementOccurrences ss))
    (ht' : Aligned leave' n' t' (elementOccurrences ss')) (halike : t.Alike t')
    (hsketch : sketchElements leave n ss = sketchElements leave' n' ss')
    (hreferences : elementReferences t ss ++ r = elementReferences t' ss' ++ r') :
    renameAll encodeType ss = renameAll encodeType ss' ∧
      (t.recordAll (elementOccurrences ss)).Alike (t'.recordAll (elementOccurrences ss')) ∧
      r = r' := by
  induction ss generalizing ss' n n' t t' with
  | nil =>
    cases ss' with
    | nil => exact ⟨rfl, halike, hreferences⟩
    | cons s' ss' => cases hsketch
  | cons s ss ihs =>
    cases ss' with
    | nil => cases hsketch
    | cons s' ss' =>
      obtain ⟨hs, hrest⟩ := List.cons.inj hsketch
      rw [elementReferences, elementReferences, List.append_assoc, List.append_assoc] at hreferences
      have hfits := hss s List.mem_cons_self
      have hfits' := hss' s' List.mem_cons_self
      obtain ⟨hcoded, halike, hreferences⟩ := determined_element hfits hfits'
        (ih s List.mem_cons_self s' hfits') ht ht' halike hs hreferences
      obtain ⟨hall, halike, hr⟩ := ihs (fun x hx => hss x (List.mem_cons_of_mem s hx))
        (fun x hx => hss' x (List.mem_cons_of_mem s' hx))
        (fun x hx => ih x (List.mem_cons_of_mem s hx))
        (ht.element hfits) (ht'.element hfits') halike hrest hreferences
      have hbehind (s : Symbol) (ss : List Symbol) (t : Table) :
          t.recordAll (elementOccurrences (s :: ss)) =
            ((t.recordAll s.occurrences).record s).recordAll (elementOccurrences ss) := by
        rw [elementOccurrences, Table.recordAll_append, Table.recordAll_cons]
      rw [hbehind, hbehind]
      refine ⟨?_, halike, hr⟩
      rw [renameAll, renameAll, hall]
      exact congrArg (· :: _) hcoded

theorem determined_function {name name' : Symbol} {args args' : List Symbol}
    (hname : Fits .path name) (hname' : Fits .path name') (hargs : ∀ a ∈ args, Fits .argument a)
    (hargs' : ∀ a ∈ args', Fits .argument a) (ih : Determined name name')
    (ih' : ∀ a ∈ args, ∀ a', Fits .argument a' → Determined a a') :
    Determined (.function name args) (.function name' args') := by
  intro leave leave' n n' t t' r r' ht ht' halike hsketch hreferences
  obtain ⟨hs, hrest⟩ := Sketch.function.inj hsketch
  rw [references, references, List.append_assoc, List.append_assoc] at hreferences
  obtain ⟨hcoded, halike, hreferences⟩ := ih ⟨ht.settled, ht.marks.left⟩
    ⟨ht'.settled, ht'.marks.left⟩ halike hs hreferences
  obtain ⟨hall, halike, hr⟩ := determined_all hargs hargs' ih'
    ⟨hname.settled_recordAll ht.settled, ht.marks.right⟩
    ⟨hname'.settled_recordAll ht'.settled, ht'.marks.right⟩ halike hrest hreferences
  rw [occurrences, occurrences, Table.recordAll_append, Table.recordAll_append]
  refine ⟨?_, halike, hr⟩
  rw [coded, coded, rename, rename, hall]
  exact congrArg (Symbol.function · _) hcoded

/-- Of two symbols with qualifiers, what the qualifiers are said of. -/
theorem determined_typed {s s' : Symbol} {qualifiers qualifiers' : List Qualifier}
    (ih : Determined s s') : Determined (.typed s qualifiers) (.typed s' qualifiers') := by
  intro leave leave' n n' t t' r r' ht ht' halike hsketch hreferences
  obtain ⟨hs, rfl⟩ := Sketch.typed.inj hsketch
  obtain ⟨hcoded, halike, hr⟩ := ih ht ht' halike hs hreferences
  exact ⟨congrArg (Symbol.typed · qualifiers) hcoded, halike, hr⟩

theorem Fits.determined {role : Role} {s s' : Symbol} (h : Fits role s) (h' : Fits role s') :
    Determined s s' := by
  induction h generalizing s' with
  | type =>
    cases h' with
    | type =>
      intro leave leave' n n' t t' r r' _ _ halike hsketch hreferences
      exact ⟨congrArg Symbol.type (Sketch.code.inj hsketch), halike, hreferences⟩
  | elementType h ih =>
    cases h' with
    | elementType h' => exact ih h'
    | generic =>
      cases h with
      | type => exact Determined.of_ne (by rintro _ _ _ _ ⟨⟩)
  | generic hargs ih =>
    cases h' with
    | elementType h' =>
      cases h' with
      | type => exact Determined.of_ne (by rintro _ _ _ _ ⟨⟩)
    | generic hargs' =>
      intro leave leave' n n' t t' r r' ht ht' halike hsketch hreferences
      obtain ⟨hall, halike, hr⟩ := determined_all hargs hargs' (fun a ha _ => ih a ha) ht ht' halike
        (Sketch.generic.inj hsketch) hreferences
      exact ⟨congrArg Symbol.generic hall, halike, hr⟩
  | path _ hes ih =>
    cases h' with
    | path _ hes' =>
      intro leave leave' n n' t t' r r' ht ht' halike hsketch hreferences
      obtain ⟨hall, halike, hr⟩ :=
        determined_elements hes hes' (fun e he _ => ih e he) ht ht' halike
        (Sketch.path.inj hsketch) hreferences
      exact ⟨congrArg Symbol.path hall, halike, hr⟩
  | innerType h ih =>
    cases h' with
    | innerType h' => exact ih h'
    | innerPath h' =>
      cases h with
      | type =>
        cases h' with
        | path => exact Determined.of_ne (by rintro _ _ _ _ ⟨⟩)
  | innerPath h ih =>
    cases h' with
    | innerType h' =>
      cases h with
      | path =>
        cases h' with
        | type => exact Determined.of_ne (by rintro _ _ _ _ ⟨⟩)
    | innerPath h' => exact ih h'
  | argument h ih =>
    cases h' with
    | argument h' => exact determined_typed (ih h')
  | function hname hargs ih ih' =>
    cases h' with
    | function hname' hargs' =>
      exact determined_function hname hname' hargs hargs' (ih hname') fun a ha _ => ih' a ha
    | constFunction => exact Determined.of_ne (by rintro _ _ _ _ ⟨⟩)
  | constFunction hname hargs ih ih' =>
    cases h' with
    | function => exact Determined.of_ne (by rintro _ _ _ _ ⟨⟩)
    | constFunction hname' hargs' =>
      exact determined_typed
        (determined_function hname hname' hargs hargs' (ih hname') fun a ha _ => ih' a ha)

end Symbol

/-! ## Main theorem -/

/-- Two signatures with the same linker name are the same up to the spelling of type names, if the
references back in both stand for elements with the same numbers. -/
theorem coded_eq_of_linkerName_eq {text text' : String} {s s' : Symbol}
    (h : Symbol.ofText text = .ok s) (h' : Symbol.ofText text' = .ok s')
    (hname : linkerName text = linkerName text')
    (hreferences : s.references [] = s'.references []) :
    s.coded = s'.coded := by
  obtain ⟨hfits, heq⟩ := linkerName_of_ofText h
  obtain ⟨hfits', heq'⟩ := linkerName_of_ofText h'
  have hprint : (s.marked []).print false = (s'.marked []).print false := by
    rw [heq, heq'] at hname
    exact List.append_cancel_left (String.ofList_injective (Except.ok.inj hname))
  have hsketch := (hfits.sketch _ 0).print_inj (hfits'.sketch _ 0) hprint
  have hlist : s.references [] ++ ([] : List Nat) = s'.references [] ++ [] := by rw [hreferences]
  exact (hfits.determined hfits' ⟨Table.settled_nil, marks_repeats [] s.occurrences⟩
    ⟨Table.settled_nil, marks_repeats [] s'.occurrences⟩ rfl hsketch hlist).1

/-- Spellings of one code do not show, also where the references stand for the same elements. -/
theorem coded_eq_of_linkerName_eq_spelling :
    ∃ s s', Symbol.ofText "a::b::a(int)" = .ok s ∧ Symbol.ofText "a::b::a(signed int)" = .ok s' ∧
      s.coded = s'.coded := by
  have hleft : Symbol.ofText "a::b::a(int)" =
      .ok (.function (.path [.type "a", .type "b", .type "a"]) [.typed (.type "int") []]) :=
    Except.eq_ok_of_toOption (by decide +kernel)
  have hright : Symbol.ofText "a::b::a(signed int)" =
      .ok (.function (.path [.type "a", .type "b", .type "a"]) [.typed (.type "signed int") []]) :=
    Except.eq_ok_of_toOption (by decide +kernel)
  exact ⟨_, _, hleft, hright, coded_eq_of_linkerName_eq hleft hright (by decide +kernel)
    (by decide +kernel)⟩

/-- A linker name does not say which of two elements a reference back stands for. -/
theorem linkerName_not_injective :
    ¬ ∀ text text' s s', Symbol.ofText text = .ok s → Symbol.ofText text' = .ok s' →
      linkerName text = linkerName text' → s.coded = s'.coded := by
  intro h
  have hleft : Symbol.ofText "a::b::a()" =
      .ok (.function (.path [.type "a", .type "b", .type "a"]) []) :=
    Except.eq_ok_of_toOption (by decide +kernel)
  have hright : Symbol.ofText "a::b::b()" =
      .ok (.function (.path [.type "a", .type "b", .type "b"]) []) :=
    Except.eq_ok_of_toOption (by decide +kernel)
  have hname : linkerName "a::b::a()" = linkerName "a::b::b()" := by decide +kernel
  exact absurd (h _ _ _ _ hleft hright hname) (by decide +kernel)

end LinkerNames

import LinkerNames.Proofs.Encoding.Decoding
import LinkerNames.Proofs.Encoding.Failure
/-!
# Symbols of kinds that are encoded

A symbol that has an encoding is made of paths, functions, template arguments, types and wrappers
alone. What is written for such a symbol does not begin like a reference back. So of one symbol,
written twice with different choices of what is left out, the two texts show where the choices part:
one text goes on with a reference and the other does not. This holds of any symbol that can be
encoded, also where a linker name does not tell which symbol it is the name of.
-/

namespace LinkerNames
namespace Symbol

/-- Nothing in a symbol is of a kind that is not encoded. -/
inductive Supported : Symbol → Prop
  | path {elements : List Symbol} : (∀ e ∈ elements, Supported e) → Supported (.path elements)
  | function {callee : Symbol} {args : List Symbol} : Supported callee →
    (∀ a ∈ args, Supported a) → Supported (.function callee args)
  | generic {args : List Symbol} : (∀ a ∈ args, Supported a) → Supported (.generic args)
  | type {name : String} : Supported (.type name)
  | typed {inner : Symbol} {qualifiers : List Qualifier} : Supported inner →
    Supported (.typed inner qualifiers)

theorem supported_of_parts (isConst : Bool) {s : Symbol}
    (h : ∀ p ∈ s.parts isConst, p.offence? = none) : Supported s := by
  induction s using Symbol.induct generalizing isConst with
  | path es ih =>
    refine .path fun e he => ih e he false fun p hp => h p ?_
    exact List.mem_cons_of_mem _ (mem_allParts.2 ⟨e, he, hp⟩)
  | function callee args ih ih' =>
    refine .function (ih false fun p hp => h p ?_) fun a ha => ih' a ha false fun p hp => h p ?_
    · exact List.mem_cons_of_mem _ (List.mem_append_left _ hp)
    · exact List.mem_cons_of_mem _ (List.mem_append_right _ (mem_allParts.2 ⟨a, ha, hp⟩))
  | generic args ih =>
    refine .generic fun a ha => ih a ha false fun p hp => h p ?_
    exact List.mem_cons_of_mem _ (mem_allParts.2 ⟨a, ha, hp⟩)
  | constructor | operator | stray => cases h _ (mem_parts_self isConst _)
  | type => exact .type
  | typed inner qualifiers ih => exact .typed (ih _ fun p hp => h p (List.mem_cons_of_mem _ hp))

/-- A walk without offence goes through supported symbols alone. -/
theorem supported_of_firstOffence? {pending : Bool} {s : Symbol}
    (h : Event.firstOffence? (s.events pending) = none) : Supported s := by
  rw [firstOffence?_events_eq, List.findSome?_eq_none_iff] at h
  exact supported_of_parts pending h

theorem Fits.supported {role : Role} {s : Symbol} (h : Fits role s) : Supported s :=
  supported_of_firstOffence? (h.firstOffence?_events false)

/-! ## How texts begin -/

theorem not_backReference_prefix_encodeType (name : String) (r : List Char) :
    ¬ ['S', '_'] <+: (encodeType name).toList ++ r := by
  intro h
  cases hcode : typeCode? name with
  | some code =>
    obtain ⟨hmem, hne⟩ := mem_of_typeCode? hcode
    rw [encodeType, hcode, Option.getD_some] at h
    -- Of two texts that a third begins with one begins the other.
    rcases List.prefix_or_prefix_of_prefix h (List.prefix_append _ r) with h | h
    · exact hne (eq_of_prefix_fixedText _ List.mem_cons_self _ hmem h).symm
    · exact hne (eq_of_prefix_fixedText _ hmem _ List.mem_cons_self h)
  | none =>
    obtain ⟨c, cs, htext, hc⟩ := lengthPrefixed_eq_cons name
    rw [encodeType, hcode, Option.getD_none, htext] at h
    obtain ⟨t, ht⟩ := h
    obtain rfl : 'S' = c := (List.cons.inj ht).1
    cases hc

/-- What is written for a symbol does not begin like a reference back. -/
theorem Supported.not_backReference_prefix {s : Symbol} (h : Supported s) (leave : Nat → Bool)
    (n : Nat) (pending : Bool) (r : List Char) :
    ¬ ['S', '_'] <+: (s.sketch leave n).print pending ++ r := by
  induction h generalizing n pending r with
  | path =>
    rw [sketch, Sketch.print_path_append]
    rintro ⟨t, ht⟩
    cases (List.cons.inj ht).1
  | function _ _ ih =>
    rw [sketch, Sketch.print, List.append_assoc]
    exact ih n pending _
  | generic =>
    rw [sketch, Sketch.print_generic_append]
    rintro ⟨t, ht⟩
    cases (List.cons.inj ht).1
  | type => exact not_backReference_prefix_encodeType _ r
  | @typed inner qualifiers _ ih =>
    rw [sketch, Sketch.print]
    split
    · exact ih n true r
    · cases qualifiers with
      | nil => exact ih n pending r
      | cons q qs =>
        rintro ⟨t, ht⟩
        have hletter : 'S' = Sketch.letter q := (List.cons.inj ht).1
        cases q <;> cases hletter

/-! ## Two texts of one symbol -/

variable {leave leave' : Nat → Bool}

/-- If a symbol is written the same with two choices of what is left out, whatever comes behind, its
sketches are the same, and so is what comes behind. -/
def ShowsSketch (leave leave' : Nat → Bool) (s : Symbol) : Prop :=
  ∀ n pending r r', (s.sketch leave n).print pending ++ r =
    (s.sketch leave' n).print pending ++ r' → s.sketch leave n = s.sketch leave' n ∧ r = r'

theorem showsSketch_all {ss : List Symbol} (ih : ∀ s ∈ ss, ShowsSketch leave leave' s) {n : Nat}
    {r r' : List Char} (h : Sketch.printAll (sketchAll leave n ss) ++ r =
      Sketch.printAll (sketchAll leave' n ss) ++ r') :
    sketchAll leave n ss = sketchAll leave' n ss ∧ r = r' := by
  induction ss generalizing n with
  | nil => exact ⟨rfl, h⟩
  | cons s ss ihs =>
    rw [sketchAll, sketchAll, Sketch.printAll, Sketch.printAll, List.append_assoc,
      List.append_assoc] at h
    obtain ⟨hs, h⟩ := ih s List.mem_cons_self n false _ _ h
    obtain ⟨hss, hr⟩ := ihs (fun t ht => ih t (List.mem_cons_of_mem s ht)) h
    rw [sketchAll, sketchAll, hs, hss]
    exact ⟨rfl, hr⟩

/-- The next element is left out in both texts or in none. -/
theorem showsSketch_element {s : Symbol} (hs : Supported s) (ih : ShowsSketch leave leave' s)
    {a b : Bool} {n : Nat} {r r' : List Char}
    (h : (if a then Sketch.reference else s.sketch leave n).print false ++ r =
      (if b then Sketch.reference else s.sketch leave' n).print false ++ r') :
    (if a then Sketch.reference else s.sketch leave n) =
      (if b then Sketch.reference else s.sketch leave' n) ∧ r = r' := by
  cases a <;> cases b
  · exact ih n false r r' h
  · exact absurd ⟨r', h.symm⟩ (hs.not_backReference_prefix leave n false r)
  · exact absurd ⟨r, h⟩ (hs.not_backReference_prefix leave' n false r')
  · exact ⟨rfl, List.append_cancel_left h⟩

theorem showsSketch_elements {ss : List Symbol} (hss : ∀ s ∈ ss, Supported s)
    (ih : ∀ s ∈ ss, ShowsSketch leave leave' s) {n : Nat} {r r' : List Char}
    (h : Sketch.printAll (sketchElements leave n ss) ++ r =
      Sketch.printAll (sketchElements leave' n ss) ++ r') :
    sketchElements leave n ss = sketchElements leave' n ss ∧ r = r' := by
  induction ss generalizing n with
  | nil => exact ⟨rfl, h⟩
  | cons s ss ihs =>
    rw [sketchElements, sketchElements, Sketch.printAll, Sketch.printAll, List.append_assoc,
      List.append_assoc] at h
    obtain ⟨hs, h⟩ := showsSketch_element (hss s List.mem_cons_self) (ih s List.mem_cons_self) h
    obtain ⟨hrest, hr⟩ := ihs (fun t ht => hss t (List.mem_cons_of_mem s ht))
      (fun t ht => ih t (List.mem_cons_of_mem s ht)) h
    rw [sketchElements, sketchElements, hs, hrest]
    exact ⟨rfl, hr⟩

theorem Supported.showsSketch {s : Symbol} (h : Supported s) (leave leave' : Nat → Bool) :
    ShowsSketch leave leave' s := by
  induction h with
  | path hes ih =>
    intro n pending r r' h
    rw [sketch, sketch, Sketch.print_path_append, Sketch.print_path_append] at h
    obtain ⟨hes, hr⟩ := showsSketch_elements hes ih (List.append_cancel_left (List.cons.inj h).2)
    exact ⟨congrArg Sketch.path hes, (List.cons.inj hr).2⟩
  | function _ _ ih ih' =>
    intro n pending r r' h
    rw [sketch, sketch, Sketch.print, Sketch.print, List.append_assoc, List.append_assoc] at h
    obtain ⟨hcallee, h⟩ := ih n pending _ _ h
    obtain ⟨hargs, hr⟩ := showsSketch_all ih' h
    rw [sketch, sketch, hcallee, hargs]
    exact ⟨rfl, hr⟩
  | generic _ ih =>
    intro n pending r r' h
    rw [sketch, sketch, Sketch.print_generic_append, Sketch.print_generic_append] at h
    obtain ⟨hargs, hr⟩ := showsSketch_all ih (List.cons.inj h).2
    exact ⟨congrArg Sketch.generic hargs, (List.cons.inj hr).2⟩
  | type => exact fun _ _ _ _ h => ⟨rfl, List.append_cancel_left h⟩
  | @typed inner qualifiers _ ih =>
    intro n pending r r' h
    rw [sketch, sketch, Sketch.print, Sketch.print, isFunction_sketch, isFunction_sketch] at h
    have hinner : inner.sketch leave n = inner.sketch leave' n ∧ r = r' := by
      split at h
      · exact ih n true r r' h
      · rw [List.append_assoc, List.append_assoc] at h
        exact ih n pending r r' (List.append_cancel_left h)
    exact ⟨congrArg (Sketch.typed · qualifiers) hinner.1, hinner.2⟩

end Symbol
end LinkerNames

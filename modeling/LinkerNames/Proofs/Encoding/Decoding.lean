import LinkerNames.Proofs.Encoding.Atoms
import LinkerNames.Proofs.Encoding.Total
/-!
# A linker name shows its sketch

No two sketches of signatures have the same text. A text of a sketch says where it ends, so in what
follows it no boundary is in doubt: an atom is no beginning of another, brackets are closed by a
letter that begins nothing, and qualifiers are letters that begin nothing else. Therefore two
signatures have the same linker name exactly when they have the same sketch.
-/

namespace LinkerNames

/-- A sketch of a symbol of a signature, fit for its role. -/
inductive Sketch.Fits : Role → Sketch → Prop
  | type {name : String} : IsTypeName name → Fits .type (.code (encodeType name))
  | elementType {k : Sketch} : Fits .type k → Fits .element k
  | generic {args : List Sketch} : (∀ a ∈ args, Fits .argument a) → Fits .element (.generic args)
  | reference : Fits .element .reference
  | path {elements : List Sketch} : (∀ e ∈ elements, Fits .element e) →
    Fits .path (.path elements)
  | innerType {k : Sketch} : Fits .type k → Fits .inner k
  | innerPath {k : Sketch} : Fits .path k → Fits .inner k
  | argument {k : Sketch} {qualifiers : List Qualifier} : Fits .inner k →
    Fits .argument (.typed k qualifiers)
  | function {name : Sketch} {args : List Sketch} : Fits .path name →
    (∀ a ∈ args, Fits .argument a) → Fits .function (.function name args)
  | constFunction {name : Sketch} {args : List Sketch} : Fits .path name →
    (∀ a ∈ args, Fits .argument a) → Fits .function (.typed (.function name args) [.const])

/-! ## Sketches of symbols -/

namespace Symbol

theorem fits_sketchAll {leave : Nat → Bool} {role : Role} {ss : List Symbol}
    (h : ∀ s ∈ ss, ∀ n, Sketch.Fits role (s.sketch leave n)) (n : Nat) :
    ∀ k ∈ sketchAll leave n ss, Sketch.Fits role k := by
  induction ss generalizing n with
  | nil => exact fun k hk => nomatch hk
  | cons s ss ih =>
    intro k hk
    rcases List.mem_cons.1 hk with rfl | hk
    · exact h s List.mem_cons_self n
    · exact ih (fun t ht => h t (List.mem_cons_of_mem s ht)) _ k hk

theorem fits_sketchElements {leave : Nat → Bool} {ss : List Symbol}
    (h : ∀ s ∈ ss, ∀ n, Sketch.Fits .element (s.sketch leave n)) (n : Nat) :
    ∀ k ∈ sketchElements leave n ss, Sketch.Fits .element k := by
  induction ss generalizing n with
  | nil => exact fun k hk => nomatch hk
  | cons s ss ih =>
    intro k hk
    rcases List.mem_cons.1 hk with rfl | hk
    · split
      · exact .reference
      · exact h s List.mem_cons_self n
    · exact ih (fun t ht => h t (List.mem_cons_of_mem s ht)) _ k hk

/-- The sketch of a symbol is fit for the role of the symbol. -/
theorem Fits.sketch {role : Role} {s : Symbol} (h : Fits role s) (leave : Nat → Bool) (n : Nat) :
    Sketch.Fits role (s.sketch leave n) := by
  induction h generalizing n with
  | type hname => exact .type hname
  | elementType _ ih => exact .elementType (ih n)
  | generic _ ih => exact .generic (fits_sketchAll ih n)
  | path _ _ ih => exact .path (fits_sketchElements ih n)
  | innerType _ ih => exact .innerType (ih n)
  | innerPath _ ih => exact .innerPath (ih n)
  | argument _ ih => exact .argument (ih n)
  | function _ _ ih ih' => exact .function (ih n) (fits_sketchAll ih' _)
  | constFunction _ _ ih ih' => exact .constFunction (ih n) (fits_sketchAll ih' _)

end Symbol

namespace Sketch

/-! ## How texts begin -/

theorem Fits.isAtom_print {k : Sketch} (h : Fits .type k) (pending : Bool) :
    IsAtom (k.print pending) ∧ k.print pending ≠ ['S', '_'] := by
  cases h with
  | type hname => exact hname.isAtom

/-- What qualifiers are said about begins otherwise than a qualifier, and is no end of a list. -/
theorem Fits.print_inner_eq_cons {k : Sketch} (h : Fits .inner k) (pending : Bool) :
    ∃ c cs, k.print pending = c :: cs ∧ c ∉ ['E', 'K', 'P', 'R'] := by
  cases h with
  | innerType h =>
    obtain ⟨c, cs, hprint, hc⟩ := (h.isAtom_print pending).1.eq_cons
    have hsub : ['E', 'K', 'P', 'R'] ⊆ structureLetters := by decide
    exact ⟨c, cs, hprint, fun hmem => hc (hsub hmem)⟩
  | innerPath h =>
    cases h with
    | path => exact ⟨'N', _, rfl, by decide⟩

/-- An element of a path begins otherwise than the letter for `const`, and is no end of a list. -/
theorem Fits.print_element_eq_cons {k : Sketch} (h : Fits .element k) :
    ∃ c cs, k.print false = c :: cs ∧ c ≠ 'E' ∧ c ≠ 'K' := by
  cases h with
  | elementType h =>
    obtain ⟨c, cs, hprint, hc⟩ := (h.isAtom_print false).1.eq_cons
    refine ⟨c, cs, hprint, ?_, ?_⟩
    all_goals
      rintro rfl
      exact hc (by decide)
  | generic => exact ⟨'I', _, rfl, by decide, by decide⟩
  | reference => exact ⟨'S', _, rfl, by decide, by decide⟩

/-! ## Lists -/

/-- Whether a list ends here: with the letter that closes it, or with the whole name. -/
def EndsList (r : List Char) : Prop :=
  ∀ c ∈ r.head?, c = 'E'

/-- Texts that begin otherwise than the end of a list, and say where they end, make a list that says
where it ends. -/
theorem printAll_append_inj {role : Role} {ks ks' : List Sketch} {r r' : List Char}
    (hhead : ∀ k, Fits role k → ∃ c cs, k.print false = c :: cs ∧ c ≠ 'E')
    (hinj : ∀ k ∈ ks, ∀ k' r r', Fits role k' → k.print false ++ r = k'.print false ++ r' →
      k = k' ∧ r = r')
    (hks : ∀ k ∈ ks, Fits role k) (hks' : ∀ k ∈ ks', Fits role k) (hr : EndsList r)
    (hr' : EndsList r') (h : printAll ks ++ r = printAll ks' ++ r') : ks = ks' ∧ r = r' := by
  have hne {k : Sketch} {x y : List Char} (hk : Fits role k) (hx : EndsList x) :
      x ≠ k.print false ++ y := by
    -- Where one list ends, the other cannot go on.
    obtain ⟨c, cs, hprint, hc⟩ := hhead k hk
    rintro rfl
    exact hc (hx c (by rw [hprint]; rfl))
  induction ks generalizing ks' with
  | nil =>
    cases ks' with
    | nil => exact ⟨rfl, h⟩
    | cons k' ks' =>
      rw [printAll, printAll, List.nil_append, List.append_assoc] at h
      exact absurd h (hne (hks' k' List.mem_cons_self) hr)
  | cons k ks ih =>
    cases ks' with
    | nil =>
      rw [printAll, printAll, List.nil_append, List.append_assoc] at h
      exact absurd h.symm (hne (hks k List.mem_cons_self) hr')
    | cons k' ks' =>
      rw [printAll, printAll, List.append_assoc, List.append_assoc] at h
      obtain ⟨rfl, htail⟩ := hinj k List.mem_cons_self k' _ _ (hks' k' List.mem_cons_self) h
      obtain ⟨rfl, hrest⟩ := ih (fun k hk => hinj k (List.mem_cons_of_mem _ hk))
        (fun k hk => hks k (List.mem_cons_of_mem _ hk))
        (fun k hk => hks' k (List.mem_cons_of_mem _ hk)) htail
      exact ⟨rfl, hrest⟩

/-! ## Qualifiers -/

theorem letter_inj {p q : Qualifier} (h : letter p = letter q) : p = q := by
  cases p <;> cases q <;> first | rfl | cases h

theorem letter_mem (q : Qualifier) : letter q ∈ ['E', 'K', 'P', 'R'] ∧ letter q ≠ 'E' := by
  cases q <;> decide

/-- Qualifiers end where something begins that begins otherwise. -/
theorem map_letter_append_inj {ps qs : List Qualifier} {x y : List Char}
    (hx : ∀ c ∈ x.head?, c ∉ ['E', 'K', 'P', 'R']) (hy : ∀ c ∈ y.head?, c ∉ ['E', 'K', 'P', 'R'])
    (h : ps.map letter ++ x = qs.map letter ++ y) : ps = qs ∧ x = y := by
  induction ps generalizing qs with
  | nil =>
    cases qs with
    | nil => exact ⟨rfl, h⟩
    | cons q qs =>
      change x = _ at h
      exact absurd (letter_mem q).1 (hx _ (by rw [h]; rfl))
  | cons p ps ih =>
    cases qs with
    | nil =>
      change _ = y at h
      exact absurd (letter_mem p).1 (hy _ (by rw [← h]; rfl))
    | cons q qs =>
      obtain ⟨hpq, h⟩ := List.cons.inj h
      obtain ⟨rfl, hxy⟩ := ih h
      exact ⟨by rw [letter_inj hpq], hxy⟩

theorem Fits.isFunction_eq_false {k : Sketch} (h : Fits .inner k) : k.isFunction = false := by
  cases h with
  | innerType h | innerPath h => cases h; rfl

theorem Fits.print_typed {k : Sketch} (h : Fits .inner k) (qualifiers : List Qualifier)
    (pending : Bool) : (typed k qualifiers).print pending =
      qualifiers.map letter ++ k.print pending := by
  rw [print, h.isFunction_eq_false, Bool.false_and, if_neg (by simp)]

/-- No argument is an end of a list. -/
theorem Fits.print_argument_eq_cons {k : Sketch} (h : Fits .argument k) :
    ∃ c cs, k.print false = c :: cs ∧ c ≠ 'E' := by
  cases h with
  | @argument k qualifiers h =>
    rw [h.print_typed]
    cases qualifiers with
    | nil =>
      obtain ⟨c, cs, hprint, hc⟩ := h.print_inner_eq_cons false
      refine ⟨c, cs, hprint, ?_⟩
      rintro rfl
      exact hc (by decide)
    | cons q qs => exact ⟨_, _, rfl, (letter_mem q).2⟩

/-! ## Texts say where they end -/

theorem print_generic_append (pending : Bool) (args : List Sketch) (r : List Char) :
    (generic args).print pending ++ r = 'I' :: (printAll args ++ 'E' :: r) := by
  simp [print]

theorem print_path_append (pending : Bool) (elements : List Sketch) (r : List Char) :
    (path elements).print pending ++ r =
      'N' :: ((if pending then ['K'] else []) ++ (printAll elements ++ 'E' :: r)) := by
  simp [print]

theorem endsList_cons (r : List Char) : EndsList ('E' :: r) := by
  simp [EndsList]

theorem Fits.print_type_ne_cons {k : Sketch} {pending : Bool} {r x : List Char} {c : Char}
    (h : Fits .type k) (hc : c ∈ structureLetters) : k.print pending ++ r ≠ c :: x := by
  obtain ⟨d, ds, hprint, hd⟩ := (h.isAtom_print pending).1.eq_cons
  rw [hprint]
  intro heq
  obtain rfl : d = c := (List.cons.inj heq).1
  exact hd hc

theorem Fits.print_type_ne_reference {k : Sketch} {pending : Bool} {r x : List Char}
    (h : Fits .type k) : k.print pending ++ r ≠ ['S', '_'] ++ x := by
  intro heq
  obtain ⟨hatom, hne⟩ := h.isAtom_print pending
  exact hne (hatom.append_inj (.fixed List.mem_cons_self) heq).1

/-- The text of a part of a signature says where it ends and what it is the text of. -/
theorem Fits.print_append_inj {role : Role} {k k' : Sketch} {pending : Bool} {r r' : List Char}
    (h : Fits role k) (h' : Fits role k') (hrole : role ≠ .function)
    (heq : k.print pending ++ r = k'.print pending ++ r') : k = k' ∧ r = r' := by
  -- The first letters tell the kinds of parts apart; what is in them is for the induction.
  induction h generalizing k' pending r r' with
  | type hname =>
    cases h' with
    | type hname' =>
      obtain ⟨htext, hrest⟩ := hname.isAtom.1.append_inj hname'.isAtom.1 heq
      exact ⟨by rw [String.toList_inj.1 htext], hrest⟩
  | elementType h ih =>
    cases h' with
    | elementType h' => exact ih h' nofun heq
    | generic => exact absurd heq (h.print_type_ne_cons (c := 'I') (by decide))
    | reference => exact absurd heq h.print_type_ne_reference
  | generic hargs ih =>
    cases h' with
    | elementType h' => exact absurd heq.symm (h'.print_type_ne_cons (c := 'I') (by decide))
    | generic hargs' =>
      rw [print_generic_append, print_generic_append] at heq
      obtain ⟨rfl, hrest⟩ := printAll_append_inj (fun _ => print_argument_eq_cons)
        (fun a ha a' _ _ ha' => ih a ha ha' nofun) hargs hargs' (endsList_cons r)
        (endsList_cons r') (List.cons.inj heq).2
      exact ⟨rfl, (List.cons.inj hrest).2⟩
    | reference => cases (List.cons.inj heq).1
  | reference =>
    cases h' with
    | elementType h' => exact absurd heq.symm h'.print_type_ne_reference
    | generic => cases (List.cons.inj heq).1
    | reference => exact ⟨rfl, List.append_cancel_left heq⟩
  | path hes ih =>
    cases h' with
    | path hes' =>
      rw [print_path_append, print_path_append] at heq
      have hhead (e : Sketch) (he : Fits .element e) :
          ∃ c cs, e.print false = c :: cs ∧ c ≠ 'E' := by
        obtain ⟨c, cs, hprint, hc, -⟩ := he.print_element_eq_cons
        exact ⟨c, cs, hprint, hc⟩
      obtain ⟨rfl, hrest⟩ := printAll_append_inj hhead
        (fun e he e' _ _ he' => ih e he he' nofun) hes hes' (endsList_cons r)
        (endsList_cons r') (List.append_cancel_left (List.cons.inj heq).2)
      exact ⟨rfl, (List.cons.inj hrest).2⟩
  | innerType h ih =>
    cases h' with
    | innerType h' => exact ih h' nofun heq
    | innerPath h' =>
      cases h' with
      | path => exact absurd heq (h.print_type_ne_cons (c := 'N') (by decide))
  | innerPath h ih =>
    cases h' with
    | innerType h' =>
      cases h with
      | path => exact absurd heq.symm (h'.print_type_ne_cons (c := 'N') (by decide))
    | innerPath h' => exact ih h' nofun heq
  | argument h ih =>
    cases h' with
    | argument h' =>
      have hhead {k : Sketch} {r : List Char} (h : Fits .inner k) :
          ∀ c ∈ (k.print pending ++ r).head?, c ∉ ['E', 'K', 'P', 'R'] := by
        obtain ⟨c, cs, hprint, hc⟩ := h.print_inner_eq_cons pending
        rw [hprint]
        intro d hd
        cases hd
        exact hc
      rw [h.print_typed, h'.print_typed, List.append_assoc, List.append_assoc] at heq
      obtain ⟨rfl, hinner⟩ := map_letter_append_inj (hhead h) (hhead h') heq
      obtain ⟨rfl, hrest⟩ := ih h' nofun hinner
      exact ⟨rfl, hrest⟩
  | function | constFunction => exact absurd rfl hrole

/-! ## Functions -/

/-- The letter of a `const` function is no part of its path. -/
theorem Fits.print_path_ne_const {k k' : Sketch} {r r' : List Char} (h : Fits .path k)
    (h' : Fits .path k') : k.print false ++ r ≠ k'.print true ++ r' := by
  cases h with
  | @path elements hes =>
    cases h' with
    | path =>
      rw [print_path_append, print_path_append]
      intro heq
      replace heq := (List.cons.inj heq).2
      cases elements with
      | nil => cases heq
      | cons e es =>
        obtain ⟨c, cs, hprint, -, hc⟩ := (hes e List.mem_cons_self).print_element_eq_cons
        rw [printAll, hprint] at heq
        exact hc (List.cons.inj heq).1

theorem print_function_inj {name name' : Sketch} {args args' : List Sketch} {pending : Bool}
    (hname : Fits .path name) (hname' : Fits .path name') (hargs : ∀ a ∈ args, Fits .argument a)
    (hargs' : ∀ a ∈ args', Fits .argument a)
    (heq : (function name args).print pending = (function name' args').print pending) :
    name = name' ∧ args = args' := by
  rw [print, print] at heq
  obtain ⟨rfl, heq⟩ := hname.print_append_inj hname' nofun heq
  have hend : EndsList [] := by simp [EndsList]
  have hall : printAll args ++ [] = printAll args' ++ [] := by simpa using heq
  obtain ⟨rfl, -⟩ := printAll_append_inj (fun _ => Fits.print_argument_eq_cons)
    (fun a ha a' _ _ ha' => (hargs a ha).print_append_inj ha' nofun) hargs hargs' hend hend hall
  exact ⟨rfl, rfl⟩

/-- No two functions have the same text. -/
theorem Fits.print_inj {k k' : Sketch} (h : Fits .function k) (h' : Fits .function k')
    (heq : k.print false = k'.print false) : k = k' := by
  cases h with
  | function hname hargs =>
    cases h' with
    | function hname' hargs' =>
      obtain ⟨rfl, rfl⟩ := print_function_inj hname hname' hargs hargs' heq
      rfl
    | constFunction hname' => exact absurd heq (hname.print_path_ne_const hname')
  | @constFunction name args hname hargs =>
    cases h' with
    | function hname' => exact absurd heq.symm (hname'.print_path_ne_const hname)
    | @constFunction name' args' hname' hargs' =>
      have hconst : (Sketch.function name args).print true =
          (Sketch.function name' args').print true := heq
      obtain ⟨rfl, rfl⟩ := print_function_inj hname hname' hargs hargs' hconst
      rfl

end Sketch

/-! ## Main theorem -/

/-- Two signatures have the same linker name if and only if they have the same sketch: the same
tree, with what is written for it in place of each type name, and with references in place of those
path elements that end earlier in the tree. -/
theorem linkerName_eq_iff {text text' : String} {s s' : Symbol} (h : Symbol.ofText text = .ok s)
    (h' : Symbol.ofText text' = .ok s') :
    ∃ name name', linkerName text = .ok name ∧ linkerName text' = .ok name' ∧
      (name = name' ↔ s.marked [] = s'.marked []) := by
  obtain ⟨hfits, hname⟩ := linkerName_of_ofText h
  obtain ⟨hfits', hname'⟩ := linkerName_of_ofText h'
  refine ⟨_, _, hname, hname', fun heq => ?_, fun heq => by rw [heq]⟩
  have hprint : (s.marked []).print false = (s'.marked []).print false :=
    List.append_cancel_left (String.ofList_injective heq)
  exact (hfits.sketch _ 0).print_inj (hfits'.sketch _ 0) hprint

/-- A reference does not say which element it stands for, nor a code which spelling. -/
theorem linkerName_repeated_element :
    ∃ name, linkerName "a::b::a(signed)" = .ok name ∧ linkerName "a::b::b(int)" = .ok name := by
  have hleft : Symbol.ofText "a::b::a(signed)" =
      .ok (.function (.path [.type "a", .type "b", .type "a"]) [.typed (.type "signed") []]) :=
    Except.eq_ok_of_toOption (by decide +kernel)
  have hright : Symbol.ofText "a::b::b(int)" =
      .ok (.function (.path [.type "a", .type "b", .type "b"]) [.typed (.type "int") []]) :=
    Except.eq_ok_of_toOption (by decide +kernel)
  obtain ⟨name, name', h, h', hiff⟩ := linkerName_eq_iff hleft hright
  obtain rfl : name = name' := hiff.2 rfl
  exact ⟨name, h, h'⟩

end LinkerNames

import LinkerNames.Encoding.Encoder
import LinkerNames.Proofs.Symbol.Parts
import LinkerNames.Proofs.Text.Quoted
import Mathlib.Data.List.Basic
/-!
# A symbol is known from its one-line form

What a one-line form begins with says of which kind the symbol is, and what comes behind is shown in
forms that say where they end: quoted texts, lists in brackets, and the forms of other symbols. So
the form says which symbol it is the form of, whatever comes behind it (`showsEnd_display`), and
two symbols with the same form are the same. All its characters are printable.
-/

namespace LinkerNames

/-! ## Qualifiers -/

theorem Qualifier.showsEnd_display (q : Qualifier) : Text.ShowsEnd display q := by
  have hbegins (q q' : Qualifier) : q.display <+: q'.display → q = q' := by
    cases q <;> cases q' <;> decide
  intro q' r s h
  obtain ⟨heq, hr⟩ := Text.append_inj_of_isPrefix (fun h => congrArg display (hbegins q q' h))
    (fun h => congrArg display (hbegins q' q h)) h
  exact ⟨hbegins q q' (heq ▸ List.prefix_refl _), hr⟩

theorem Qualifier.head?_display (q : Qualifier) :
    q.display.head? ≠ some ')' ∧ q.display ≠ [] := by
  cases q <;> decide

/-! ## Lists -/

/-- What a list is shown as behind its first item, if it has more than one or is at an end. -/
def roundListRest : List (List Char) → List Char
  | [] => [')']
  | item :: items => ',' :: ' ' :: (item ++ roundListRest items)

theorem intercalate_append_bracket (item : List Char) (items : List (List Char)) :
    ", ".toList.intercalate (item :: items) ++ [')'] = item ++ roundListRest items := by
  induction items generalizing item with
  | nil => simp [roundListRest]
  | cons item' items ih =>
    rw [List.intercalate_cons_cons, List.append_assoc, ih]
    simp [roundListRest]

/-- What a list is shown as behind its first item: a single item has a comma behind it too. -/
def roundListTail : List (List Char) → List Char
  | [] => [',', ')']
  | items => roundListRest items

theorem roundList_cons (item : List Char) (items : List (List Char)) :
    roundList (item :: items) = '(' :: (item ++ roundListTail items) := by
  cases items with
  | nil => rfl
  | cons item' items =>
    exact congrArg ('(' :: ·) (intercalate_append_bracket item (item' :: items))

section
variable {α : Type} {shown : α → List Char} {xs ys : List α} {r s : List Char}

theorem roundListRest_append_inj (hxs : ∀ x ∈ xs, Text.ShowsEnd shown x)
    (h : roundListRest (xs.map shown) ++ r = roundListRest (ys.map shown) ++ s) :
    xs = ys ∧ r = s := by
  induction xs generalizing ys with
  | nil =>
    cases ys with
    | nil => exact ⟨rfl, (List.cons.inj h).2⟩
    | cons => exact absurd (List.cons.inj h).1 (by decide)
  | cons x xs ih =>
    cases ys with
    | nil => exact absurd (List.cons.inj h).1 (by decide)
    | cons y ys =>
      simp only [List.map_cons, roundListRest, List.cons_append, List.append_assoc,
        List.cons.injEq, true_and] at h
      obtain ⟨rfl, hrest⟩ := hxs x List.mem_cons_self y _ _ h
      obtain ⟨rfl, hr⟩ := ih (fun z hz => hxs z (List.mem_cons_of_mem x hz)) hrest
      exact ⟨rfl, hr⟩

theorem roundListTail_append_inj (hxs : ∀ x ∈ xs, Text.ShowsEnd shown x)
    (h : roundListTail (xs.map shown) ++ r = roundListTail (ys.map shown) ++ s) :
    xs = ys ∧ r = s := by
  cases xs with
  | nil =>
    cases ys with
    | nil => exact ⟨rfl, List.append_cancel_left h⟩
    | cons => exact absurd (List.cons.inj (List.cons.inj h).2).1 (by decide)
  | cons x xs =>
    cases ys with
    | nil => exact absurd (List.cons.inj (List.cons.inj h).2).1 (by decide)
    | cons y ys => exact roundListRest_append_inj hxs h

/-- A list of things that show where they end shows where it ends, if none looks like its end. -/
theorem roundList_append_inj (hxs : ∀ x ∈ xs, Text.ShowsEnd shown x)
    (hhead : ∀ x, (shown x).head? ≠ some ')' ∧ shown x ≠ [])
    (h : roundList (xs.map shown) ++ r = roundList (ys.map shown) ++ s) : xs = ys ∧ r = s := by
  have hbracket (y : α) (rest t : List Char) : ')' :: t ≠ shown y ++ rest := by
    intro heq
    obtain ⟨hhead, hne⟩ := hhead y
    rw [← List.head?_append_of_ne_nil _ hne, ← heq] at hhead
    exact hhead rfl
  -- The list without items has its end where any other has its first item.
  cases xs with
  | nil =>
    cases ys with
    | nil => exact ⟨rfl, List.append_cancel_left h⟩
    | cons y ys =>
      rw [List.map_cons, roundList_cons, List.cons_append, List.append_assoc] at h
      exact absurd (List.cons.inj h).2 (hbracket y _ _)
  | cons x xs =>
    rw [List.map_cons, roundList_cons, List.cons_append, List.append_assoc] at h
    cases ys with
    | nil => exact absurd (List.cons.inj h).2.symm (hbracket x _ _)
    | cons y ys =>
      rw [List.map_cons, roundList_cons, List.cons_append, List.append_assoc] at h
      obtain ⟨rfl, htail⟩ := hxs x List.mem_cons_self y _ _ (List.cons.inj h).2
      obtain ⟨rfl, hr⟩ :=
        roundListTail_append_inj (fun z hz => hxs z (List.mem_cons_of_mem x hz)) htail
      exact ⟨rfl, hr⟩

end

namespace Symbol

/-! ## Kinds of symbols -/

/-- What the one-line form of a symbol begins with. -/
def opening : Symbol → List Char
  | .path _ => "Namespace(path=".toList
  | .function .. => "Function(callee=".toList
  | .constructor _ => "Constructor(args=".toList
  | .generic _ => "Generic(args=".toList
  | .type _ => "Type(name=".toList
  | .operator _ => "Operator(name=".toList
  | .typed .. => "Typed(inner=".toList
  | .stray none => "None".toList
  | .stray (some text) => [Text.quoteFor text.toList]

/-- What comes behind the opening. -/
def inside : Symbol → List Char
  | .path elements => roundList (displayAll elements) ++ [')']
  | .function callee args =>
    display callee ++ (", args=".toList ++ (roundList (displayAll args) ++ [')']))
  | .constructor args | .generic args => roundList (displayAll args) ++ [')']
  | .type name | .operator name => Text.quote name.toList ++ [')']
  | .typed inner qualifiers =>
    display inner ++ (", qualifiers=".toList ++
      (roundList (qualifiers.map Qualifier.display) ++ [')']))
  | .stray none => []
  | .stray (some text) => (Text.quote text.toList).tail

theorem display_eq (s : Symbol) : s.display = s.opening ++ s.inside := by
  have hassoc (a b c d e : List Char) : a ++ b ++ c ++ d ++ e = a ++ (b ++ (c ++ (d ++ e))) := by
    rw [List.append_assoc, List.append_assoc, List.append_assoc]
  cases s with
  | path | constructor | generic | type | operator => exact List.append_assoc _ _ _
  | function | typed => exact hassoc _ _ _ _ _
  | stray text =>
    cases text with
    | none => exact (List.append_nil _).symm
    | some => rfl

/-- The openings, each with the kind of symbol that it tells. -/
def openings : List (List Char × String) :=
  [([Text.singleQuote], "stray"), ([Text.doubleQuote], "stray"), ("None".toList, "stray"),
    ("Namespace(path=".toList, "Namespace"), ("Function(callee=".toList, "Function"),
    ("Constructor(args=".toList, "Constructor"), ("Generic(args=".toList, "Generic"),
    ("Type(name=".toList, "Type"), ("Operator(name=".toList, "Operator"),
    ("Typed(inner=".toList, "Typed")]

/-- No opening begins another. -/
theorem eq_of_prefix_opening :
    ∀ o ∈ openings, ∀ o' ∈ openings, o.1 <+: o'.1 → o = o' := by
  decide +kernel

theorem opening_mem (s : Symbol) : (s.opening, s.kindName) ∈ openings := by
  have hdrop (n : Nat) {o : List Char × String} (h : o ∈ openings.drop n) : o ∈ openings :=
    List.mem_of_mem_drop h
  cases s with
  | stray text =>
    cases text with
    | none => exact hdrop 2 (.head _)
    | some text =>
      change ([Text.quoteFor text.toList], "stray") ∈ openings
      rcases Text.isQuote_quoteFor text.toList with h | h <;> rw [h]
      · exact .head _
      · exact hdrop 1 (.head _)
  | path => exact hdrop 3 (.head _)
  | function => exact hdrop 4 (.head _)
  | constructor => exact hdrop 5 (.head _)
  | generic => exact hdrop 6 (.head _)
  | type => exact hdrop 7 (.head _)
  | operator => exact hdrop 8 (.head _)
  | typed => exact hdrop 9 (.head _)

/-- Forms with the same beginning are those of symbols of one kind. -/
theorem opening_append_inj {a b : Symbol} {r s : List Char}
    (h : a.display ++ r = b.display ++ s) :
    a.opening = b.opening ∧ a.kindName = b.kindName ∧ a.inside ++ r = b.inside ++ s := by
  rw [display_eq, display_eq, List.append_assoc, List.append_assoc] at h
  have hbegins (a b : Symbol) (h : a.opening <+: b.opening) :
      (a.opening, a.kindName) = (b.opening, b.kindName) :=
    eq_of_prefix_opening _ a.opening_mem _ b.opening_mem h
  obtain ⟨hopening, hinside⟩ := Text.append_inj_of_isPrefix
    (fun h => (Prod.mk.inj (hbegins a b h)).1) (fun h => (Prod.mk.inj (hbegins b a h)).1) h
  exact ⟨hopening, (Prod.mk.inj (hbegins a b (hopening ▸ List.prefix_refl _))).2, hinside⟩

/-- No form looks like the end of a list. -/
theorem head?_display (s : Symbol) : s.display.head? ≠ some ')' ∧ s.display ≠ [] := by
  have hall : ∀ o ∈ openings, o.1.head? ≠ some ')' ∧ o.1 ≠ [] := by decide +kernel
  obtain ⟨hhead, hne⟩ := hall _ s.opening_mem
  rw [display_eq, List.head?_append_of_ne_nil _ hne]
  exact ⟨hhead, by simp [hne]⟩

/-! ## Forms of symbols -/

section
variable {ss ts : List Symbol} {cs ds r s : List Char}

/-- A list of symbols shows where it ends if they do. -/
theorem displayAll_append_inj (hss : ∀ s ∈ ss, Text.ShowsEnd display s)
    (h : roundList (displayAll ss) ++ [')'] ++ r = roundList (displayAll ts) ++ [')'] ++ s) :
    ss = ts ∧ r = s := by
  rw [displayAll_eq_map, displayAll_eq_map, List.append_assoc, List.append_assoc] at h
  obtain ⟨rfl, hr⟩ := roundList_append_inj hss head?_display h
  exact ⟨rfl, List.append_cancel_left hr⟩

theorem quote_bracket_append_inj {name name' : String}
    (h : Text.quote name.toList ++ [')'] ++ r = Text.quote name'.toList ++ [')'] ++ s) :
    name = name' ∧ r = s := by
  rw [List.append_assoc, List.append_assoc] at h
  obtain ⟨hname, hr⟩ := Text.showsEnd_quote _ _ _ _ h
  exact ⟨String.toList_inj.1 hname, List.append_cancel_left hr⟩

end

/-- The one-line form of a symbol says which symbol it is, and where it ends. -/
theorem showsEnd_display (a : Symbol) : Text.ShowsEnd display a := by
  have hassoc (a b c d : List Char) : a ++ (b ++ c) ++ d = a ++ (b ++ (c ++ d)) := by
    rw [List.append_assoc, List.append_assoc]
  -- The opening tells the kind, and then the fields say one after the other where they end.
  induction a using Symbol.induct with
  | path es ih =>
    intro b r s h
    obtain ⟨-, hkind, hinside⟩ := opening_append_inj h
    cases b with
    | path es' =>
      obtain ⟨rfl, hr⟩ := displayAll_append_inj ih hinside
      exact ⟨rfl, hr⟩
    | _ => exact absurd hkind (by simp [kindName])
  | function callee args ih ih' =>
    intro b r s h
    obtain ⟨-, hkind, hinside⟩ := opening_append_inj h
    cases b with
    | function callee' args' =>
      have hparts := (hassoc _ _ _ _).symm.trans (hinside.trans (hassoc _ _ _ _))
      obtain ⟨rfl, hargs⟩ := ih callee' _ _ hparts
      obtain ⟨rfl, hr⟩ := displayAll_append_inj ih' (List.append_cancel_left hargs)
      exact ⟨rfl, hr⟩
    | _ => exact absurd hkind (by simp [kindName])
  | constructor args ih =>
    intro b r s h
    obtain ⟨-, hkind, hinside⟩ := opening_append_inj h
    cases b with
    | constructor args' =>
      obtain ⟨rfl, hr⟩ := displayAll_append_inj ih hinside
      exact ⟨rfl, hr⟩
    | _ => exact absurd hkind (by simp [kindName])
  | generic args ih =>
    intro b r s h
    obtain ⟨-, hkind, hinside⟩ := opening_append_inj h
    cases b with
    | generic args' =>
      obtain ⟨rfl, hr⟩ := displayAll_append_inj ih hinside
      exact ⟨rfl, hr⟩
    | _ => exact absurd hkind (by simp [kindName])
  | type name =>
    intro b r s h
    obtain ⟨-, hkind, hinside⟩ := opening_append_inj h
    cases b with
    | type name' =>
      obtain ⟨rfl, hr⟩ := quote_bracket_append_inj hinside
      exact ⟨rfl, hr⟩
    | _ => exact absurd hkind (by simp [kindName])
  | operator name =>
    intro b r s h
    obtain ⟨-, hkind, hinside⟩ := opening_append_inj h
    cases b with
    | operator name' =>
      obtain ⟨rfl, hr⟩ := quote_bracket_append_inj hinside
      exact ⟨rfl, hr⟩
    | _ => exact absurd hkind (by simp [kindName])
  | typed inner qualifiers ih =>
    intro b r s h
    obtain ⟨-, hkind, hinside⟩ := opening_append_inj h
    cases b with
    | typed inner' qualifiers' =>
      have hparts := (hassoc _ _ _ _).symm.trans (hinside.trans (hassoc _ _ _ _))
      obtain ⟨rfl, hlist⟩ := ih inner' _ _ hparts
      have hmarks := List.append_cancel_left hlist
      rw [List.append_assoc, List.append_assoc] at hmarks
      obtain ⟨rfl, hr⟩ := roundList_append_inj (fun q _ => q.showsEnd_display)
        Qualifier.head?_display hmarks
      exact ⟨rfl, List.append_cancel_left hr⟩
    | _ => exact absurd hkind (by simp [kindName])
  | stray text =>
    intro b r s h
    obtain ⟨hopening, hkind, hinside⟩ := opening_append_inj h
    cases b with
    | stray text' =>
      cases text with
      | none =>
        cases text' with
        | none => exact ⟨rfl, hinside⟩
        -- A quote alone is shorter than what stands for no text.
        | some => cases congrArg List.length hopening
      | some text =>
        cases text' with
        | none => cases congrArg List.length hopening
        | some text' =>
          obtain ⟨htext, hr⟩ := Text.showsEnd_quote _ _ _ _ h
          exact ⟨congrArg (stray ∘ some) (String.toList_inj.1 htext), hr⟩
    | _ => exact absurd hkind (by simp [kindName])

/-! ## Printable characters -/

theorem printable_append {cs ds : List Char} (hcs : cs.all Text.isPrintable = true)
    (hds : ds.all Text.isPrintable = true) : (cs ++ ds).all Text.isPrintable = true := by
  rw [List.all_append, hcs, hds]
  rfl

theorem printable_quote (cs : List Char) : (Text.quote cs).all Text.isPrintable = true :=
  List.all_eq_true.2 fun _ => Text.isPrintable_of_mem_quote

theorem printable_roundListRest {items : List (List Char)}
    (h : ∀ item ∈ items, item.all Text.isPrintable = true) :
    (roundListRest items).all Text.isPrintable = true := by
  induction items with
  | nil => decide
  | cons item items ih =>
    obtain ⟨hitem, hitems⟩ := List.forall_mem_cons.1 h
    change ([',', ' '] ++ (item ++ roundListRest items)).all Text.isPrintable = true
    exact printable_append (by decide) (printable_append hitem (ih hitems))

theorem printable_roundList {items : List (List Char)}
    (h : ∀ item ∈ items, item.all Text.isPrintable = true) :
    (roundList items).all Text.isPrintable = true := by
  cases items with
  | nil => decide
  | cons item items =>
    obtain ⟨hitem, hitems⟩ := List.forall_mem_cons.1 h
    rw [roundList_cons]
    change (['('] ++ (item ++ roundListTail items)).all Text.isPrintable = true
    refine printable_append (by decide) (printable_append hitem ?_)
    cases items with
    | nil => decide
    | cons => exact printable_roundListRest hitems

theorem printable_displayAll {ss : List Symbol}
    (h : ∀ s ∈ ss, s.display.all Text.isPrintable = true) :
    (roundList (displayAll ss) ++ [')']).all Text.isPrintable = true := by
  rw [displayAll_eq_map]
  refine printable_append (printable_roundList fun item hitem => ?_) (by decide)
  obtain ⟨s, hs, rfl⟩ := List.mem_map.1 hitem
  exact h s hs

theorem printable_opening (s : Symbol) : s.opening.all Text.isPrintable = true := by
  have hall : ∀ o ∈ openings, o.1.all Text.isPrintable = true := by decide +kernel
  exact hall _ s.opening_mem

/-- All characters of a one-line form are printable. -/
theorem printable_display (s : Symbol) : s.display.all Text.isPrintable = true := by
  have hform (s : Symbol) (h : s.inside.all Text.isPrintable = true) :
      s.display.all Text.isPrintable = true :=
    display_eq s ▸ printable_append s.printable_opening h
  induction s using Symbol.induct with
  | path es ih => exact hform _ (printable_displayAll ih)
  | function callee args ih ih' =>
    exact hform _ (printable_append ih (printable_append (by decide) (printable_displayAll ih')))
  | constructor args ih => exact hform _ (printable_displayAll ih)
  | generic args ih => exact hform _ (printable_displayAll ih)
  | type name => exact hform _ (printable_append (printable_quote _) (by decide))
  | operator name => exact hform _ (printable_append (printable_quote _) (by decide))
  | typed inner qualifiers ih =>
    have hmarks : (roundList (qualifiers.map Qualifier.display)).all Text.isPrintable = true := by
      refine printable_roundList fun item hitem => ?_
      obtain ⟨q, -, rfl⟩ := List.mem_map.1 hitem
      cases q <;> decide
    exact hform _
      (printable_append ih (printable_append (by decide) (printable_append hmarks (by decide))))
  | stray text =>
    cases text with
    | none => exact hform _ rfl
    | some text => exact printable_quote _

/-! ## One-line forms as strings -/

/-- Symbols with the same one-line form are the same. -/
theorem displayed_inj {a b : Symbol} : a.displayed = b.displayed ↔ a = b := by
  constructor
  · intro h
    have hform : a.display ++ [] = b.display ++ [] := congrArg (· ++ []) (String.ofList_inj.1 h)
    exact (showsEnd_display a b [] [] hform).1
  · rintro rfl
    rfl

theorem isPrintable_of_mem_displayed {s : Symbol} {c : Char} (h : c ∈ s.displayed.toList) :
    Text.isPrintable c = true := by
  rw [displayed, String.toList_ofList] at h
  exact List.all_eq_true.1 s.printable_display c h

/-- No line ends in a one-line form. -/
theorem not_mem_displayed {s : Symbol} {c : Char} (h : c ∈ Text.lineBreaks) :
    c ∉ s.displayed.toList :=
  fun hc => Text.not_mem_lineBreaks (isPrintable_of_mem_displayed hc) h

end Symbol
end LinkerNames

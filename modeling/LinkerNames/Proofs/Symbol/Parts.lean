import LinkerNames.Symbol.Basic
/-!
# What stands in a symbol

The parts of a symbol are itself and all that stands in it. A function is said to be `const` by the
qualifiers around it, or by what is said of the whole if there is nothing but wrappers around it.
`Symbol.parts` lists all parts in the order in which they begin; `exists_mem_parts_iff` and
`mem_parts_const_iff` say which they are without the order.
-/

namespace LinkerNames

/-- A part of a symbol, and whether it is said to be `const` there. -/
structure Part where
  symbol : Symbol
  isConst : Bool

namespace Symbol

/-- Induction over a symbol, with what holds of all symbols in a list at once. -/
@[elab_as_elim]
theorem induct {motive : Symbol → Prop}
    (path : ∀ elements, (∀ e ∈ elements, motive e) → motive (.path elements))
    (function : ∀ callee args, motive callee → (∀ a ∈ args, motive a) →
      motive (.function callee args))
    (constructor : ∀ args, (∀ a ∈ args, motive a) → motive (.constructor args))
    (generic : ∀ args, (∀ a ∈ args, motive a) → motive (.generic args))
    (type : ∀ name, motive (.type name))
    (operator : ∀ name, motive (.operator name))
    (typed : ∀ inner qualifiers, motive inner → motive (.typed inner qualifiers))
    (stray : ∀ text, motive (.stray text)) (s : Symbol) : motive s :=
  @Symbol.rec motive (fun ss => ∀ s ∈ ss, motive s)
    path function constructor generic type operator typed stray
    (fun _ h => nomatch h)
    (fun _ _ hs hss _ ht => (List.mem_cons.1 ht).elim (fun heq => heq ▸ hs) (hss _)) s

/-! ## Parts without an order -/

/-- A symbol stands in another, or is it. -/
inductive Within (t : Symbol) : Symbol → Prop
  | self : Within t t
  | path {elements : List Symbol} {e : Symbol} : e ∈ elements → Within t e →
    Within t (.path elements)
  | callee {callee : Symbol} {args : List Symbol} : Within t callee →
    Within t (.function callee args)
  | argument {callee : Symbol} {args : List Symbol} {a : Symbol} : a ∈ args → Within t a →
    Within t (.function callee args)
  | constructor {args : List Symbol} {a : Symbol} : a ∈ args → Within t a →
    Within t (.constructor args)
  | generic {args : List Symbol} {a : Symbol} : a ∈ args → Within t a → Within t (.generic args)
  | typed {inner : Symbol} {qualifiers : List Qualifier} : Within t inner →
    Within t (.typed inner qualifiers)

/-- There is nothing around a symbol in another but wrappers, whatever their qualifiers. -/
inductive Wrapped (t : Symbol) : Symbol → Prop
  | self : Wrapped t t
  | typed {inner : Symbol} {qualifiers : List Qualifier} : Wrapped t inner →
    Wrapped t (.typed inner qualifiers)

/-- A function is said to be `const` where it stands in a symbol: by qualifiers that it has there,
or because the whole is said to be so and there are only wrappers around the function. -/
def SaysConst (isConst : Bool) (s f : Symbol) : Prop :=
  (∃ qualifiers, qualifiers ≠ [] ∧ Within (.typed f qualifiers) s) ∨ (isConst = true ∧ Wrapped f s)

/-! ## Parts in order -/

mutual
/-- All parts of a symbol, each before what stands in it, and a callee before the arguments;
`isConst` says whether the whole is said to be `const`. -/
def parts (isConst : Bool) : Symbol → List Part
  | .path elements => ⟨.path elements, isConst⟩ :: allParts elements
  | .function callee args =>
    ⟨.function callee args, isConst⟩ :: (parts false callee ++ allParts args)
  | .constructor args => ⟨.constructor args, isConst⟩ :: allParts args
  | .generic args => ⟨.generic args, isConst⟩ :: allParts args
  | .type name => [⟨.type name, isConst⟩]
  | .operator name => [⟨.operator name, isConst⟩]
  | .typed inner qualifiers =>
    ⟨.typed inner qualifiers, isConst⟩ ::
      parts (isConst || (inner.isFunction && qualifiers ≠ [])) inner
  | .stray text => [⟨.stray text, isConst⟩]

/-- All parts of some symbols, of which nothing is said as wholes. -/
def allParts : List Symbol → List Part
  | [] => []
  | s :: ss => parts false s ++ allParts ss
end

theorem mem_allParts {ss : List Symbol} {p : Part} :
    p ∈ allParts ss ↔ ∃ s ∈ ss, p ∈ s.parts false := by
  induction ss with
  | nil => simp [allParts]
  | cons s ss ih => simp [allParts, ih]

theorem mem_parts_self (isConst : Bool) (s : Symbol) : ⟨s, isConst⟩ ∈ s.parts isConst := by
  cases s <;> simp [parts]

/-! ### What stands in a symbol is listed -/

/-- What stands in a symbol is listed there with all its own parts. -/
theorem Within.exists_parts_subset {t s : Symbol} (h : Within t s) (isConst : Bool) :
    ∃ b, t.parts b ⊆ s.parts isConst := by
  induction h generalizing isConst with
  | self => exact ⟨isConst, List.Subset.refl _⟩
  | path he _ ih | constructor he _ ih | generic he _ ih =>
    obtain ⟨b, hb⟩ := ih false
    refine ⟨b, fun p hp => List.mem_cons_of_mem _ ?_⟩
    exact mem_allParts.2 ⟨_, he, hb hp⟩
  | callee _ ih =>
    obtain ⟨b, hb⟩ := ih false
    exact ⟨b, fun p hp => List.mem_cons_of_mem _ (List.mem_append_left _ (hb hp))⟩
  | argument ha _ ih =>
    obtain ⟨b, hb⟩ := ih false
    refine ⟨b, fun p hp => List.mem_cons_of_mem _ (List.mem_append_right _ ?_)⟩
    exact mem_allParts.2 ⟨_, ha, hb hp⟩
  | typed _ ih =>
    obtain ⟨b, hb⟩ := ih _
    exact ⟨b, fun p hp => List.mem_cons_of_mem _ (hb hp)⟩

theorem Wrapped.mem_parts {t s : Symbol} (h : Wrapped t s) : ⟨t, true⟩ ∈ s.parts true := by
  induction h with
  | self => exact mem_parts_self true t
  | typed _ ih =>
    rw [parts, Bool.true_or]
    exact List.mem_cons_of_mem _ ih

/-- A function is wrapped in nothing but itself. -/
theorem Wrapped.eq_of_isFunction {t s : Symbol} (h : Wrapped t s) (hs : s.isFunction = true) :
    t = s := by
  cases h with
  | self => rfl
  | typed => cases hs

/-! ### What is listed stands in the symbol -/

/-- What the list of parts says of one of them. -/
def HasPart (isConst : Bool) (s : Symbol) (p : Part) : Prop :=
  Within p.symbol s ∧ (p.isConst = true → SaysConst isConst s p.symbol)

namespace HasPart

variable {isConst : Bool} {s t : Symbol} {p : Part}

theorem self (isConst : Bool) (s : Symbol) : HasPart isConst s ⟨s, isConst⟩ :=
  ⟨.self, fun h => .inr ⟨h, .self⟩⟩

/-- Inside of a symbol nothing is said to be `const` but by qualifiers that stand there. -/
theorem of_inside (h : HasPart false t p) (hin : ∀ {x}, Within x t → Within x s) :
    HasPart isConst s p := by
  refine ⟨hin h.1, fun hp => ?_⟩
  obtain ⟨qualifiers, hne, hw⟩ := (h.2 hp).resolve_right (by simp)
  exact .inl ⟨qualifiers, hne, hin hw⟩

/-- What a wrapper says of a symbol is what is said of the wrapper, or what its qualifiers say of a
function. -/
theorem of_wrapped {qualifiers : List Qualifier}
    (h : HasPart (isConst || (s.isFunction && qualifiers ≠ [])) s p) :
    HasPart isConst (.typed s qualifiers) p := by
  refine ⟨.typed h.1, fun hp => ?_⟩
  rcases h.2 hp with ⟨qs, hne, hw⟩ | ⟨hsaid, hw⟩
  · exact .inl ⟨qs, hne, .typed hw⟩
  rcases Bool.or_eq_true_iff.1 hsaid with hwhole | hhere
  · exact .inr ⟨hwhole, .typed hw⟩
  · obtain ⟨hfunction, hne⟩ := Bool.and_eq_true_iff.1 hhere
    rw [hw.eq_of_isFunction hfunction]
    exact .inl ⟨qualifiers, of_decide_eq_true hne, .self⟩

end HasPart

theorem hasPart_of_mem_parts {p : Part} {s : Symbol} {isConst : Bool}
    (h : p ∈ s.parts isConst) : HasPart isConst s p := by
  induction s using Symbol.induct generalizing isConst with
  | path elements ih =>
    rcases List.mem_cons.1 h with rfl | h
    · exact .self isConst _
    · obtain ⟨e, he, hp⟩ := mem_allParts.1 h
      exact (ih e he hp).of_inside (.path he)
  | function callee args ih ih' =>
    rcases List.mem_cons.1 h with rfl | h
    · exact .self isConst _
    rcases List.mem_append.1 h with hp | h
    · exact (ih hp).of_inside .callee
    · obtain ⟨a, ha, hp⟩ := mem_allParts.1 h
      exact (ih' a ha hp).of_inside (.argument ha)
  | constructor args ih =>
    rcases List.mem_cons.1 h with rfl | h
    · exact .self isConst _
    · obtain ⟨a, ha, hp⟩ := mem_allParts.1 h
      exact (ih a ha hp).of_inside (.constructor ha)
  | generic args ih =>
    rcases List.mem_cons.1 h with rfl | h
    · exact .self isConst _
    · obtain ⟨a, ha, hp⟩ := mem_allParts.1 h
      exact (ih a ha hp).of_inside (.generic ha)
  | type name | operator name | stray text =>
    rw [List.mem_singleton.1 h]
    exact .self isConst _
  | typed inner qualifiers ih =>
    rcases List.mem_cons.1 h with rfl | h
    · exact .self isConst _
    · exact (ih h).of_wrapped

/-! ### The parts that are listed -/

/-- The parts of a symbol are all that stands in it. -/
theorem exists_mem_parts_iff {t s : Symbol} {isConst : Bool} :
    (∃ b, ⟨t, b⟩ ∈ s.parts isConst) ↔ Within t s := by
  constructor
  · rintro ⟨b, h⟩
    exact (hasPart_of_mem_parts h).1
  · intro h
    obtain ⟨b, hb⟩ := h.exists_parts_subset isConst
    exact ⟨b, hb (mem_parts_self b t)⟩

/-- The functions that are listed as `const` are those that are said to be so. -/
theorem mem_parts_const_iff {f s : Symbol} {isConst : Bool} (hf : f.isFunction = true) :
    ⟨f, true⟩ ∈ s.parts isConst ↔ SaysConst isConst s f := by
  constructor
  · intro h
    exact (hasPart_of_mem_parts h).2 rfl
  · rintro (⟨qualifiers, hne, hw⟩ | ⟨rfl, hw⟩)
    · obtain ⟨b, hb⟩ := hw.exists_parts_subset isConst
      refine hb (List.mem_cons_of_mem _ ?_)
      simp only [hf, hne, ne_eq, not_false_eq_true, decide_true, Bool.and_true, Bool.or_true]
      exact mem_parts_self true f
    · exact hw.mem_parts

end Symbol
end LinkerNames

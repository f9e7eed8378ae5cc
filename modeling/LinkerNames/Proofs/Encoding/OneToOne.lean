import LinkerNames.Proofs.Encoding.Renaming
import LinkerNames.Proofs.Runs
/-!
# Renamings that do not show

Replace the type names of a symbol, different names by different ones and each name by one for which
the same is written. Encoding does not see it: it fails or not as before, writes the same, and
records the same elements under their new names.

The two encoders go through tables with different elements. What keeps them in step is that one
table is the other under new names, and that the renaming tells all symbols apart that are made of
the names in question: an element is found in one table if and only if it is found, renamed, in the
other.
-/

namespace LinkerNames
namespace Symbol

/-! ## The names in a symbol -/

/-- The name of a type. -/
def typeName? : Symbol → Option String
  | .type name => some name
  | _ => none

/-- The names of the types that stand in a symbol, from left to right. -/
def typeNames (s : Symbol) : List String :=
  (s.parts false).filterMap fun p => p.symbol.typeName?

theorem mem_typeNames_iff {name : String} {s : Symbol} :
    name ∈ s.typeNames ↔ Within (.type name) s := by
  rw [← @exists_mem_parts_iff _ _ false, typeNames, List.mem_filterMap]
  constructor
  · rintro ⟨⟨t, b⟩, hmem, hname⟩
    cases t with
    | type name' =>
      cases hname
      exact ⟨b, hmem⟩
    | path | function | constructor | generic | operator | typed | stray => cases hname
  · rintro ⟨b, hmem⟩
    exact ⟨_, hmem, rfl⟩

/-- A symbol has all names of what stands in it. -/
theorem Within.typeNames_subset {t s : Symbol} (h : Within t s) : t.typeNames ⊆ s.typeNames := by
  intro name hname
  obtain ⟨b, hsub⟩ := h.exists_parts_subset false
  obtain ⟨b', hmem⟩ := (@exists_mem_parts_iff _ _ b).2 (mem_typeNames_iff.1 hname)
  exact mem_typeNames_iff.2 (exists_mem_parts_iff.1 ⟨b', hsub hmem⟩)

/-! ## What the renaming tells apart -/

variable {r : String → String} {names : List String}

theorem renameAll_inj {ss ss' : List Symbol}
    (ih : ∀ s ∈ ss, ∀ s', s'.typeNames ⊆ names → s.rename r = s'.rename r → s = s')
    (hss' : ∀ s ∈ ss', s.typeNames ⊆ names) (h : renameAll r ss = renameAll r ss') : ss = ss' := by
  induction ss generalizing ss' with
  | nil =>
    cases ss' with
    | nil => rfl
    | cons => cases h
  | cons s ss ihs =>
    cases ss' with
    | nil => cases h
    | cons s' ss' =>
      obtain ⟨hs, hrest⟩ := List.cons.inj h
      rw [ih s List.mem_cons_self s' (hss' s' List.mem_cons_self) hs,
        ihs (fun t ht => ih t (List.mem_cons_of_mem s ht))
          (fun t ht => hss' t (List.mem_cons_of_mem s' ht)) hrest]

/-- A renaming that tells names apart tells symbols apart that are made of them. -/
theorem rename_inj (hr : ∀ m ∈ names, ∀ n ∈ names, r m = r n → m = n) {s s' : Symbol}
    (hs : s.typeNames ⊆ names) (hs' : s'.typeNames ⊆ names) (h : s.rename r = s'.rename r) :
    s = s' := by
  have hin {x s : Symbol} (hs : s.typeNames ⊆ names) (hx : Within x s) : x.typeNames ⊆ names :=
    fun _ hname => hs (hx.typeNames_subset hname)
  induction s using Symbol.induct generalizing s' with
  | path es ih =>
    cases s' with
    | path es' =>
      rw [renameAll_inj (fun e he e' he' => ih e he (hin hs (.path he .self)) he')
        (fun e he => hin hs' (.path he .self)) (Symbol.path.inj h)]
    | function | constructor | generic | type | operator | typed | stray => cases h
  | function callee args ih ih' =>
    cases s' with
    | function callee' args' =>
      obtain ⟨hcallee, hargs⟩ := Symbol.function.inj h
      rw [ih (hin hs (.callee .self)) (hin hs' (.callee .self)) hcallee,
        renameAll_inj (fun a ha a' ha' => ih' a ha (hin hs (.argument ha .self)) ha')
          (fun a ha => hin hs' (.argument ha .self)) hargs]
    | path | constructor | generic | type | operator | typed | stray => cases h
  | constructor args ih =>
    cases s' with
    | constructor args' =>
      rw [renameAll_inj (fun a ha a' ha' => ih a ha (hin hs (.constructor ha .self)) ha')
        (fun a ha => hin hs' (.constructor ha .self)) (Symbol.constructor.inj h)]
    | path | function | generic | type | operator | typed | stray => cases h
  | generic args ih =>
    cases s' with
    | generic args' =>
      rw [renameAll_inj (fun a ha a' ha' => ih a ha (hin hs (.generic ha .self)) ha')
        (fun a ha => hin hs' (.generic ha .self)) (Symbol.generic.inj h)]
    | path | function | constructor | type | operator | typed | stray => cases h
  | type name =>
    cases s' with
    | type name' =>
      rw [hr name (hs (mem_typeNames_iff.2 .self)) name' (hs' (mem_typeNames_iff.2 .self))
        (Symbol.type.inj h)]
    | path | function | constructor | generic | operator | typed | stray => cases h
  | operator name =>
    cases s' with
    | operator name' => exact congrArg Symbol.operator (Symbol.operator.inj h)
    | path | function | constructor | generic | type | typed | stray => cases h
  | typed inner qualifiers ih =>
    cases s' with
    | typed inner' qualifiers' =>
      obtain ⟨hinner, rfl⟩ := Symbol.typed.inj h
      rw [ih (hin hs (.typed .self)) (hin hs' (.typed .self)) hinner]
    | path | function | constructor | generic | type | operator | stray => cases h
  | stray text =>
    cases s' with
    | stray text' => exact congrArg Symbol.stray (Symbol.stray.inj h)
    | path | function | constructor | generic | type | operator | typed => cases h

@[simp]
theorem isPath_rename (r : String → String) (s : Symbol) : (s.rename r).isPath = s.isPath := by
  cases s <;> rfl

@[simp]
theorem isFunction_rename (r : String → String) (s : Symbol) :
    (s.rename r).isFunction = s.isFunction := by
  cases s <;> rfl

end Symbol

/-! ## Tables and errors under new names -/

/-- A table with its elements under new names. -/
def Table.rename (r : String → String) (t : Table) : Table :=
  t.map (Symbol.rename r)

/-- All elements of a table are made of these names. -/
def Table.MadeOf (names : List String) (t : Table) : Prop :=
  ∀ e ∈ t, e.typeNames ⊆ names

/-- The same reason, with its symbol under new names. -/
def EncodeError.rename (r : String → String) : EncodeError → EncodeError
  | .unsupported s => .unsupported (s.rename r)
  | .constWithoutPath callee => .constWithoutPath (callee.rename r)
  | .notSymbol s => .notSymbol (s.rename r)

section
variable {r : String → String} {names : List String} {t : Table} {s : Symbol}

theorem Table.mem_rename_iff (hr : ∀ m ∈ names, ∀ n ∈ names, r m = r n → m = n)
    (ht : t.MadeOf names) (hs : s.typeNames ⊆ names) : s.rename r ∈ t.rename r ↔ s ∈ t := by
  constructor
  · intro h
    obtain ⟨e, he, heq⟩ := List.mem_map.1 h
    rwa [← Symbol.rename_inj hr (ht e he) hs heq]
  · exact List.mem_map_of_mem

theorem Table.rename_record (hr : ∀ m ∈ names, ∀ n ∈ names, r m = r n → m = n)
    (ht : t.MadeOf names) (hs : s.typeNames ⊆ names) :
    (t.record s).rename r = (t.rename r).record (s.rename r) := by
  by_cases h : s ∈ t
  · rw [record_of_mem h, record_of_mem ((mem_rename_iff hr ht hs).2 h)]
  · rw [record_of_not_mem h, record_of_not_mem (mt (mem_rename_iff hr ht hs).1 h), rename,
      List.map_append]
    rfl

theorem Table.MadeOf.record (ht : t.MadeOf names) (hs : s.typeNames ⊆ names) :
    (t.record s).MadeOf names := by
  intro e he
  rcases mem_record.1 he with he | rfl
  · exact ht e he
  · exact hs

end

/-! ## Encoders in step -/

/-- From a table that is made of the names, and from the same table under new names, both encoders
write the same and add the same to the table, or fail for the same reason, under new names. -/
def Encoder.InStep {α : Type} (r : String → String) (names : List String) (x y : Encoder α) :
    Prop :=
  ∀ t : Table, t.MadeOf names →
    match x t with
    | .ok a t' => t'.MadeOf names ∧ y (t.rename r) = .ok a (t'.rename r)
    | .error why t' => y (t.rename r) = .error (why.rename r) (t'.rename r)

namespace Encoder.InStep

variable {α β : Type} {r : String → String} {names : List String}

theorem pure (a : α) : InStep r names (Pure.pure a) (Pure.pure a) :=
  fun _ ht => ⟨ht, rfl⟩

theorem throw (why : EncodeError) :
    InStep r names (throwThe EncodeError why : Encoder α) (throwThe EncodeError (why.rename r)) :=
  fun _ _ => rfl

theorem bind {x y : Encoder α} {f g : α → Encoder β} (h : InStep r names x y)
    (hfg : ∀ a, InStep r names (f a) (g a)) : InStep r names (x >>= f) (y >>= g) := by
  intro t ht
  have hxy := h t ht
  cases hx : x t with
  | ok a t' =>
    rw [hx] at hxy
    rw [EStateM.bind_of_ok hx, EStateM.bind_of_ok hxy.2]
    exact hfg a t' hxy.1
  | error why t' =>
    rw [hx] at hxy
    rw [EStateM.bind_of_error hx]
    exact EStateM.bind_of_error hxy

/-- An element is found in both tables or in none. -/
theorem lookup (hr : ∀ m ∈ names, ∀ n ∈ names, r m = r n → m = n) {s : Symbol}
    (hs : s.typeNames ⊆ names) {x y x' y' : Encoder α} (h : InStep r names x y)
    (h' : InStep r names x' y') :
    InStep r names (get >>= fun t => if s ∈ t then x else x')
      (get >>= fun t => if s.rename r ∈ t then y else y') := by
  intro t ht
  rw [EStateM.bind_of_ok (show (get : Encoder Table) t = .ok t t from rfl),
    EStateM.bind_of_ok (show (get : Encoder Table) (t.rename r) = .ok (t.rename r) (t.rename r)
      from rfl)]
  by_cases hmem : s ∈ t
  · rw [if_pos hmem, if_pos ((Table.mem_rename_iff hr ht hs).2 hmem)]
    exact h t ht
  · rw [if_neg hmem, if_neg (mt (Table.mem_rename_iff hr ht hs).1 hmem)]
    exact h' t ht

/-- An element is recorded under its name in both. -/
theorem record (hr : ∀ m ∈ names, ∀ n ∈ names, r m = r n → m = n) {s : Symbol}
    (hs : s.typeNames ⊆ names) :
    InStep r names (modify (Table.record · s)) (modify (Table.record · (s.rename r))) := by
  intro t ht
  refine ⟨ht.record hs, ?_⟩
  rw [Table.rename_record hr ht hs]
  rfl

end Encoder.InStep

namespace Symbol

variable {r : String → String} {names : List String}

theorem inStep_encodeAll {ss : List Symbol}
    (ih : ∀ s ∈ ss, Encoder.InStep r names (encode false s) (encode false (s.rename r))) :
    Encoder.InStep r names (encodeAll ss) (encodeAll (renameAll r ss)) := by
  induction ss with
  | nil => exact .pure []
  | cons s ss ihs =>
    rw [renameAll, encodeAll, encodeAll]
    exact (ih s List.mem_cons_self).bind fun first =>
      (ihs fun t ht => ih t (List.mem_cons_of_mem s ht)).bind fun others => .pure (first ++ others)

theorem inStep_encodeElements (hr : ∀ m ∈ names, ∀ n ∈ names, r m = r n → m = n)
    {ss : List Symbol} (hss : ∀ s ∈ ss, s.typeNames ⊆ names)
    (ih : ∀ s ∈ ss, Encoder.InStep r names (encode false s) (encode false (s.rename r))) :
    Encoder.InStep r names (encodeElements ss) (encodeElements (renameAll r ss)) := by
  induction ss with
  | nil => exact .pure []
  | cons s ss ihs =>
    have hs := hss s List.mem_cons_self
    have hothers := ihs (fun t ht => hss t (List.mem_cons_of_mem s ht))
      fun t ht => ih t (List.mem_cons_of_mem s ht)
    rw [renameAll, encodeElements, encodeElements]
    refine .lookup hr hs (hothers.bind fun others => .pure (backReference ++ others)) ?_
    exact (ih s List.mem_cons_self).bind fun first => (Encoder.InStep.record hr hs).bind fun _ =>
      hothers.bind fun others => .pure (first ++ others)

/-- Encoding a symbol is in step with encoding it under new names. -/
theorem inStep_encode (hr : ∀ m ∈ names, ∀ n ∈ names, r m = r n → m = n)
    (hcode : ∀ name ∈ names, encodeType (r name) = encodeType name) {s : Symbol}
    (hs : s.typeNames ⊆ names) (pending : Bool) :
    Encoder.InStep r names (encode pending s) (encode pending (s.rename r)) := by
  have hin {x s : Symbol} (hs : s.typeNames ⊆ names) (hx : Within x s) : x.typeNames ⊆ names :=
    fun _ hname => hs (hx.typeNames_subset hname)
  induction s using Symbol.induct generalizing pending with
  | path es ih =>
    have hes (e : Symbol) (he : e ∈ es) := hin hs (.path he .self)
    rw [rename, encode, encode]
    exact (inStep_encodeElements hr hes fun e he => ih e he (hes e he) false).bind
      fun inside => .pure (wrapPath pending inside)
  | function callee args ih ih' =>
    rw [rename, encode, encode, isPath_rename]
    split
    · exact fun _ _ => rfl
    · exact (ih (hin hs (.callee .self)) pending).bind fun name =>
        (inStep_encodeAll fun a ha => ih' a ha (hin hs (.argument ha .self)) false).bind
          fun inside => .pure (name ++ inside)
  | constructor args => exact .throw (.unsupported (.constructor args))
  | generic args ih =>
    rw [rename, encode, encode]
    exact (inStep_encodeAll fun a ha => ih a ha (hin hs (.generic ha .self)) false).bind
      fun inside => .pure (wrapGeneric inside)
  | type name =>
    rw [rename, encode, encode, hcode name (hs (mem_typeNames_iff.2 .self))]
    exact .pure _
  | operator name => exact .throw (.unsupported (.operator name))
  | typed inner qualifiers ih =>
    have hinner := hin hs (.typed .self)
    rw [rename, encode, encode, isFunction_rename]
    split
    · exact ih hinner true
    · exact (ih hinner pending).bind fun inside =>
        .pure (qualifiers.map Qualifier.letter ++ inside)
  | stray text => exact .throw (.notSymbol (.stray text))

end Symbol

/-! ## Main theorem -/

/-- Under new names a symbol is encoded if and only if it is under the old ones, with the same text
and with the same elements in the table under their new names, in the same order; or else it is
refused for the same reason. The renaming is to tell the names of the symbol apart and to keep what
is written for each. -/
theorem encode_rename {r : String → String} {s : Symbol}
    (hr : ∀ m ∈ s.typeNames, ∀ n ∈ s.typeNames, r m = r n → m = n)
    (hcode : ∀ name ∈ s.typeNames, encodeType (r name) = encodeType name) :
    (∀ pending,
      match encode pending s [] with
      | .ok text t => encode pending (s.rename r) [] = .ok text (t.map (Symbol.rename r))
      | .error why t =>
        encode pending (s.rename r) [] = .error (why.rename r) (t.map (Symbol.rename r))) ∧
      (s.rename r).linkerName = s.linkerName.mapError (EncodeError.rename r) := by
  have hstep (pending : Bool) :=
    Symbol.inStep_encode hr hcode (List.Subset.refl _) pending [] fun _ he => nomatch he
  constructor
  · intro pending
    have h := hstep pending
    cases hx : encode pending s [] with
    | ok text t =>
      rw [hx] at h
      exact h.2
    | error why t =>
      rw [hx] at h
      exact h
  · have h := hstep false
    rw [Symbol.linkerName, Symbol.linkerName]
    cases hx : encode false s [] with
    | ok text t =>
      rw [hx] at h
      rw [show encode false (s.rename r) [] = .ok text (t.rename r) from h.2]
      rfl
    | error why t =>
      rw [hx] at h
      rw [show encode false (s.rename r) [] = .error (why.rename r) (t.rename r) from h]
      rfl

/-- Two spellings of one type change places. -/
theorem encode_rename_swapped :
    let swap (name : String) : String :=
      if name = "int" then "signed" else if name = "signed" then "int" else name
    let s : Symbol := .function (.path [.type "f", .generic [.typed (.type "int") []],
      .generic [.typed (.type "signed") []], .generic [.typed (.type "int") []]]) []
    s.linkerName = .ok "_ZN1fIiEIiES_E" ∧ (s.rename swap).linkerName = .ok "_ZN1fIiEIiES_E" := by
  intro swap s
  have h : s.linkerName = .ok "_ZN1fIiEIiES_E" := Except.eq_ok_of_toOption (by decide +kernel)
  refine ⟨h, ?_⟩
  rw [(encode_rename (by decide +kernel) (by decide +kernel)).2, h]
  rfl

end LinkerNames

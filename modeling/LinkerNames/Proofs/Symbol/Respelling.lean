import LinkerNames.Proofs.Encoding.Renaming
import LinkerNames.Proofs.Symbol.Image
/-!
# Other spellings of builtin types

Most builtin types have several spellings with the same code. `Respelled` replaces them in a row of
words, each occurrence on its own, and is about words only. What a signature means is carried along:
the new row is again that of a symbol that can be read, and it is the same symbol as before with
other names for the same types.
-/

namespace LinkerNames

/-- Two spellings of builtin types that have the same code. -/
structure Synonymous (name name' : String) : Prop where
  left : name ∈ builtinSpellings
  right : name' ∈ builtinSpellings
  code : typeCode? name = typeCode? name'

instance (name name' : String) : Decidable (Synonymous name name') :=
  decidable_of_iff (name ∈ builtinSpellings ∧ name' ∈ builtinSpellings ∧
      typeCode? name = typeCode? name')
    ⟨fun h => ⟨h.1, h.2.1, h.2.2⟩, fun h => ⟨h.left, h.right, h.code⟩⟩

/-- A row of words in which builtin types are spelled in other ways, or in the same way. A builtin
type takes all words of builtin types that stand side by side. -/
inductive Respelled : List String → List String → Prop
  | nil : Respelled [] []
  | other {w : String} {ws ws' : List String} : w ∉ builtinWords → Respelled ws ws' →
    Respelled (w :: ws) (w :: ws')
  | builtin {name name' : String} {ws ws' : List String} : Synonymous name name' →
    (∀ w ∈ ws.head?, w ∉ builtinWords) → Respelled ws ws' →
    Respelled (words name ++ ws) (words name' ++ ws')

/-! ## One name for each builtin type -/

/-- The first spelling of a builtin type; other names as they are. -/
def canonical (name : String) : String :=
  if name ∈ builtinSpellings then
    (builtinSpellings.find? fun x => typeCode? x = typeCode? name).getD name
  else name

theorem canonical_of_not_mem {name : String} (h : name ∉ builtinSpellings) :
    canonical name = name :=
  if_neg h

theorem canonical_builtin : ∀ name ∈ builtinSpellings,
    canonical name ∈ builtinSpellings ∧ typeCode? (canonical name) = typeCode? name := by
  decide +kernel

theorem encodeType_canonical (name : String) : encodeType (canonical name) = encodeType name := by
  by_cases h : name ∈ builtinSpellings
  · have hcode : ∀ x ∈ builtinSpellings, (typeCode? x).isSome := by decide +kernel
    obtain ⟨code, hname⟩ := Option.isSome_iff_exists.1 (hcode name h)
    rw [encodeType, encodeType, (canonical_builtin name h).2, hname]
    rfl
  · rw [canonical_of_not_mem h]

/-- Names that are no builtin types are told apart from all other names. -/
theorem canonical_eq_iff {name other : String} (h : other ∉ builtinSpellings) :
    canonical name = other ↔ name = other := by
  by_cases hname : name ∈ builtinSpellings
  · constructor
    · rintro rfl
      exact absurd (canonical_builtin name hname).1 h
    · rintro rfl
      exact absurd hname h
  · rw [canonical_of_not_mem hname]

theorem isStandard_canonical_iff {name : String} :
    IsStandard (canonical name) ↔ IsStandard name := by
  by_cases h : name ∈ builtinSpellings
  · exact iff_of_false (not_isStandard_builtin _ (canonical_builtin name h).1).1
      (not_isStandard_builtin name h).1
  · rw [canonical_of_not_mem h]

theorem Synonymous.canonical_eq {name name' : String} (h : Synonymous name name') :
    canonical name = canonical name' := by
  have hfound : (builtinSpellings.find? fun x => typeCode? x = typeCode? name).isSome :=
    List.find?_isSome.2 ⟨name, h.left, by simp⟩
  obtain ⟨found, hfound⟩ := Option.isSome_iff_exists.1 hfound
  rw [canonical, canonical, if_pos h.left, if_pos h.right, ← h.code, hfound]
  rfl

/-! ## Rows of words -/

theorem head_words_builtin {name : String} (h : name ∈ builtinSpellings) (ws : List String) :
    ∃ w ∈ builtinWords, (words name ++ ws).head? = some w := by
  obtain ⟨hne, hbuiltin, -⟩ := words_builtin name h
  obtain ⟨w, others, hwords⟩ := List.exists_cons_of_ne_nil hne
  refine ⟨w, hbuiltin w (hwords ▸ List.mem_cons_self), ?_⟩
  rw [hwords]
  rfl

namespace Respelled

theorem single {name name' : String} (h : Synonymous name name') :
    Respelled (words name) (words name') := by
  have hrow : Respelled (words name ++ []) (words name' ++ []) :=
    .builtin h (by rintro w ⟨⟩) .nil
  rwa [List.append_nil, List.append_nil] at hrow

/-- A word of no builtin type stays where it is. -/
theorem cons_inv {w : String} {ws vs : List String} (h : Respelled (w :: ws) vs)
    (hw : w ∉ builtinWords) : ∃ ws', vs = w :: ws' ∧ Respelled ws ws' := by
  generalize hrow : w :: ws = row at h
  cases h with
  | nil => cases hrow
  | other _ h =>
    obtain ⟨rfl, rfl⟩ := List.cons.inj hrow
    exact ⟨_, rfl, h⟩
  | builtin hname _ _ =>
    obtain ⟨v, hv, hhead⟩ := head_words_builtin hname.left _
    rw [← hrow] at hhead
    cases hhead
    exact absurd hv hw

theorem nil_inv {vs : List String} (h : Respelled [] vs) : vs = [] := by
  generalize hrow : ([] : List String) = row at h
  cases h with
  | nil => rfl
  | other => cases hrow
  | builtin hname =>
    obtain ⟨v, -, hhead⟩ := head_words_builtin hname.left _
    rw [← hrow] at hhead
    cases hhead

/-- Words of no builtin types stay where they are. -/
theorem prefix_inv {xs ys vs : List String} (h : Respelled (xs ++ ys) vs)
    (hxs : ∀ w ∈ xs, w ∉ builtinWords) : ∃ ys', vs = xs ++ ys' ∧ Respelled ys ys' := by
  induction xs generalizing vs with
  | nil => exact ⟨vs, rfl, h⟩
  | cons x xs ih =>
    obtain ⟨vs, rfl, hrest⟩ := h.cons_inv (hxs x List.mem_cons_self)
    obtain ⟨ys', rfl, hys⟩ := ih hrest fun w hw => hxs w (List.mem_cons_of_mem x hw)
    exact ⟨ys', rfl, hys⟩

theorem eq_of_forall_not_mem {ws vs : List String} (h : Respelled ws vs)
    (hws : ∀ w ∈ ws, w ∉ builtinWords) : vs = ws := by
  rw [← List.append_nil ws] at h
  obtain ⟨rest, rfl, hrest⟩ := h.prefix_inv hws
  rw [hrest.nil_inv, List.append_nil]

/-- A row can be taken apart where no builtin type goes on. -/
theorem append_inv {xs ys vs : List String} (h : Respelled (xs ++ ys) vs)
    (hys : ∀ w ∈ ys.head?, w ∉ builtinWords) :
    ∃ xs' ys', vs = xs' ++ ys' ∧ Respelled xs xs' ∧ Respelled ys ys' := by
  generalize hrow : xs ++ ys = row at h
  induction h generalizing xs with
  | nil =>
    obtain ⟨rfl, rfl⟩ := List.append_eq_nil_iff.1 hrow
    exact ⟨[], [], rfl, .nil, .nil⟩
  | @other w ws ws' hw h ih =>
    rcases List.append_eq_cons_iff.1 hrow with ⟨rfl, rfl⟩ | ⟨xs, rfl, rfl⟩
    · exact ⟨[], w :: ws', rfl, .nil, .other hw h⟩
    · obtain ⟨xs', ys', rfl, hxs, hys'⟩ := ih rfl
      exact ⟨w :: xs', ys', rfl, .other hw hxs, hys'⟩
  | @builtin name name' ws ws' hname hend h ih =>
    rcases List.append_eq_append_iff.1 hrow with ⟨inside, hinside, rfl⟩ | ⟨behind, rfl, rfl⟩
    · -- The place is in the type, which is only possible at its end.
      cases inside with
      | nil =>
        rw [List.append_nil] at hinside
        exact ⟨words name', ws', rfl, hinside ▸ .single hname, h⟩
      | cons w inside =>
        obtain ⟨-, hbuiltin, -⟩ := words_builtin name hname.left
        refine absurd (hbuiltin w ?_) (hys w rfl)
        rw [hinside]
        exact List.mem_append_right _ List.mem_cons_self
    · obtain ⟨xs', ys', rfl, hxs, hys'⟩ := ih rfl
      refine ⟨words name' ++ xs', ys', (List.append_assoc _ _ _).symm, ?_, hys'⟩
      refine .builtin hname (fun w hw => hend w ?_) hxs
      rw [List.head?_append, hw]
      rfl

/-- A row of a single builtin type is replaced as a whole. -/
theorem exists_synonymous {name : String} {vs : List String} (h : Respelled (words name) vs)
    (hname : name ∈ builtinSpellings) : ∃ name', vs = words name' ∧ Synonymous name name' := by
  obtain ⟨hne, hbuiltin, hspelling⟩ := words_builtin name hname
  generalize hrow : words name = row at h
  cases h with
  | nil => exact absurd hrow hne
  | other hw => exact absurd (hbuiltin _ (hrow ▸ List.mem_cons_self)) hw
  | @builtin first name' ws ws' hfirst hend h =>
    cases ws with
    | cons w ws =>
      refine absurd (hbuiltin w ?_) (hend w rfl)
      rw [hrow]
      exact List.mem_append_right _ List.mem_cons_self
    | nil =>
      obtain rfl := h.nil_inv
      obtain ⟨-, -, hspelling'⟩ := words_builtin first hfirst.left
      rw [List.append_nil] at hrow
      obtain rfl : name = first := by rw [← hspelling, hrow, hspelling']
      exact ⟨name', List.append_nil _, hfirst⟩

end Respelled

/-! ## Symbols -/

namespace Symbol

/-- A symbol that has other words can be given those words by other names of its builtin types. -/
def Respellable (role : Role) (s : Symbol) : Prop :=
  ∀ {ws}, Respelled s.words ws → ∃ s', s'.words = ws ∧ Fits role s' ∧ s'.Spellable ∧
    s.rename canonical = s'.rename canonical

/-! ### Rows of symbols -/

/-- The words of some symbols, each behind what parts it from the one before. -/
def rowWords (before : Symbol → List String) : List Symbol → List String
  | [] => []
  | s :: ss => before s ++ (s.words ++ rowWords before ss)

theorem rowWords_separator (ss : List Symbol) : rowWords separator ss = elementWords ss := by
  induction ss with
  | nil => rfl
  | cons s ss ih => rw [rowWords, elementWords, ih]

theorem rowWords_comma (ss : List Symbol) : rowWords (fun _ => [","]) ss = argumentWords ss := by
  induction ss with
  | nil => rfl
  | cons s ss ih => rw [rowWords, argumentWords, ih, List.singleton_append]

/-- What parts two symbols is no part of a builtin type, whatever the names are. -/
structure Separates (before : Symbol → List String) : Prop where
  words : ∀ s, ∀ w ∈ before s, w ∉ builtinWords
  head : ∀ s, ∀ w ∈ (before s ++ s.words).head?, w ∉ builtinWords
  rename : ∀ s, before (s.rename canonical) = before s

theorem separates_separator : Separates separator where
  words s w hw := by
    cases s <;> simp_all [separator, builtinWords]
  head s w hw := by
    cases s <;> (cases hw; decide)
  rename s := by cases s <;> rfl

theorem separates_comma : Separates fun _ => [","] where
  words _ w hw := by
    obtain rfl := List.mem_singleton.1 hw
    decide
  head _ w hw := by
    cases hw
    decide
  rename _ := rfl

variable {role : Role} {before : Symbol → List String} {ss : List Symbol} {ws : List String}

theorem Separates.head_rowWords (h : Separates before) (ss : List Symbol) :
    ∀ w ∈ (rowWords before ss).head?, w ∉ builtinWords := by
  induction ss with
  | nil => exact nofun
  | cons s ss ih =>
    intro w hw
    rw [rowWords, ← List.append_assoc, List.head?_append, Option.mem_def, Option.or_eq_some_iff]
      at hw
    exact hw.elim (h.head s w) fun hw => ih w hw.2

/-- A row of symbols with other words is a row of other symbols, one by one. -/
theorem exists_row_respelled (hbefore : Separates before) (ih : ∀ s ∈ ss, Respellable role s)
    (h : Respelled (rowWords before ss) ws) :
    ∃ ss', rowWords before ss' = ws ∧ (∀ s ∈ ss', Fits role s) ∧ (∀ s ∈ ss', s.Spellable) ∧
      ss.map (rename canonical) = ss'.map (rename canonical) := by
  induction ss generalizing ws with
  | nil =>
    obtain rfl := h.nil_inv
    exact ⟨[], rfl, nofun, nofun, rfl⟩
  | cons s ss ihs =>
    obtain ⟨ws, rfl, hrow⟩ := h.prefix_inv (hbefore.words s)
    obtain ⟨xs, ys, rfl, hxs, hys⟩ := hrow.append_inv (hbefore.head_rowWords ss)
    obtain ⟨s', rfl, hfits, hspellable, hrename⟩ := ih s List.mem_cons_self hxs
    obtain ⟨ss', rfl, hfits', hspellable', hrename'⟩ :=
      ihs (fun t ht => ih t (List.mem_cons_of_mem s ht)) hys
    have hsame : before s' = before s := by
      rw [← hbefore.rename, ← hrename, hbefore.rename]
    refine ⟨s' :: ss', ?_, ?_, ?_, ?_⟩
    · rw [rowWords, hsame]
    · exact List.forall_mem_cons.2 ⟨hfits, hfits'⟩
    · exact List.forall_mem_cons.2 ⟨hspellable, hspellable'⟩
    · rw [List.map_cons, List.map_cons, hrename, hrename']

/-- Some arguments between brackets. -/
theorem exists_arguments_respelled {opening closing : String} (hopening : opening ∉ builtinWords)
    (hclosing : closing ∉ builtinWords) (ih : ∀ s ∈ ss, Respellable role s)
    (h : Respelled (opening :: ((argumentWords ss).tail ++ [closing])) ws) :
    ∃ ss', opening :: ((argumentWords ss').tail ++ [closing]) = ws ∧ (∀ s ∈ ss', Fits role s) ∧
      (∀ s ∈ ss', s.Spellable) ∧ renameAll canonical ss = renameAll canonical ss' := by
  obtain ⟨ws, rfl, hrest⟩ := h.cons_inv hopening
  obtain ⟨xs, ys, rfl, hxs, hys⟩ := hrest.append_inv (by rintro w ⟨⟩; exact hclosing)
  obtain rfl := hys.eq_of_forall_not_mem (List.forall_mem_singleton.2 hclosing)
  cases ss with
  | nil =>
    obtain rfl := hxs.nil_inv
    exact ⟨[], rfl, nofun, nofun, rfl⟩
  | cons s ss =>
    have hrow : Respelled (rowWords (fun _ => [","]) (s :: ss)) ("," :: xs) :=
      .other (by decide) ((rowWords_comma ss).symm ▸ hxs)
    obtain ⟨ss', hwords, hfits, hspellable, hrename⟩ := exists_row_respelled separates_comma ih hrow
    rw [rowWords_comma] at hwords
    refine ⟨ss', by rw [hwords, List.tail_cons], hfits, hspellable, ?_⟩
    rw [renameAll_eq_map, renameAll_eq_map, hrename]

/-! ### Paths -/

theorem rename_eq_type_iff {s : Symbol} {name : String} (h : name ∉ builtinSpellings) :
    s.rename canonical = .type name ↔ s = .type name := by
  cases s with
  | type => simp only [rename, type.injEq, canonical_eq_iff h]
  | path | function | constructor | generic | operator | typed | stray => simp [rename]

theorem exists_generic_rename_iff {r : String → String} {s : Symbol} :
    (∃ args, s.rename r = .generic args) ↔ ∃ args, s = .generic args := by
  cases s <;> simp [rename]

theorem exists_type_rename_iff {r : String → String} {s : Symbol} :
    (∃ name, s.rename r = .type name) ↔ ∃ name, s = .type name := by
  cases s <;> simp [rename]

theorem exists_standard_rename_iff {s : Symbol} :
    (∃ name, s.rename canonical = .type name ∧ IsStandard name) ↔
      ∃ name, s = .type name ∧ IsStandard name := by
  cases s <;> simp [rename, isStandard_canonical_iff]

theorem joins_iff {e e' : Symbol} :
    Joins e e' ↔ ((∃ args, e' = .generic args) → ∃ name, e = .type name) ∧
      ¬ ∃ name, e = .type name ∧ IsStandard name := by
  simp [Joins]

/-- Whether two elements can stand side by side does not depend on how builtin types are spelled. -/
theorem joins_rename_iff {e e' : Symbol} :
    Joins (e.rename canonical) (e'.rename canonical) ↔ Joins e e' := by
  simp only [joins_iff, exists_generic_rename_iff, exists_type_rename_iff,
    exists_standard_rename_iff]

theorem suffix_map_rename_iff {es : List Symbol} {x : String} (hx : x ∈ standardNames) :
    [.type "std", .type x] <:+ es.map (rename canonical) ↔ [.type "std", .type x] <:+ es := by
  have hnames : ∀ x ∈ "std" :: standardNames, x ∉ builtinSpellings := by decide
  have hstd := hnames "std" List.mem_cons_self
  have hx := hnames x (List.mem_cons_of_mem _ hx)
  rw [List.suffix_map_iff]
  constructor
  · rintro ⟨row, hrow, heq⟩
    obtain ⟨a, b, rfl⟩ := List.length_eq_two.1 ((List.length_map _).symm.trans
      (congrArg List.length heq).symm)
    obtain ⟨ha, hb⟩ : a.rename canonical = .type "std" ∧ b.rename canonical = .type x := by
      simpa using heq.symm
    rwa [(rename_eq_type_iff hstd).1 ha, (rename_eq_type_iff hx).1 hb] at hrow
  · intro h
    refine ⟨_, h, ?_⟩
    rw [List.map_cons, List.map_singleton, rename, rename, canonical_of_not_mem hstd,
      canonical_of_not_mem hx]

/-- Whether a path can be read does not depend on how its builtin types are spelled. -/
theorem isPathRow_map_rename_iff {es : List Symbol} :
    IsPathRow (es.map (rename canonical)) ↔ IsPathRow es := by
  have hhead : (∀ args, (es.map (rename canonical)).head? ≠ some (.generic args)) ↔
      ∀ args, es.head? ≠ some (.generic args) := by
    rw [← not_exists, ← not_exists]
    cases es with
    | nil => rfl
    | cons e es => simpa using not_congr (exists_generic_rename_iff (r := canonical) (s := e))
  have hchain : (es.map (rename canonical)).IsChain Joins ↔ es.IsChain Joins := by
    simp only [List.isChain_map, joins_rename_iff]
  constructor
  · intro h
    exact ⟨mt List.map_eq_nil_iff.2 h.ne_nil, hhead.1 h.head, hchain.1 h.chain,
      fun x hx => mt (suffix_map_rename_iff hx).2 (h.apart x hx)⟩
  · intro h
    exact ⟨mt List.map_eq_nil_iff.1 h.ne_nil, hhead.2 h.head, hchain.2 h.chain,
      fun x hx => mt (suffix_map_rename_iff hx).1 (h.apart x hx)⟩

/-! ### Signatures -/

theorem not_mem_words_of_isTypeName {name : String} (h : IsTypeName name)
    (hname : name ∉ builtinSpellings) : ∀ w ∈ LinkerNames.words name, w ∉ builtinWords := by
  cases h with
  | builtin h => exact absurd h hname
  | standard h =>
    rw [words_standard _ h]
    revert h
    exact (by decide : ∀ x ∈ standardNames, ∀ w ∈ ["std", "::", x], w ∉ builtinWords) _
  | plain h hk hw =>
    rw [words_plain h hk]
    exact List.forall_mem_singleton.2 hw

theorem not_mem_words_qualifiers (qualifiers : List Qualifier) :
    ∀ w ∈ qualifiers.map Qualifier.word, w ∉ builtinWords := by
  intro w hw
  obtain ⟨q, -, rfl⟩ := List.mem_map.1 hw
  cases q <;> decide

theorem eq_path_of_rename {r : String → String} {s : Symbol} {name : String}
    (h : s.rename r = .path [.type name]) : ∃ name', s = .path [.type name'] := by
  cases s with
  | path es =>
    rw [rename, renameAll_eq_map] at h
    obtain ⟨e, rfl, he⟩ := List.map_eq_singleton_iff.1 (path.inj h)
    obtain ⟨name', rfl⟩ := exists_type_rename_iff.1 ⟨name, he⟩
    exact ⟨name', rfl⟩
  | function | constructor | generic | type | operator | typed | stray => cases h

/-- A function with other words is one with another callee and other arguments. -/
theorem exists_function_respelled {callee : Symbol} {args : List Symbol} {ws : List String}
    (ih : Respellable .path callee) (ih' : ∀ a ∈ args, Respellable .argument a)
    (h : Respelled (function callee args).words ws) :
    ∃ callee' args', (function callee' args').words = ws ∧ Fits .path callee' ∧
      (∀ a ∈ args', Fits .argument a) ∧ (function callee' args').Spellable ∧
      (function callee args).rename canonical = (function callee' args').rename canonical := by
  obtain ⟨xs, ys, rfl, hxs, hys⟩ := h.append_inv (by rintro w ⟨⟩; decide)
  obtain ⟨callee', rfl, hfits, hspellable, hrename⟩ := ih hxs
  obtain ⟨args', rfl, hfits', hspellable', hrename'⟩ :=
    exists_arguments_respelled (by decide) (by decide) ih' hys
  refine ⟨callee', args', rfl, hfits, hfits', .function hspellable hspellable', ?_⟩
  rw [rename, rename, hrename, hrename']

/-- What a signature means can be given other words for its builtin types. -/
theorem Fits.respellable {role : Role} {s : Symbol} (h : Fits role s) (hs : s.Spellable) :
    Respellable role s := by
  induction h with
  | @type name hname =>
    intro ws h
    by_cases hbuiltin : name ∈ builtinSpellings
    · obtain ⟨name', rfl, hsame⟩ := h.exists_synonymous hbuiltin
      exact ⟨.type name', rfl, .type (.builtin hsame.right), .type,
        congrArg Symbol.type hsame.canonical_eq⟩
    · obtain rfl := h.eq_of_forall_not_mem (not_mem_words_of_isTypeName hname hbuiltin)
      exact ⟨.type name, rfl, .type hname, .type, rfl⟩
  | elementType _ ih =>
    intro ws h
    obtain ⟨s', hwords, hfits, hrest⟩ := ih hs h
    exact ⟨s', hwords, .elementType hfits, hrest⟩
  | innerType _ ih =>
    intro ws h
    obtain ⟨s', hwords, hfits, hrest⟩ := ih hs h
    exact ⟨s', hwords, .innerType hfits, hrest⟩
  | innerPath _ ih =>
    intro ws h
    obtain ⟨s', hwords, hfits, hrest⟩ := ih hs h
    exact ⟨s', hwords, .innerPath hfits, hrest⟩
  | generic _ ih =>
    intro ws h
    cases hs with
    | generic hs =>
      obtain ⟨args', rfl, hfits, hspellable, hrename⟩ :=
        exists_arguments_respelled (by decide) (by decide) (fun a ha => ih a ha (hs a ha)) h
      exact ⟨.generic args', rfl, .generic hfits, .generic hspellable,
        congrArg Symbol.generic hrename⟩
  | @path es _ _ ih =>
    intro ws h
    cases hs with
    | path hrow hs =>
      have hwords : Respelled (rowWords separator es) ("::" :: ws) := by
        rw [rowWords_separator, hrow.elementWords]
        exact .other (by decide) h
      obtain ⟨es', hwords', hfits, hspellable, hrename⟩ :=
        exists_row_respelled separates_separator (fun e he => ih e he (hs e he)) hwords
      have hrow' : IsPathRow es' :=
        isPathRow_map_rename_iff.1 (hrename ▸ isPathRow_map_rename_iff.2 hrow)
      rw [rowWords_separator] at hwords'
      refine ⟨.path es', ?_, .path hrow'.ne_nil hfits, .path hrow' hspellable, ?_⟩
      · rw [words, hwords', List.tail_cons]
      · rw [rename, rename, renameAll_eq_map, renameAll_eq_map, hrename]
  | @argument inner qualifiers _ ih =>
    intro ws h
    cases hs with
    | typed hs hinner =>
      have hmarks := not_mem_words_qualifiers qualifiers
      obtain ⟨xs, ys, rfl, hxs, hys⟩ :=
        h.append_inv fun w hw => hmarks w (List.mem_of_mem_head? hw)
      obtain rfl := hys.eq_of_forall_not_mem hmarks
      obtain ⟨inner', rfl, hfits, hspellable, hrename⟩ := ih hs hxs
      refine ⟨.typed inner' qualifiers, rfl, .argument hfits, .typed hspellable ?_,
        congrArg (typed · qualifiers) hrename⟩
      rintro name rfl
      obtain ⟨name', rfl⟩ := eq_path_of_rename hrename
      exact hinner name' rfl
  | function _ _ ih ih' =>
    intro ws h
    cases hs with
    | function hs hs' =>
      obtain ⟨callee', args', hwords, hfits, hfits', hrest⟩ :=
        exists_function_respelled (ih hs) (fun a ha => ih' a ha (hs' a ha)) h
      exact ⟨_, hwords, .function hfits hfits', hrest⟩
  | constFunction _ _ ih ih' =>
    intro ws h
    cases hs with
    | typed hs =>
      cases hs with
      | function hs hs' =>
        obtain ⟨xs, ys, rfl, hxs, hys⟩ := h.append_inv (by rintro w ⟨⟩; decide)
        obtain rfl := hys.eq_of_forall_not_mem (not_mem_words_qualifiers [.const])
        obtain ⟨callee', args', rfl, hfits, hfits', hspellable, hrename⟩ :=
          exists_function_respelled (ih hs) (fun a ha => ih' a ha (hs' a ha)) hxs
        exact ⟨_, rfl, .constFunction hfits hfits', .typed hspellable (by rintro name ⟨⟩),
          congrArg (typed · [.const]) hrename⟩

end Symbol

/-- A text with other spellings of the builtin types of a signature means the same symbol under
other names. -/
theorem Respelled.exists_ofText {text text' : String} {s : Symbol}
    (h : Respelled (words text) (words text')) (hs : Symbol.ofText text = .ok s) :
    ∃ s', Symbol.ofText text' = .ok s' ∧ s.rename canonical = s'.rename canonical := by
  obtain ⟨hfits, hspellable, hwords⟩ := Symbol.ofText_eq_ok_iff_words.1 hs
  obtain ⟨s', hwords', hfits', hspellable', hrename⟩ := hfits.respellable hspellable (hwords ▸ h)
  exact ⟨s', Symbol.ofText_eq_ok_iff_words.2 ⟨hfits', hspellable', hwords'.symm⟩, hrename⟩

end LinkerNames

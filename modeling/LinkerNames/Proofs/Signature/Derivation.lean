import LinkerNames.Signature.Grammar
import LinkerNames.Proofs.Signature.Spelling
import Mathlib.Data.List.Forall2
/-!
# The notation as a grammar

`Derives` says which rows of tokens the notation allows, and which tree each way to read a row
builds. It is written from the rules alone and knows no cursor, no turns and no order of trying.
Where the rules leave a choice, `best` derivations are those that take a name of the standard
library wherever one stands, the longest builtin type, and a plain type for what it is. The others
may choose as they like.

A derivation is of the tokens between two places in a row: those of `input` up to `rest`. What is
in `rest` matters for the names of the standard library alone, which must not go on.
-/

namespace List.Forall₂

variable {α β : Type} {R : α → β → Prop} {as : List α} {bs : List β}

/-- What stands in the second of two rows goes with something in the first. -/
theorem exists_of_mem_right (h : Forall₂ R as bs) {b : β} (hb : b ∈ bs) : ∃ a ∈ as, R a b := by
  induction h with
  | nil => cases hb
  | cons hr _ ih =>
    rcases mem_cons.1 hb with rfl | hb
    · exact ⟨_, mem_cons_self, hr⟩
    · obtain ⟨a, ha, hab⟩ := ih hb
      exact ⟨a, mem_cons_of_mem _ ha, hab⟩

theorem exists_of_mem_left (h : Forall₂ R as bs) {a : α} (ha : a ∈ as) : ∃ b ∈ bs, R a b :=
  h.flip.exists_of_mem_right ha

end List.Forall₂

namespace LinkerNames

/-- The categories of the notation. -/
inductive Category
  | type
  | generic
  | segment
  | segments
  | path
  | element
  | typedElement
  /-- One typed element or more, commas between them. -/
  | elements
  /-- A list between brackets, perhaps empty. -/
  | list (opening closing : String)
  | function

/-- Whether a category begins with a name and not with a bracket. -/
def Category.BeginsWithName : Category → Prop
  | .generic | .list _ _ => False
  | _ => True

/-- Whether a name of the standard library stands at the beginning that goes on no further. -/
inductive StandardAhead : List Token → Prop
  | mk {root scope name : Token} {rest : List Token} :
    root.kind = .identifier → root.text = "std" → scope.text = "::" →
    name.kind = .identifier → name.text ∈ standardNames →
    (∀ t ∈ rest.head?, t.text ≠ "::" ∧ t.text ≠ "<") →
    StandardAhead (root :: scope :: name :: rest)

/-- A row of words, not empty, that spells a builtin type. -/
structure SpellsBuiltin (words : List Token) : Prop where
  ne_nil : words ≠ []
  isBuiltinWord : ∀ t ∈ words, t.isBuiltinWord = true
  spelled : " ".intercalate (words.map (·.text)) ∈ builtinSpellings

/-- No more words of the row that follows can be taken to spell a builtin type. -/
def LongestBuiltin (words rest : List Token) : Prop :=
  ∀ more others, more ≠ [] → rest = more ++ others → ¬ SpellsBuiltin (words ++ more)

/-- The place where a row of tokens begins. -/
def rowPlace (row : List Token) : Place :=
  (row.head?.map (·.place)).getD .start

/-- A mark that may stand behind an element, and the leaf that it is. -/
inductive MarkLeaf : Token → Phrase → Prop
  | const {t : Token} : t.text = "const" → MarkLeaf t (.leaf .const t)
  | pointer {t : Token} : t.text = "*" → MarkLeaf t (.leaf .pointer t)
  | reference {t : Token} : t.text = "&" → MarkLeaf t (.leaf .reference t)

/-- Whether a phrase is a path that is one plain type. -/
def Phrase.IsPlainType (p : Phrase) : Prop :=
  ∃ t, p.children = [t] ∧ t.rule = .type

/-- The tokens of the first row, up to where the second begins, are of a category and read as
these phrases. -/
inductive Derives (best : Bool) : Category → List Token → List Token → List Phrase → Prop
  | standard {root scope name : Token} {rest : List Token} :
    StandardAhead (root :: scope :: name :: rest) →
    Derives best .type (root :: scope :: name :: rest) rest
      [.branch .type root.place
        [⟨.word, root.text ++ scope.text ++ name.text, root.place, []⟩]]
  | builtin {words rest : List Token} :
    SpellsBuiltin words → (best → LongestBuiltin words rest) →
    Derives best .type (words ++ rest) rest
      [.branch .type (rowPlace words) (words.map (.leaf .word))]
  | plain {t : Token} {rest : List Token} :
    t.kind = .identifier → t.text ∉ builtinWords →
    (best → ¬ StandardAhead (t :: rest)) →
    Derives best .type (t :: rest) rest [.branch .type t.place [.leaf .word t]]
  | generic {input rest : List Token} {args : List Phrase} :
    Derives best (.list "<" ">") input rest args →
    Derives best .generic input rest [.branch .generic (rowPlace input) args]
  | segment {input rest : List Token} {head : List Phrase} :
    Derives best .type input rest head →
    Derives best .segment input rest head
  | segmentGeneric {input between rest : List Token} {head args : List Phrase} :
    Derives best .type input between head → Derives best .generic between rest args →
    Derives best .segment input rest (head ++ args)
  | last {input rest : List Token} {parts : List Phrase} :
    Derives best .segment input rest parts →
    Derives best .segments input rest parts
  | scope {input between rest : List Token} {mark : Token} {parts others : List Phrase} :
    Derives best .segment input (mark :: between) parts → mark.text = "::" →
    Derives best .segments between rest others →
    Derives best .segments input rest (parts ++ others)
  | path {input rest : List Token} {parts : List Phrase} :
    Derives best .segments input rest parts →
    Derives best .path input rest [.branch .path (rowPlace input) parts]
  | elementType {input rest : List Token} {type : Phrase} :
    Derives best .type input rest [type] →
    Derives best .element input rest [.branch .element (rowPlace input) [type]]
  | elementPath {input rest : List Token} {path : Phrase} :
    Derives best .path input rest [path] → (best → ¬ path.IsPlainType) →
    Derives best .element input rest [.branch .element (rowPlace input) [path]]
  | typedElement {input marks rest : List Token} {element : Phrase} {after : List Phrase} :
    Derives best .element input (marks ++ rest) [element] →
    List.Forall₂ MarkLeaf marks after →
    Derives best .typedElement input rest
      [.branch .typedElement (rowPlace input) (element :: after)]
  | single {input rest : List Token} {elements : List Phrase} :
    Derives best .typedElement input rest elements →
    Derives best .elements input rest elements
  | comma {input between rest : List Token} {mark : Token} {elements others : List Phrase} :
    Derives best .typedElement input (mark :: between) elements → mark.text = "," →
    Derives best .elements between rest others →
    Derives best .elements input rest (elements ++ others)
  | empty {opening closing : String} {first last : Token} {rest : List Token} :
    first.text = opening → last.text = closing →
    Derives best (.list opening closing) (first :: last :: rest) rest []
  | list {opening closing : String} {first last : Token} {between rest : List Token}
    {elements : List Phrase} :
    first.text = opening → Derives best .elements between (last :: rest) elements →
    last.text = closing →
    Derives best (.list opening closing) (first :: between) rest elements
  | function {input between rest : List Token} {name : Phrase} {args : List Phrase} :
    Derives best .path input between [name] → Derives best (.list "(" ")") between rest args →
    Derives best .function input rest [.branch .function (rowPlace input) (name :: args)]
  | constFunction {input between rest : List Token} {mark : Token} {name : Phrase}
    {args : List Phrase} :
    Derives best .path input between [name] →
    Derives best (.list "(" ")") between (mark :: rest) args → mark.text = "const" →
    Derives best .function input rest
      [.branch .function (rowPlace input) (name :: args ++ [.leaf .const mark])]

namespace Derives

/-- What is derived is the beginning of the row. -/
theorem suffix {best : Bool} {cat : Category} {input rest : List Token} {ps : List Phrase}
    (h : Derives best cat input rest ps) : rest <:+ input := by
  induction h with
  | standard => exact ⟨[_, _, _], rfl⟩
  | @builtin words rest => exact List.suffix_append words rest
  | plain => exact List.suffix_cons _ _
  | generic _ ih | segment _ ih | last _ ih | path _ ih | elementType _ ih | elementPath _ _ ih
  | single _ ih => exact ih
  | segmentGeneric _ _ ih₁ ih₂ | function _ _ ih₁ ih₂ => exact ih₂.trans ih₁
  | scope _ _ _ ih₁ ih₂ | comma _ _ _ ih₁ ih₂ => exact ih₂.trans ((List.suffix_cons _ _).trans ih₁)
  | typedElement _ _ ih => exact (List.suffix_append _ _).trans ih
  | empty => exact ⟨[_, _], rfl⟩
  | list _ _ _ ih => exact (List.suffix_cons _ _).trans (ih.trans (List.suffix_cons _ _))
  | constFunction _ _ _ ih₁ ih₂ => exact (List.suffix_cons _ _).trans (ih₂.trans ih₁)

/-- The best derivations are derivations. -/
theorem any {cat : Category} {input rest : List Token} {ps : List Phrase}
    (h : Derives true cat input rest ps) : Derives false cat input rest ps := by
  induction h with
  | standard h => exact .standard h
  | builtin hw _ => exact .builtin hw (fun h => nomatch h)
  | plain hk ht _ => exact .plain hk ht (fun h => nomatch h)
  | generic _ ih => exact .generic ih
  | segment _ ih => exact .segment ih
  | segmentGeneric _ _ ih₁ ih₂ => exact .segmentGeneric ih₁ ih₂
  | last _ ih => exact .last ih
  | scope _ hm _ ih₁ ih₂ => exact .scope ih₁ hm ih₂
  | path _ ih => exact .path ih
  | elementType _ ih => exact .elementType ih
  | elementPath _ _ ih => exact .elementPath ih (fun h => nomatch h)
  | typedElement _ hm ih => exact .typedElement ih hm
  | single _ ih => exact .single ih
  | comma _ hm _ ih₁ ih₂ => exact .comma ih₁ hm ih₂
  | empty ho hc => exact .empty ho hc
  | list ho _ hc ih => exact .list ho ih hc
  | function _ _ ih₁ ih₂ => exact .function ih₁ ih₂
  | constFunction _ _ hm ih₁ ih₂ => exact .constFunction ih₁ ih₂ hm

/-! ## Shapes of what is derived -/

variable {best : Bool} {cat : Category} {input rest : List Token} {ps : List Phrase}

/-- A derivation takes a token at least. -/
theorem length_lt (h : Derives best cat input rest ps) : rest.length < input.length := by
  induction h with
  | standard => simp only [List.length_cons]; omega
  | builtin h =>
    have := List.length_pos_iff.2 h.ne_nil
    simp only [List.length_append]
    omega
  | plain => simp
  | generic _ ih | segment _ ih | last _ ih | path _ ih | elementType _ ih | elementPath _ _ ih
  | single _ ih => exact ih
  | segmentGeneric _ _ ih₁ ih₂ | function _ _ ih₁ ih₂ => exact Nat.lt_trans ih₂ ih₁
  | scope _ _ _ ih₁ ih₂ | comma _ _ _ ih₁ ih₂ | constFunction _ _ _ ih₁ ih₂ =>
    simp only [List.length_cons] at ih₁ ih₂
    omega
  | typedElement _ _ ih =>
    simp only [List.length_append] at ih
    omega
  | empty => simp only [List.length_cons]; omega
  | list _ _ _ ih =>
    simp only [List.length_cons] at ih ⊢
    omega

theorem input_ne_nil (h : Derives best cat input rest ps) : input ≠ [] := by
  rintro rfl
  exact absurd h.length_lt (Nat.not_lt_zero _)

theorem taken_ne_nil {taken : List Token} (h : Derives best cat (taken ++ rest) rest ps) :
    taken ≠ [] := by
  rintro rfl
  exact absurd h.length_lt (Nat.lt_irrefl _)

theorem eq_singleton_of_type (h : Derives best .type input rest ps) :
    ∃ place words, ps = [.branch .type place words] := by
  cases h <;> exact ⟨_, _, rfl⟩

theorem ne_nil_of_segment (h : Derives best .segment input rest ps) : ps ≠ [] := by
  cases h with
  | segment h | segmentGeneric h _ =>
    obtain ⟨place, words, rfl⟩ := h.eq_singleton_of_type
    simp

theorem ne_nil_of_segments (h : Derives best .segments input rest ps) : ps ≠ [] := by
  cases h with
  | last h => exact h.ne_nil_of_segment
  | scope h _ _ => simp [h.ne_nil_of_segment]

/-- Only a plain type makes a path with a single part. -/
theorem type_of_segments_singleton {t : Phrase} (h : Derives best .segments input rest [t]) :
    Derives best .type input rest [t] := by
  generalize hps : [t] = ps at h
  cases h with
  | last h =>
    cases h with
    | segment h => exact hps ▸ h
    | segmentGeneric h h' =>
      obtain ⟨place, words, rfl⟩ := h.eq_singleton_of_type
      cases h' with
      | generic => simp at hps
  | scope h _ h' =>
    have hlen := congrArg List.length hps
    have := List.length_pos_iff.2 h.ne_nil_of_segment
    have := List.length_pos_iff.2 h'.ne_nil_of_segments
    simp only [List.length_append, List.length_singleton] at hlen
    omega

theorem exists_segments_of_path {p : Phrase} (h : Derives best .path input rest [p]) :
    ∃ parts, p = .branch .path (rowPlace input) parts ∧
      Derives best .segments input rest parts := by
  cases h with
  | path h => exact ⟨_, rfl, h⟩

/-- All categories but lists begin with an identifier. -/
theorem exists_identifier (h : Derives best cat input rest ps) (hc : cat.BeginsWithName) :
    ∃ t m, input = t :: m ∧ t.kind = .identifier := by
  induction h with
  | standard hs =>
    cases hs with
    | mk hk => exact ⟨_, _, rfl, hk⟩
  | @builtin words _ hw =>
    obtain ⟨t, ts, rfl⟩ := List.exists_cons_of_ne_nil hw.ne_nil
    exact ⟨t, _, rfl, (Token.isBuiltinWord_iff.1 (hw.isBuiltinWord t List.mem_cons_self)).1⟩
  | plain hk => exact ⟨_, _, rfl, hk⟩
  | generic | empty | list => exact hc.elim
  | segment _ ih | last _ ih | path _ ih | elementType _ ih | elementPath _ _ ih | single _ ih
  | typedElement _ _ ih | segmentGeneric _ _ ih _ | scope _ _ _ ih _ | comma _ _ _ ih _
  | function _ _ ih _ | constFunction _ _ _ ih _ => exact ih trivial

end Derives
end LinkerNames

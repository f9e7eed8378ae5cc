import LinkerNames.Proofs.Encoding.References
import LinkerNames.Proofs.Symbol.Parts
/-!
# Symbols with other type names

Type names can be replaced throughout a symbol. Its elements stand where they stood, and what is
written for it is the same but for references back, if each name keeps what is written for it. Which
elements repeat an earlier one may change, when two different names become the same.
-/

namespace LinkerNames
namespace Symbol

variable {r : String → String}

theorem renameAll_eq_map (r : String → String) (ss : List Symbol) :
    renameAll r ss = ss.map (rename r) := by
  induction ss with
  | nil => rfl
  | cons s ss ih => rw [renameAll, ih, List.map_cons]

/-! ## One renaming after the other -/

mutual
theorem rename_rename (r q : String → String) :
    (s : Symbol) → (s.rename r).rename q = s.rename (q ∘ r)
  | .path elements => by simp only [rename, renameAll_renameAll r q elements]
  | .function callee args => by
    simp only [rename, rename_rename r q callee, renameAll_renameAll r q args]
  | .constructor args => by simp only [rename, renameAll_renameAll r q args]
  | .generic args => by simp only [rename, renameAll_renameAll r q args]
  | .type _ | .operator _ | .stray _ => rfl
  | .typed inner _ => by simp only [rename, rename_rename r q inner]

theorem renameAll_renameAll (r q : String → String) :
    (ss : List Symbol) → renameAll q (renameAll r ss) = renameAll (q ∘ r) ss
  | [] => rfl
  | s :: ss => by simp only [renameAll, rename_rename r q s, renameAll_renameAll r q ss]
end

/-- A symbol is the same up to spelling if its names keep what is written for them. -/
theorem coded_rename (hr : ∀ name, encodeType (r name) = encodeType name) (s : Symbol) :
    (s.rename r).coded = s.coded := by
  unfold coded
  rw [rename_rename]
  exact congrArg (rename · s) (funext hr)

/-! ## Occurrences -/

mutual
/-- The elements of a renamed symbol are the elements of the symbol, renamed. -/
theorem occurrences_rename (r : String → String) :
    (s : Symbol) → (s.rename r).occurrences = s.occurrences.map (rename r)
  | .path elements => by simp only [rename, occurrences, elementOccurrences_renameAll r elements]
  | .function callee args => by
    simp only [rename, occurrences, occurrences_rename r callee, allOccurrences_renameAll r args,
      List.map_append]
  | .constructor args => by simp only [rename, occurrences, allOccurrences_renameAll r args]
  | .generic args => by simp only [rename, occurrences, allOccurrences_renameAll r args]
  | .type _ | .operator _ | .stray _ => rfl
  | .typed inner _ => by simp only [rename, occurrences, occurrences_rename r inner]

theorem allOccurrences_renameAll (r : String → String) : (ss : List Symbol) →
    allOccurrences (renameAll r ss) = (allOccurrences ss).map (rename r)
  | [] => rfl
  | s :: ss => by
    simp only [renameAll, allOccurrences, occurrences_rename r s, allOccurrences_renameAll r ss,
      List.map_append]

theorem elementOccurrences_renameAll (r : String → String) : (ss : List Symbol) →
    elementOccurrences (renameAll r ss) = (elementOccurrences ss).map (rename r)
  | [] => rfl
  | s :: ss => by
    simp only [renameAll, elementOccurrences, occurrences_rename r s,
      elementOccurrences_renameAll r ss, List.map_append, List.map_cons]
end

/-- A renamed symbol has as many elements. -/
@[simp]
theorem length_occurrences_rename (r : String → String) (s : Symbol) :
    (s.rename r).occurrences.length = s.occurrences.length := by
  rw [occurrences_rename, List.length_map]

/-! ## Sketches -/

theorem sketchAll_renameAll {leave : Nat → Bool} {ss : List Symbol}
    (ih : ∀ s ∈ ss, ∀ n, (s.rename r).sketch leave n = s.sketch leave n) (n : Nat) :
    sketchAll leave n (renameAll r ss) = sketchAll leave n ss := by
  induction ss generalizing n with
  | nil => rfl
  | cons s ss ihs =>
    rw [renameAll, sketchAll, sketchAll, ih s List.mem_cons_self, length_occurrences_rename,
      ihs fun t ht => ih t (List.mem_cons_of_mem s ht)]

theorem sketchElements_renameAll {leave : Nat → Bool} {ss : List Symbol}
    (ih : ∀ s ∈ ss, ∀ n, (s.rename r).sketch leave n = s.sketch leave n) (n : Nat) :
    sketchElements leave n (renameAll r ss) = sketchElements leave n ss := by
  induction ss generalizing n with
  | nil => rfl
  | cons s ss ihs =>
    rw [renameAll, sketchElements, sketchElements, ih s List.mem_cons_self,
      length_occurrences_rename, ihs fun t ht => ih t (List.mem_cons_of_mem s ht)]

/-- With references in the same places the same is written for a signature with other names, if each
name keeps what is written for it. -/
theorem Fits.sketch_rename {role : Role} {s : Symbol} (h : Fits role s)
    (hr : ∀ name, encodeType (r name) = encodeType name) (leave : Nat → Bool) (n : Nat) :
    (s.rename r).sketch leave n = s.sketch leave n := by
  induction h generalizing n with
  | type => exact congrArg Sketch.code (hr _)
  | elementType _ ih | innerType _ ih | innerPath _ ih => exact ih n
  | generic _ ih => exact congrArg Sketch.generic (sketchAll_renameAll ih n)
  | path _ _ ih => exact congrArg Sketch.path (sketchElements_renameAll ih n)
  | argument _ ih => exact congrArg (Sketch.typed · _) (ih n)
  | function _ _ ih ih' =>
    rw [rename, Symbol.sketch, Symbol.sketch, ih, length_occurrences_rename,
      sketchAll_renameAll ih']
  | constFunction _ _ ih ih' =>
    rw [rename, rename, Symbol.sketch, Symbol.sketch, Symbol.sketch, Symbol.sketch, ih,
      length_occurrences_rename, sketchAll_renameAll ih']

end Symbol
end LinkerNames

import LinkerNames.Proofs.Encoding.Substitution
import LinkerNames.Proofs.Symbol.Parts
/-!
# Symbols without encoding

Whether a symbol has an encoding is decided by what stands in it and by what is said to be `const`,
and by nothing that was encoded before: an element that is written as a reference back hides nothing
that is to be refused. The reason given is that of the first part without encoding, a symbol before
what stands in it.

The walk hands what is said of a function on to its callee; the parts do not. That makes no
difference: a callee of which something is said is a path, or else its function is refused first.
-/

namespace LinkerNames

/-- Why a part of a symbol has no encoding, whatever stands in it. -/
def Part.offence? : Part → Option EncodeError
  | ⟨.constructor args, _⟩ => some (.unsupported (.constructor args))
  | ⟨.operator name, _⟩ => some (.unsupported (.operator name))
  | ⟨.stray text, _⟩ => some (.notSymbol (.stray text))
  | ⟨.function callee _, isConst⟩ =>
    if isConst && !callee.isPath then some (.constWithoutPath callee) else none
  | _ => none

/-- What a symbol is refused for. -/
inductive Symbol.IsRefused (isConst : Bool) (s : Symbol) : Prop
  | constructor {args : List Symbol} : Within (.constructor args) s → IsRefused isConst s
  | operator {name : String} : Within (.operator name) s → IsRefused isConst s
  | stray {text : Option String} : Within (.stray text) s → IsRefused isConst s
  | constFunction {callee : Symbol} {args : List Symbol} : callee.isPath = false →
    SaysConst isConst s (.function callee args) → IsRefused isConst s

/-- Why encoding failed, if it did. -/
def failure? (run : EStateM.Result EncodeError Table (List Char)) : Option EncodeError :=
  match run with
  | .ok _ _ => none
  | .error why _ => some why

namespace Symbol

/-! ## The first offence of a walk -/

theorem firstOffence?_allEvents_eq {ss : List Symbol}
    (ih : ∀ s ∈ ss,
      Event.firstOffence? (s.events false) = (s.parts false).findSome? Part.offence?) :
    Event.firstOffence? (allEvents ss) = (allParts ss).findSome? Part.offence? := by
  induction ss with
  | nil => rfl
  | cons s ss ihs =>
    rw [allEvents, allParts, Event.firstOffence?_append, List.findSome?_append,
      ih s List.mem_cons_self, ihs fun t ht => ih t (List.mem_cons_of_mem s ht)]

theorem firstOffence?_elementEvents_eq {ss : List Symbol}
    (ih : ∀ s ∈ ss,
      Event.firstOffence? (s.events false) = (s.parts false).findSome? Part.offence?) :
    Event.firstOffence? (elementEvents ss) = (allParts ss).findSome? Part.offence? := by
  induction ss with
  | nil => rfl
  | cons s ss ihs =>
    rw [elementEvents, allParts, Event.firstOffence?_append, List.findSome?_append,
      ih s List.mem_cons_self, Event.firstOffence?,
      ihs fun t ht => ih t (List.mem_cons_of_mem s ht)]

/-- A path is walked through in the same way whatever is said of it. -/
theorem events_of_isPath {s : Symbol} (h : s.isPath = true) (pending : Bool) :
    s.events pending = s.events false := by
  cases s with
  | path => rfl
  | function | constructor | generic | type | operator | typed | stray => cases h

/-- The first offence of a walk is that of the first part that has one. -/
theorem firstOffence?_events_eq (pending : Bool) (s : Symbol) :
    Event.firstOffence? (s.events pending) = (s.parts pending).findSome? Part.offence? := by
  induction s using Symbol.induct generalizing pending with
  | path elements ih => exact firstOffence?_elementEvents_eq fun e he => ih e he false
  | function callee args ih ih' =>
    rw [events, parts, List.findSome?_cons, Part.offence?]
    by_cases h : (pending && !callee.isPath) = true
    · rw [if_pos h, if_pos h]
      rfl
    · have hcallee : callee.events pending = callee.events false := by
        cases pending with
        | false => rfl
        | true => exact events_of_isPath (by simpa using h) true
      rw [if_neg h, if_neg h, List.nil_append, hcallee, Event.firstOffence?_append, ih false,
        firstOffence?_allEvents_eq fun a ha => ih' a ha false, List.findSome?_append]
  | constructor | operator | stray => rfl
  | generic args ih => exact firstOffence?_allEvents_eq fun a ha => ih a ha false
  | type => rfl
  | typed inner qualifiers ih =>
    rw [events, parts, List.findSome?_cons, Part.offence?]
    split
    next h => rw [h, Bool.or_true, ih true]
    next h => rw [Bool.eq_false_iff.2 h, Bool.or_false, ih pending]
    all_goals simp

/-! ## Parts without encoding -/

/-- A symbol is refused if one of its parts is. -/
theorem isRefused_iff {isConst : Bool} {s : Symbol} :
    s.IsRefused isConst ↔ ∃ p ∈ s.parts isConst, p.offence? ≠ none := by
  constructor
  · rintro (h | h | h | ⟨hpath, hsaid⟩)
    · obtain ⟨b, hb⟩ := exists_mem_parts_iff.2 h
      exact ⟨_, hb, nofun⟩
    · obtain ⟨b, hb⟩ := exists_mem_parts_iff.2 h
      exact ⟨_, hb, nofun⟩
    · obtain ⟨b, hb⟩ := exists_mem_parts_iff.2 h
      exact ⟨_, hb, nofun⟩
    · refine ⟨_, (mem_parts_const_iff rfl).2 hsaid, ?_⟩
      simp [Part.offence?, hpath]
  · rintro ⟨⟨t, b⟩, hmem, hoffence⟩
    have hwithin : Within t s := exists_mem_parts_iff.1 ⟨b, hmem⟩
    cases t with
    | constructor => exact .constructor hwithin
    | operator => exact .operator hwithin
    | stray => exact .stray hwithin
    | function callee args =>
      obtain ⟨rfl, hpath⟩ : b = true ∧ callee.isPath = false := by
        simpa [Part.offence?] using hoffence
      exact .constFunction hpath ((mem_parts_const_iff rfl).1 hmem)
    | path | generic | type | typed => exact absurd rfl hoffence

end Symbol

/-! ## Main theorem -/

/-- After any calls, encoding fails if and only if the symbol is refused, and for the reason of the
first of its parts that has one; so it fails, or not, as it would without any call before. -/
theorem encode_failure_afterCalls (calls : List (Bool × Symbol)) (pending : Bool) (s : Symbol) :
    (failure? (encode pending s (Table.afterCalls calls)) ≠ none ↔ s.IsRefused pending) ∧
      failure? (encode pending s (Table.afterCalls calls)) =
        (s.parts pending).findSome? Part.offence? ∧
      failure? (encode pending s (Table.afterCalls calls)) = failure? (encode pending s []) := by
  have hfailure {t : Table} (ht : t.Settled) :
      failure? (encode pending s t) = (s.parts pending).findSome? Part.offence? := by
    rw [encode_of_settled ht, outcome, ← Symbol.firstOffence?_events_eq]
    cases Event.firstOffence? (s.events pending) <;> rfl
  have hcalls := hfailure (Table.settled_afterCalls calls)
  refine ⟨?_, hcalls, hcalls.trans (hfailure Table.settled_nil).symm⟩
  rw [hcalls, Symbol.isRefused_iff, Ne, List.findSome?_eq_none_iff]
  simp

end LinkerNames

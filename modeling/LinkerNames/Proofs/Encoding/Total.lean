import LinkerNames.Encoding.LinkerName
import LinkerNames.Proofs.Encoding.Substitution
import LinkerNames.Proofs.Signature.Refusal
import LinkerNames.Proofs.Symbol.Folding
/-!
# Every signature has a linker name

A walk through a symbol that is fit to be a function comes by nothing without an encoding. So a text
has a linker name if it is accepted, and nothing goes wrong on the way but that it is rejected.
-/

namespace LinkerNames
namespace Symbol

theorem firstOffence?_allEvents {ss : List Symbol}
    (h : ∀ s ∈ ss, Event.firstOffence? (s.events false) = none) :
    Event.firstOffence? (allEvents ss) = none := by
  induction ss with
  | nil => rfl
  | cons s ss ih =>
    rw [allEvents, Event.firstOffence?_append, h s List.mem_cons_self, Option.none_or]
    exact ih fun t ht => h t (List.mem_cons_of_mem s ht)

theorem firstOffence?_elementEvents {ss : List Symbol}
    (h : ∀ s ∈ ss, Event.firstOffence? (s.events false) = none) :
    Event.firstOffence? (elementEvents ss) = none := by
  induction ss with
  | nil => rfl
  | cons s ss ih =>
    rw [elementEvents, Event.firstOffence?_append, h s List.mem_cons_self, Option.none_or]
    exact ih fun t ht => h t (List.mem_cons_of_mem s ht)

theorem Fits.isFunction_eq_false {s : Symbol} (h : Fits .inner s) : s.isFunction = false := by
  cases h with
  | innerType h | innerPath h => cases h; rfl

theorem Fits.isPath {s : Symbol} (h : Fits .path s) : s.isPath = true := by
  cases h
  rfl

/-- What a signature means has an encoding. -/
theorem Fits.firstOffence?_events {role : Role} {s : Symbol} (h : Fits role s) (pending : Bool) :
    Event.firstOffence? (s.events pending) = none := by
  have hfunction {pending : Bool} {name : Symbol} {args : List Symbol} (hname : Fits .path name)
      (h : Event.firstOffence? (name.events pending) = none)
      (hargs : ∀ a ∈ args, Event.firstOffence? (a.events false) = none) :
      Event.firstOffence? ((Symbol.function name args).events pending) = none := by
    rw [events, hname.isPath, Bool.not_true, Bool.and_false, if_neg (by simp), List.nil_append,
      Event.firstOffence?_append, h, firstOffence?_allEvents hargs]
    rfl
  induction h generalizing pending with
  | type => rfl
  | elementType _ ih | innerType _ ih | innerPath _ ih => exact ih pending
  | generic _ ih => exact firstOffence?_allEvents fun a ha => ih a ha false
  | path _ _ ih => exact firstOffence?_elementEvents fun e he => ih e he false
  | argument hs ih =>
    rw [events, hs.isFunction_eq_false, Bool.false_and, if_neg (by simp)]
    exact ih pending
  | function hname _ ih ih' => exact hfunction hname (ih pending) fun a ha => ih' a ha false
  | constFunction hname _ ih ih' =>
    exact hfunction hname (ih true) fun a ha => ih' a ha false

/-- The linker name of what a signature means shows its sketch. -/
theorem Fits.linkerName_eq {s : Symbol} (h : Fits .function s) :
    s.linkerName = .ok (.ofList (linkerMark ++ (s.marked []).print false)) :=
  linkerName_of_none (h.firstOffence?_events false)

end Symbol

/-- What is accepted means a symbol that is fit to be a function. -/
theorem exists_symbol_of_parse {text : String} {p : Phrase} (h : parse text = .ok p) :
    ∃ s, Symbol.ofPhrase p = .ok s ∧ Symbol.Fits .function s := by
  obtain ⟨row, last, htokens, hlast, hrow⟩ := tokens_eq_append_finish text
  have hd := derives_of_parse htokens hlast hrow h
  obtain ⟨ss, hss, hfits⟩ := hd.exists_symbols (htokens ▸ named_tokens text)
  obtain ⟨s, rfl, hs⟩ := Symbol.exists_of_ofPhrases_singleton hss
  exact ⟨s, hs, hfits s (by simp)⟩

theorem Symbol.ofText_eq_ok_iff {text : String} {s : Symbol} :
    ofText text = .ok s ↔ ∃ p, parse text = .ok p ∧ ofPhrase p = .ok s := by
  rw [ofText, Except.bind_eq_ok_iff]
  simp only [Except.mapError_eq_ok_iff]

/-- A text has the linker name of the symbol that it means. -/
theorem linkerName_eq_ok_iff {text name : String} :
    linkerName text = .ok name ↔ ∃ s, Symbol.ofText text = .ok s ∧ s.linkerName = .ok name := by
  rw [linkerName, Except.bind_eq_ok_iff]
  simp only [Except.mapError_eq_ok_iff]

/-- The linker name of an accepted text shows the sketch of what the text means. -/
theorem linkerName_of_ofText {text : String} {s : Symbol} (h : Symbol.ofText text = .ok s) :
    Symbol.Fits .function s ∧
      linkerName text = .ok (.ofList (linkerMark ++ (s.marked []).print false)) := by
  obtain ⟨p, hp, hs⟩ := Symbol.ofText_eq_ok_iff.1 h
  obtain ⟨s', hs', hfits⟩ := exists_symbol_of_parse hp
  obtain rfl : s' = s := Except.ok.inj (hs'.symm.trans hs)
  refine ⟨hfits, ?_⟩
  rw [linkerName, h]
  exact congrArg (Except.mapError Failure.encode) hfits.linkerName_eq

/-! ## Main theorem -/

/-- On its way to a linker name a text fails in no other way than that it is rejected as a
signature: no scanner is sent where it has nothing to take, the tokens end with the end of the
input, and an accepted text has a meaning, which has an encoding. -/
theorem linkerName_total (text : String) :
    (∀ c cs, Lexeme.first? (c :: cs) = some (Lexeme.first c cs)) ∧
      (tokens text).getLast?.map Token.toLexeme = some .finish ∧
      ((∃ p s name, parse text = .ok p ∧ Symbol.ofPhrase p = .ok s ∧ s.linkerName = .ok name ∧
          linkerName text = .ok name) ∨
        ∃ why, parse text = .error (.rejected why) ∧
          linkerName text = .error (.signature (.parse (.rejected why)))) := by
  refine ⟨Lexeme.first?_cons, ?_, ?_⟩
  · obtain ⟨row, last, htokens, hlast, -⟩ := tokens_eq_append_finish text
    simp [htokens, hlast]
  cases h : parse text with
  | ok p =>
    obtain ⟨s, hs, hfits⟩ := exists_symbol_of_parse h
    obtain ⟨-, hname⟩ := linkerName_of_ofText (Symbol.ofText_eq_ok_iff.2 ⟨p, h, hs⟩)
    exact .inl ⟨p, s, _, rfl, hs, hfits.linkerName_eq, hname⟩
  | error e =>
    obtain ⟨why, rfl⟩ := exists_rejection h
    refine .inr ⟨why, rfl, ?_⟩
    rw [linkerName, Symbol.ofText, h]
    rfl

end LinkerNames

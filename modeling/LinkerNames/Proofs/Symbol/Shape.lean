import LinkerNames.Proofs.Signature.Pieces
import LinkerNames.Proofs.Symbol.Folding
/-!
# Phrases with a meaning

Any tree of phrases can be asked for its meaning, also one that no text is read as.
`Phrase.WellShaped` says which trees have one. What the others fail for is the first thing amiss as
the tree is gone through from the left, each phrase before its parts: `Phrase.FailsFor` says of a
phrase that something is amiss in it and that everything before is in order.

Not everything is gone through. The words of a type are taken as they are, and what stands behind
the first part of an element is ignored, whatever it is.
-/

namespace LinkerNames
namespace Phrase

/-- Each rule has the parts that it needs, and each part is well shaped itself where it should mean
something, and a mark where it should be one. -/
inductive WellShaped : Phrase → Prop
  | path {text : String} {place : Place} {parts : List Phrase} : parts ≠ [] →
    (∀ p ∈ parts, WellShaped p) → WellShaped ⟨.path, text, place, parts⟩
  | function {text : String} {place : Place} {name : Phrase} {args : List Phrase} :
    WellShaped name → (∀ a ∈ args, WellShaped a) →
    WellShaped ⟨.function, text, place, name :: args⟩
  | constFunction {text : String} {place : Place} {name last : Phrase} {args : List Phrase} :
    WellShaped name → (∀ a ∈ args, WellShaped a) → last.rule = .const →
    WellShaped ⟨.function, text, place, name :: (args ++ [last])⟩
  | generic {text : String} {place : Place} {args : List Phrase} : (∀ a ∈ args, WellShaped a) →
    WellShaped ⟨.generic, text, place, args⟩
  | type {text : String} {place : Place} {words : List Phrase} :
    WellShaped ⟨.type, text, place, words⟩
  | element {text : String} {place : Place} {inner : Phrase} {others : List Phrase} :
    WellShaped inner → WellShaped ⟨.element, text, place, inner :: others⟩
  | typedElement {text : String} {place : Place} {inner : Phrase} {marks : List Phrase} :
    WellShaped inner → (∀ m ∈ marks, m.rule.IsMark) →
    WellShaped ⟨.typedElement, text, place, inner :: marks⟩

/-- The first thing amiss in a phrase. -/
inductive FailsFor : Phrase → FoldError → Prop
  | emptyPath {text : String} {place : Place} : FailsFor ⟨.path, text, place, []⟩ .emptyPath
  | noCallee {text : String} {place : Place} : FailsFor ⟨.function, text, place, []⟩ .noCallee
  | emptyElement {text : String} {place : Place} :
    FailsFor ⟨.element, text, place, []⟩ .emptyElement
  | emptyTypedElement {text : String} {place : Place} :
    FailsFor ⟨.typedElement, text, place, []⟩ .emptyTypedElement
  | meaningless {p : Phrase} : p.rule = .word ∨ p.rule.IsMark → FailsFor p (.meaningless p.rule)
  | path {text : String} {place : Place} {before after : List Phrase} {p : Phrase}
    {why : FoldError} : (∀ q ∈ before, WellShaped q) → FailsFor p why →
    FailsFor ⟨.path, text, place, before ++ p :: after⟩ why
  | name {text : String} {place : Place} {name : Phrase} {others : List Phrase} {why : FoldError} :
    FailsFor name why → FailsFor ⟨.function, text, place, name :: others⟩ why
  /-- A `const` is no argument, but behind all arguments it is in order. -/
  | argument {text : String} {place : Place} {name a : Phrase} {before after : List Phrase}
    {why : FoldError} : WellShaped name → (∀ q ∈ before, WellShaped q) → FailsFor a why →
    (a.rule = .const → after ≠ []) →
    FailsFor ⟨.function, text, place, name :: (before ++ a :: after)⟩ why
  | generic {text : String} {place : Place} {before after : List Phrase} {a : Phrase}
    {why : FoldError} : (∀ q ∈ before, WellShaped q) → FailsFor a why →
    FailsFor ⟨.generic, text, place, before ++ a :: after⟩ why
  | element {text : String} {place : Place} {inner : Phrase} {others : List Phrase}
    {why : FoldError} : FailsFor inner why →
    FailsFor ⟨.element, text, place, inner :: others⟩ why
  | inner {text : String} {place : Place} {inner : Phrase} {marks : List Phrase}
    {why : FoldError} : FailsFor inner why →
    FailsFor ⟨.typedElement, text, place, inner :: marks⟩ why
  | notMark {text : String} {place : Place} {inner m : Phrase} {before after : List Phrase} :
    WellShaped inner → (∀ q ∈ before, q.rule.IsMark) → ¬ m.rule.IsMark →
    FailsFor ⟨.typedElement, text, place, inner :: (before ++ m :: after)⟩ (.notMark m.rule)

mutual
/-- The phrase with nothing left of where it and its parts begin. -/
def unplaced : Phrase → Phrase
  | ⟨rule, text, _, parts⟩ => ⟨rule, text, .start, allUnplaced parts⟩

def allUnplaced : List Phrase → List Phrase
  | [] => []
  | p :: ps => unplaced p :: allUnplaced ps
end

/-- Induction over a phrase, with what holds of all its parts at once. -/
@[elab_as_elim]
theorem induct {motive : Phrase → Prop}
    (mk : ∀ rule text place parts, (∀ p ∈ parts, motive p) → motive ⟨rule, text, place, parts⟩)
    (p : Phrase) : motive p :=
  @Phrase.rec motive (fun ps => ∀ p ∈ ps, motive p) mk (fun _ h => nomatch h)
    (fun _ _ hp hps _ hq => (List.mem_cons.1 hq).elim (fun heq => heq ▸ hp) (hps _)) p

end Phrase

/-- A row in which not all members are in order has a first one that is not. -/
theorem exists_first_not {α : Type} {P : α → Prop} {row : List α} (h : ¬ ∀ x ∈ row, P x) :
    ∃ before x after, row = before ++ x :: after ∧ (∀ y ∈ before, P y) ∧ ¬ P x := by
  induction row with
  | nil => exact absurd nofun h
  | cons x row ih =>
    by_cases hx : P x
    · obtain ⟨before, y, after, rfl, hbefore, hy⟩ :=
        ih fun hrow => h (List.forall_mem_cons.2 ⟨hx, hrow⟩)
      exact ⟨x :: before, y, after, rfl, List.forall_mem_cons.2 ⟨hx, hbefore⟩, hy⟩
    · exact ⟨[], x, row, rfl, nofun, hx⟩

namespace Symbol

/-- What a phrase with parts means does not depend on its text. -/
theorem ofPhrase_eq_branch (rule : Rule) (text : String) (place : Place) (parts : List Phrase) :
    ofPhrase ⟨rule, text, place, parts⟩ = ofPhrase (.branch rule place parts) := by
  cases rule <;> cases parts <;> rfl

/-! ## Well shaped phrases have a meaning -/

theorem exists_ofPhrases {ps : List Phrase} (h : ∀ p ∈ ps, ∃ s, ofPhrase p = .ok s) :
    ∃ ss, ofPhrases ps = .ok ss := by
  induction ps with
  | nil => exact ⟨[], rfl⟩
  | cons p ps ih =>
    obtain ⟨⟨s, hs⟩, hps⟩ := List.forall_mem_cons.1 h
    obtain ⟨ss, hss⟩ := ih hps
    exact ⟨s :: ss, ofPhrases_cons_of_ok hs hss⟩

end Symbol

/-- What is well shaped has a meaning. -/
theorem Phrase.WellShaped.exists_symbol {p : Phrase} (h : p.WellShaped) :
    ∃ s, Symbol.ofPhrase p = .ok s := by
  induction h with
  | path hne _ ih =>
    obtain ⟨ss, hss⟩ := Symbol.exists_ofPhrases ih
    exact ⟨_, (Symbol.ofPhrase_eq_branch _ _ _ _).trans
      (Symbol.ofPhrase_path _ hss (Symbol.ne_nil_of_ofPhrases hss hne))⟩
  | function _ _ ih ih' =>
    obtain ⟨callee, hcallee⟩ := ih
    obtain ⟨args, hargs⟩ := Symbol.exists_ofPhrases ih'
    exact ⟨_, (Symbol.ofPhrase_eq_branch _ _ _ _).trans
      (Symbol.ofPhrase_function _ hcallee (Symbol.ofArguments_of_ok hargs).1)⟩
  | constFunction _ _ hlast ih ih' =>
    obtain ⟨callee, hcallee⟩ := ih
    obtain ⟨args, hargs⟩ := Symbol.exists_ofPhrases ih'
    exact ⟨_, (Symbol.ofPhrase_eq_branch _ _ _ _).trans
      (Symbol.ofPhrase_function _ hcallee ((Symbol.ofArguments_of_ok hargs).2 _ hlast))⟩
  | generic _ ih =>
    obtain ⟨args, hargs⟩ := Symbol.exists_ofPhrases ih
    exact ⟨_, (Symbol.ofPhrase_eq_branch _ _ _ _).trans (Symbol.ofPhrase_generic _ hargs)⟩
  | type => exact ⟨_, (Symbol.ofPhrase_eq_branch _ _ _ _).trans (Symbol.ofPhrase_type _ _)⟩
  | element _ ih => exact ih
  | typedElement _ hmarks ih =>
    obtain ⟨s, hs⟩ := ih
    obtain ⟨qualifiers, hqualifiers⟩ := Symbol.exists_qualifiers hmarks
    exact ⟨_, (Symbol.ofPhrase_eq_branch _ _ _ _).trans (Symbol.ofPhrase_typedElement _ hs hqualifiers)⟩

namespace Symbol

/-! ## What other phrases fail for -/

variable {p : Phrase} {before : List Phrase} {why : FoldError}

/-- Some phrases fail for what the first of them fails for that has no meaning. -/
theorem ofPhrases_error (hbefore : ∀ q ∈ before, q.WellShaped) (hp : ofPhrase p = .error why)
    (after : List Phrase) : ofPhrases (before ++ p :: after) = .error why := by
  induction before with
  | nil =>
    rw [List.nil_append, ofPhrases, hp]
    rfl
  | cons q before ih =>
    obtain ⟨hq, hbefore⟩ := List.forall_mem_cons.1 hbefore
    obtain ⟨s, hs⟩ := hq.exists_symbol
    rw [List.cons_append, ofPhrases, hs, ih hbefore]
    rfl

theorem ofArguments_error (hbefore : ∀ q ∈ before, q.WellShaped) (hp : ofPhrase p = .error why)
    {after : List Phrase} (hconst : p.rule = .const → after ≠ []) :
    ofArguments (before ++ p :: after) = .error why := by
  induction before with
  | nil =>
    rw [List.nil_append, ofArguments_cons hconst, hp]
    rfl
  | cons q before ih =>
    obtain ⟨hq, hbefore⟩ := List.forall_mem_cons.1 hbefore
    obtain ⟨s, hs⟩ := hq.exists_symbol
    rw [List.cons_append, ofArguments_cons fun _ => by simp, hs, ih hbefore]
    rfl

theorem ofMark_error {m : Phrase} (h : ¬ m.rule.IsMark) :
    Qualifier.ofMark m = .error (.notMark m.rule) := by
  unfold Qualifier.ofMark
  split
  next hrule => exact absurd (by simp [hrule, Rule.IsMark]) h
  next hrule => exact absurd (by simp [hrule, Rule.IsMark]) h
  next hrule => exact absurd (by simp [hrule, Rule.IsMark]) h
  next => rfl

theorem ofMarks_error {m : Phrase} (hbefore : ∀ q ∈ before, q.rule.IsMark) (h : ¬ m.rule.IsMark)
    (after : List Phrase) :
    (before ++ m :: after).mapM Qualifier.ofMark = .error (.notMark m.rule) := by
  obtain ⟨qualifiers, hqualifiers⟩ := exists_qualifiers hbefore
  rw [List.mapM_append, hqualifiers, List.mapM_cons, ofMark_error h]
  rfl

end Symbol

/-- Where something is amiss, that is what the phrase fails for. -/
theorem Phrase.FailsFor.ofPhrase_eq {p : Phrase} {why : FoldError} (h : p.FailsFor why) :
    Symbol.ofPhrase p = .error why := by
  induction h with
  | emptyPath | noCallee | emptyElement | emptyTypedElement => rfl
  | @meaningless p hrule =>
    obtain ⟨rule, text, place, parts⟩ := p
    obtain rfl | rfl | rfl | rfl : rule = .word ∨ rule = .const ∨ rule = .pointer ∨
        rule = .reference := by
      simpa [Rule.IsMark] using hrule
    all_goals rfl
  | path hbefore _ ih =>
    rw [Symbol.ofPhrase, Symbol.ofPhrases_error hbefore ih]
    rfl
  | name _ ih =>
    rw [Symbol.ofPhrase, ih]
    rfl
  | argument hname hbefore _ hconst ih =>
    obtain ⟨callee, hcallee⟩ := hname.exists_symbol
    rw [Symbol.ofPhrase, hcallee, Symbol.ofArguments_error hbefore ih hconst]
    rfl
  | generic hbefore _ ih =>
    rw [Symbol.ofPhrase, Symbol.ofPhrases_error hbefore ih]
    rfl
  | element _ ih => exact ih
  | inner _ ih =>
    rw [Symbol.ofPhrase, ih]
    rfl
  | notMark hinner hbefore hm =>
    obtain ⟨s, hs⟩ := hinner.exists_symbol
    rw [Symbol.ofPhrase, hs, Symbol.ofMarks_error hbefore hm]
    rfl

namespace Phrase

/-! ## Nothing lies between -/

/-- Of phrases that are well shaped or fail for something, not all being well shaped, a first one
fails. -/
theorem exists_first_fails {ps : List Phrase}
    (h : ∀ p ∈ ps, p.WellShaped ∨ ∃ why, p.FailsFor why) (hps : ¬ ∀ p ∈ ps, p.WellShaped) :
    ∃ before p after why, ps = before ++ p :: after ∧ (∀ q ∈ before, q.WellShaped) ∧
      p.FailsFor why := by
  obtain ⟨before, p, after, rfl, hbefore, hp⟩ := exists_first_not hps
  obtain ⟨why, hwhy⟩ := (h p (by simp)).resolve_left hp
  exact ⟨before, p, after, why, rfl, hbefore, hwhy⟩

/-- A `const` behind all arguments is in order, and where it fails a part comes after it. -/
theorem wellShaped_or_failsFor_function {text : String} {place : Place} {name : Phrase}
    {others : List Phrase} (hname : name.WellShaped)
    (h : ∀ p ∈ others, p.WellShaped ∨ ∃ why, p.FailsFor why) :
    WellShaped ⟨.function, text, place, name :: others⟩ ∨
      ∃ why, FailsFor ⟨.function, text, place, name :: others⟩ why := by
  obtain rfl | ⟨args, last, rfl⟩ := List.eq_nil_or_concat' others
  · exact .inl (.function hname nofun)
  by_cases hlast : last.rule = .const
  · by_cases hargs : ∀ a ∈ args, a.WellShaped
    · exact .inl (.constFunction hname hargs hlast)
    · obtain ⟨before, a, after, why, rfl, hbefore, ha⟩ :=
        exists_first_fails (fun p hp => h p (List.mem_append_left _ hp)) hargs
      refine .inr ⟨why, ?_⟩
      rw [List.append_assoc, List.cons_append]
      exact .argument hname hbefore ha fun _ => by simp
  · by_cases hothers : ∀ a ∈ args ++ [last], a.WellShaped
    · exact .inl (.function hname hothers)
    · obtain ⟨before, a, after, why, heq, hbefore, ha⟩ := exists_first_fails h hothers
      refine .inr ⟨why, ?_⟩
      rw [heq]
      refine .argument hname hbefore ha ?_
      -- A `const` in the last place would be the one that is no argument.
      rintro hrule rfl
      obtain ⟨-, hsame⟩ := List.append_inj' heq rfl
      obtain rfl : last = a := List.singleton_inj.1 hsame
      exact hlast hrule

theorem wellShaped_or_failsFor (p : Phrase) : p.WellShaped ∨ ∃ why, p.FailsFor why := by
  induction p using Phrase.induct with
  | mk rule text place parts ih =>
    cases rule with
    | word | const | pointer | reference =>
      exact .inr ⟨_, .meaningless (by simp [Rule.IsMark])⟩
    | type => exact .inl .type
    | path =>
      by_cases hparts : ∀ p ∈ parts, p.WellShaped
      · by_cases hne : parts = []
        · subst hne
          exact .inr ⟨_, .emptyPath⟩
        · exact .inl (.path hne hparts)
      · obtain ⟨before, p, after, why, rfl, hbefore, hp⟩ := exists_first_fails ih hparts
        exact .inr ⟨why, .path hbefore hp⟩
    | generic =>
      by_cases hparts : ∀ p ∈ parts, p.WellShaped
      · exact .inl (.generic hparts)
      · obtain ⟨before, p, after, why, rfl, hbefore, hp⟩ := exists_first_fails ih hparts
        exact .inr ⟨why, .generic hbefore hp⟩
    | element =>
      cases parts with
      | nil => exact .inr ⟨_, .emptyElement⟩
      | cons inner others =>
        obtain hinner | ⟨why, hinner⟩ := ih inner List.mem_cons_self
        · exact .inl (.element hinner)
        · exact .inr ⟨why, .element hinner⟩
    | typedElement =>
      cases parts with
      | nil => exact .inr ⟨_, .emptyTypedElement⟩
      | cons inner marks =>
        obtain hinner | ⟨why, hinner⟩ := ih inner List.mem_cons_self
        · by_cases hmarks : ∀ m ∈ marks, m.rule.IsMark
          · exact .inl (.typedElement hinner hmarks)
          · obtain ⟨before, m, after, rfl, hbefore, hm⟩ := exists_first_not hmarks
            exact .inr ⟨_, .notMark hinner hbefore hm⟩
        · exact .inr ⟨why, .inner hinner⟩
    | function =>
      cases parts with
      | nil => exact .inr ⟨_, .noCallee⟩
      | cons name others =>
        obtain ⟨hname, hothers⟩ := List.forall_mem_cons.1 ih
        obtain hname | ⟨why, hname⟩ := hname
        · exact wellShaped_or_failsFor_function hname hothers
        · exact .inr ⟨why, .name hname⟩

/-! ## Without places -/

@[simp]
theorem rule_unplaced (p : Phrase) : p.unplaced.rule = p.rule := by
  obtain ⟨rule, text, place, parts⟩ := p
  rfl

@[simp]
theorem text_unplaced (p : Phrase) : p.unplaced.text = p.text := by
  obtain ⟨rule, text, place, parts⟩ := p
  rfl

theorem allUnplaced_eq (ps : List Phrase) : allUnplaced ps = ps.map unplaced := by
  induction ps with
  | nil => rfl
  | cons p ps ih => rw [allUnplaced, ih, List.map_cons]

end Phrase

namespace Symbol

theorem ofPhrases_unplaced {ps : List Phrase} (h : ∀ p ∈ ps, ofPhrase p.unplaced = ofPhrase p) :
    ofPhrases (ps.map Phrase.unplaced) = ofPhrases ps := by
  induction ps with
  | nil => rfl
  | cons p ps ih =>
    obtain ⟨hp, hps⟩ := List.forall_mem_cons.1 h
    rw [List.map_cons, ofPhrases, ofPhrases, hp, ih hps]

theorem ofArguments_unplaced {ps : List Phrase}
    (h : ∀ p ∈ ps, ofPhrase p.unplaced = ofPhrase p) :
    ofArguments (ps.map Phrase.unplaced) = ofArguments ps := by
  induction ps with
  | nil => rfl
  | cons p ps ih =>
    obtain ⟨hp, hps⟩ := List.forall_mem_cons.1 h
    by_cases hconst : p.rule = .const → ps ≠ []
    · rw [List.map_cons, ofArguments_cons (by simpa using hconst), ofArguments_cons hconst, hp,
        ih hps]
    · obtain ⟨hrule, rfl⟩ : p.rule = .const ∧ ps = [] := by simpa using hconst
      obtain ⟨rule, text, place, parts⟩ := p
      obtain rfl : rule = .const := hrule
      rfl

theorem ofMark_unplaced (m : Phrase) : Qualifier.ofMark m.unplaced = Qualifier.ofMark m := by
  rw [Qualifier.ofMark, Qualifier.ofMark, m.rule_unplaced]

theorem ofPhrase_unplaced (p : Phrase) : ofPhrase p.unplaced = ofPhrase p := by
  induction p using Phrase.induct with
  | mk rule text place parts ih =>
    rw [Phrase.unplaced, Phrase.allUnplaced_eq]
    cases rule with
    | word | const | pointer | reference => rfl
    | type =>
      rw [ofPhrase, ofPhrase, List.map_map]
      congr 3
      simp
    | path | generic => rw [ofPhrase, ofPhrase, ofPhrases_unplaced ih]
    | element =>
      cases parts with
      | nil => rfl
      | cons inner others => exact ih inner List.mem_cons_self
    | typedElement =>
      cases parts with
      | nil => rfl
      | cons inner marks =>
        rw [List.map_cons, ofPhrase, ofPhrase, ih inner List.mem_cons_self, List.mapM_map]
        simp [Function.comp_def, ofMark_unplaced]
    | function =>
      cases parts with
      | nil => rfl
      | cons name others =>
        obtain ⟨hname, hothers⟩ := List.forall_mem_cons.1 ih
        rw [List.map_cons, ofPhrase, ofPhrase, hname, ofArguments_unplaced hothers]

/-! ## Main theorem -/

/-- A phrase has a meaning if and only if it is well shaped. If it has none, that is for the first
thing amiss in it, and for nothing else. Where it and its parts begin makes no difference. -/
theorem ofPhrase_outcome (p : Phrase) :
    ((∃ s, ofPhrase p = .ok s) ↔ p.WellShaped) ∧
      (∀ why, ofPhrase p = .error why ↔ p.FailsFor why) ∧
      ∀ q : Phrase, q.unplaced = p.unplaced → ofPhrase q = ofPhrase p := by
  refine ⟨⟨fun ⟨s, hs⟩ => ?_, Phrase.WellShaped.exists_symbol⟩,
    fun why => ⟨fun hwhy => ?_, Phrase.FailsFor.ofPhrase_eq⟩, fun q hq => ?_⟩
  · obtain hp | ⟨why, hp⟩ := p.wellShaped_or_failsFor
    · exact hp
    · cases hs.symm.trans hp.ofPhrase_eq
  · obtain hp | ⟨why', hp⟩ := p.wellShaped_or_failsFor
    · obtain ⟨s, hs⟩ := hp.exists_symbol
      cases hs.symm.trans hwhy
    · cases hwhy.symm.trans hp.ofPhrase_eq
      exact hp
  · rw [← ofPhrase_unplaced q, hq, ofPhrase_unplaced]

end Symbol
end LinkerNames

import LinkerNames.CommandLine.Progress
import LinkerNames.Proofs.Encoding.Total
import LinkerNames.Proofs.Runs
import Mathlib.Data.List.Forall2
/-!
# Handling signatures

What handling some texts leaves is known from the texts: a line is printed for each of those that
stand before the first that is no signature, and of that one it is said where and why it is
rejected. What else is said are remarks, which depend on the degree of detail that was asked for. A
timer reads the clock before its stage and after it, so that the timers that are shown have the
readings of the clock in turn, two each (`Run.handleAll_of_said`).
-/

namespace LinkerNames

open Number

/-! ## What is printed -/

/-- Whether a text is a signature. -/
def accepts (text : String) : Bool :=
  (Symbol.ofText text).isOk

/-- The line for a signature: its linker name, or its symbol in full. -/
def Format.Shows : Format → String → String → Prop
  | .symbol, text, line => linkerName text = .ok line
  | .tree, text, line => ∃ s, Symbol.ofText text = .ok s ∧ line = s.displayed

/-- What is said of a text that is rejected. -/
def Rejection.lines (why : Rejection) (text : String) : List String :=
  [why.context, "Cannot parse " ++ Text.quoted text ++ ": " ++ why.message]

theorem Rejection.unlines_lines (why : Rejection) (text : String) :
    Text.unlines (why.lines text) = why.context ++ "\n" ++
      ("Cannot parse " ++ Text.quoted text ++ ": " ++ why.message ++ "\n") := by
  simp [Text.unlines, String.join, lines, String.append_assoc]

theorem accepts_iff {text : String} : accepts text = true ↔ ∃ s, Symbol.ofText text = .ok s := by
  unfold accepts
  cases Symbol.ofText text with
  | ok s => exact ⟨fun _ => ⟨s, rfl⟩, fun _ => rfl⟩
  | error e => exact ⟨nofun, nofun⟩

theorem exists_linkerName {text : String} {s : Symbol} (h : Symbol.ofText text = .ok s) :
    ∃ name, s.linkerName = .ok name ∧ linkerName text = .ok name := by
  obtain ⟨hfits, hname⟩ := linkerName_of_ofText h
  exact ⟨_, hfits.linkerName_eq, hname⟩

/-- A text is no signature because it is rejected. -/
theorem exists_rejection_of_not_accepts {text : String} (h : ¬ accepts text = true) :
    ∃ why, parse text = .error (.rejected why) ∧
      Symbol.ofText text = .error (.parse (.rejected why)) := by
  cases hparse : parse text with
  | ok p =>
    obtain ⟨s, hs, -⟩ := exists_symbol_of_parse hparse
    exact absurd (accepts_iff.2 ⟨s, Symbol.ofText_eq_ok_iff.2 ⟨p, hparse, hs⟩⟩) h
  | error e =>
    obtain ⟨why, rfl⟩ := exists_rejection hparse
    refine ⟨why, rfl, ?_⟩
    rw [Symbol.ofText, hparse]
    rfl

/-- A signature has one line in each format. -/
theorem Format.rightUnique_shows (format : Format) : Relator.RightUnique format.Shows := by
  intro text line line' h h'
  cases format with
  | symbol => exact Except.ok.inj (h.symm.trans h')
  | tree =>
    obtain ⟨s, hs, rfl⟩ := h
    obtain ⟨s', hs', rfl⟩ := h'
    rw [Except.ok.inj (hs.symm.trans hs')]

/-! ## Remarks -/

/-- What is said of a signature on the way: how long a stage took, or its symbol. -/
inductive Remark
  | took (stage : String)
  | tree (s : Symbol)
deriving DecidableEq

/-- The reading of a clock after `i` others. -/
def readingAt (clock : List Reading) (i : Nat) : Reading :=
  clock.getD i .zero

/-- The duration that a timer shows which comes after `j` others. -/
def timerDuration? (clock : List Reading) (j : Nat) : Option Binary64 :=
  milliseconds? (readingAt clock (2 * j)) (readingAt clock (2 * j + 1))

/-- Whether a remark is a timer. -/
def Remark.isTimer : Remark → Bool
  | .took _ => true
  | .tree _ => false

/-- How many timers are among some remarks. -/
def timers (remarks : List Remark) : Nat :=
  remarks.countP Remark.isTimer

/-- The lines in which some remarks are said after `j` timers. -/
inductive Said (clock : List Reading) : Nat → List Remark → List String → Prop
  | nil {j : Nat} : Said clock j [] []
  | took {j : Nat} {d : Binary64} {stage : String} {remarks : List Remark} {lines : List String} :
    timerDuration? clock j = some d → Said clock (j + 1) remarks lines →
    Said clock j (.took stage :: remarks)
      (("[timer] " ++ stage ++ " took " ++ showDuration d ++ " ms") :: lines)
  | tree {j : Nat} {s : Symbol} {remarks : List Remark} {lines : List String} :
    Said clock j remarks lines →
    Said clock j (.tree s :: remarks) (("[tree] " ++ s.displayed) :: lines)

namespace Settings

/-- What is said of a stage that succeeds. -/
def stageRemarks (settings : Settings) (stage : String) : List Remark :=
  if 2 ≤ settings.verbosity then [.took stage] else []

/-- What is said of a signature. -/
def remarks (settings : Settings) (s : Symbol) : List Remark :=
  settings.stageRemarks "Parsing" ++ (if 1 ≤ settings.verbosity then [.tree s] else []) ++
    (if settings.format = .symbol then settings.stageRemarks "Mangling" else [])

/-- How often the clock is read before a stage. -/
def readings (settings : Settings) : Nat :=
  if 2 ≤ settings.verbosity then 1 else 0

end Settings

/-- The symbols of the texts before the first that is no signature. -/
def acceptedSymbols (texts : List String) : List Symbol :=
  (texts.takeWhile accepts).filterMap fun text => (Symbol.ofText text).toOption

/-- What is said of all signatures before the first text that is none. -/
def Settings.allRemarks (settings : Settings) (texts : List String) : List Remark :=
  (acceptedSymbols texts).flatMap settings.remarks

/-- A signature before others has its symbol before theirs. -/
theorem acceptedSymbols_cons {text : String} {s : Symbol} (h : Symbol.ofText text = .ok s)
    (texts : List String) : acceptedSymbols (text :: texts) = s :: acceptedSymbols texts := by
  rw [acceptedSymbols, List.takeWhile_cons_of_pos (accepts_iff.2 ⟨s, h⟩),
    List.filterMap_cons_some (by rw [h]; rfl)]
  rfl

theorem acceptedSymbols_cons_of_not_accepts {text : String} (h : ¬ accepts text = true)
    (texts : List String) : acceptedSymbols (text :: texts) = [] := by
  rw [acceptedSymbols, List.takeWhile_cons_of_neg h]
  rfl

theorem Settings.allRemarks_cons {text : String} {s : Symbol} (h : Symbol.ofText text = .ok s)
    (settings : Settings) (texts : List String) :
    settings.allRemarks (text :: texts) = settings.remarks s ++ settings.allRemarks texts := by
  rw [allRemarks, acceptedSymbols_cons h, List.flatMap_cons, allRemarks]

theorem Settings.allRemarks_cons_of_not_accepts {text : String} (h : ¬ accepts text = true)
    (settings : Settings) (texts : List String) : settings.allRemarks (text :: texts) = [] := by
  rw [allRemarks, acceptedSymbols_cons_of_not_accepts h, List.flatMap_nil]

/-- Nothing is said of signatures that no detail was asked for. -/
theorem Settings.allRemarks_of_quiet {settings : Settings} (h : settings.verbosity = 0)
    (texts : List String) : settings.allRemarks texts = [] := by
  have hremarks (s : Symbol) : settings.remarks s = [] := by simp [remarks, stageRemarks, h]
  rw [allRemarks, List.flatMap_eq_nil_iff]
  exact fun s _ => hremarks s

theorem Settings.readings_of_lt {settings : Settings} (h : settings.verbosity < 2) :
    settings.readings = 0 :=
  if_neg (Nat.not_le.2 h)

/-- No timer is shown of signatures that so much detail was not asked for. -/
theorem Settings.timers_of_lt {settings : Settings} (h : settings.verbosity < 2)
    (texts : List String) : timers (settings.allRemarks texts) = 0 := by
  have hstage (stage : String) : settings.stageRemarks stage = [] := if_neg (Nat.not_le.2 h)
  rw [timers, List.countP_eq_zero]
  intro r hr
  obtain ⟨s, -, hr⟩ := List.mem_flatMap.1 hr
  rw [remarks, hstage, hstage, List.nil_append, ite_self, List.append_nil] at hr
  split at hr
  next =>
    rw [List.mem_singleton.1 hr]
    exact Bool.false_ne_true
  next => cases hr

section
variable {clock : List Reading} {j : Nat} {remarks remarks' : List Remark} {said : List String}

theorem timers_append (remarks remarks' : List Remark) :
    timers (remarks ++ remarks') = timers remarks + timers remarks' :=
  List.countP_append

theorem timers_cons_took (stage : String) (remarks : List Remark) :
    timers (.took stage :: remarks) = timers remarks + 1 :=
  List.countP_cons_of_pos rfl

theorem timers_cons_tree (s : Symbol) (remarks : List Remark) :
    timers (.tree s :: remarks) = timers remarks :=
  List.countP_cons_of_neg Bool.false_ne_true

theorem said_append_iff :
    Said clock j (remarks ++ remarks') said ↔ ∃ lines lines', said = lines ++ lines' ∧
      Said clock j remarks lines ∧ Said clock (j + timers remarks) remarks' lines' := by
  induction remarks generalizing j said with
  | nil =>
    constructor
    · exact fun h => ⟨[], said, rfl, .nil, h⟩
    · rintro ⟨_, _, rfl, ⟨⟩, h⟩
      exact h
  | cons r remarks ih =>
    cases r with
    | took stage =>
      rw [timers_cons_took, Nat.add_comm (timers remarks), ← Nat.add_assoc]
      constructor
      · rintro (_ | ⟨hd, h⟩)
        obtain ⟨lines, lines', rfl, h, h'⟩ := ih.1 h
        exact ⟨_ :: lines, lines', rfl, .took hd h, h'⟩
      · rintro ⟨_, lines', rfl, _ | ⟨hd, h⟩, h'⟩
        exact .took hd (ih.2 ⟨_, lines', rfl, h, h'⟩)
    | tree s =>
      rw [timers_cons_tree]
      constructor
      · rintro (_ | _ | h)
        obtain ⟨lines, lines', rfl, h, h'⟩ := ih.1 h
        exact ⟨_ :: lines, lines', rfl, .tree h, h'⟩
      · rintro ⟨_, lines', rfl, _ | _ | h, h'⟩
        exact .tree (ih.2 ⟨_, lines', rfl, h, h'⟩)

/-- Remarks can be said if the timers among them can be shown. -/
theorem exists_said (h : ∀ i < timers remarks, ∃ d, timerDuration? clock (j + i) = some d) :
    ∃ said, Said clock j remarks said := by
  induction remarks generalizing j with
  | nil => exact ⟨[], .nil⟩
  | cons r remarks ih =>
    cases r with
    | took stage =>
      rw [timers_cons_took] at h
      obtain ⟨d, hd⟩ := h 0 (Nat.succ_pos _)
      obtain ⟨said, hsaid⟩ := ih (j := j + 1) fun i hi => by
        rw [Nat.add_assoc, Nat.add_comm 1]
        exact h (i + 1) (Nat.succ_lt_succ hi)
      exact ⟨_, .took hd hsaid⟩
    | tree s =>
      rw [timers_cons_tree] at h
      obtain ⟨said, hsaid⟩ := ih h
      exact ⟨_, .tree hsaid⟩

end

namespace Run

open Console (timed readSymbol encodeSymbol handle handleAll)

variable {settings : Settings} {text : String} {s : Symbol} {clock : List Reading} {j : Nat}
  {said : List String}

/-! ## Stages -/

theorem say_apply (line : String) (p : Progress) :
    Console.say (m := Run) line p = .ok () { p with log := p.log ++ [line] } :=
  rfl

theorem now_apply (clock : List Reading) (i : Nat) (output log : List String) :
    Console.now (m := Run) ⟨clock.drop i, output, log⟩ =
      .ok (readingAt clock i) ⟨clock.drop (i + 1), output, log⟩ := by
  rw [readingAt, List.getD_eq_getElem?_getD, ← List.head?_drop, ← List.tail_drop]
  cases clock.drop i <;> rfl

/-- A stage that succeeds whatever was printed and said, with what is said of it. -/
theorem timed_of_said {α : Type} {work : Run α} {a : α} (hwork : ∀ p, work p = .ok a p)
    {stage : String} (hsaid : Said clock j (settings.stageRemarks stage) said)
    (output log : List String) :
    timed (m := Run) settings stage (fun _ => work) ⟨clock.drop (2 * j), output, log⟩ =
      .ok a ⟨clock.drop (2 * (j + timers (settings.stageRemarks stage))), output, log ++ said⟩ := by
  unfold Settings.stageRemarks at *
  rw [timed]
  by_cases hv : 2 ≤ settings.verbosity
  · rw [if_pos hv] at hsaid
    obtain _ | ⟨hd, hsaid⟩ := hsaid
    cases hsaid
    rw [if_pos hv, if_neg (by omega), EStateM.bind_of_ok (now_apply clock (2 * j) output log),
      EStateM.bind_of_ok (hwork _), EStateM.bind_of_ok (now_apply clock (2 * j + 1) output log)]
    unfold timerDuration? at hd
    rw [hd]
    rfl
  · rw [if_neg hv] at hsaid
    cases hsaid
    rw [if_neg hv, if_pos (by omega), hwork, List.append_nil]
    rfl

/-- Of a stage that stops the run its duration is not said. -/
theorem timed_of_error {α : Type} {work : Run α} {why : Stop} {lines : List String}
    (hwork : ∀ p, work p = .error why { p with log := p.log ++ lines }) (stage : String) (i : Nat)
    (output log : List String) :
    timed (m := Run) settings stage (fun _ => work) ⟨clock.drop i, output, log⟩ =
      .error why ⟨clock.drop (i + settings.readings), output, log ++ lines⟩ := by
  unfold Settings.readings
  rw [timed]
  by_cases hv : 2 ≤ settings.verbosity
  · rw [if_pos hv, if_neg (by omega), EStateM.bind_of_ok (now_apply clock i output log),
      EStateM.bind_of_error (hwork _)]
  · rw [if_neg hv, if_pos (by omega), hwork, Nat.add_zero]

theorem readSymbol_of_ok (h : Symbol.ofText text = .ok s) (p : Progress) :
    readSymbol (m := Run) text p = .ok s p := by
  unfold readSymbol
  rw [h]
  rfl

/-- Two lines are said of a text that is rejected, and no further signature is handled. -/
theorem readSymbol_of_rejected {why : Rejection}
    (h : Symbol.ofText text = .error (.parse (.rejected why))) (p : Progress) :
    readSymbol (m := Run) text p = .error .rejected { p with log := p.log ++ why.lines text } := by
  unfold readSymbol
  rw [h, Rejection.lines, List.append_cons]
  exact (EStateM.bind_of_ok (say_apply _ p)).trans (EStateM.bind_of_ok (say_apply _ _))

theorem encodeSymbol_of_ok {name : String} (h : s.linkerName = .ok name) (text : String)
    (p : Progress) : encodeSymbol (m := Run) text s p = .ok name p := by
  unfold encodeSymbol
  rw [h]
  rfl

/-! ## One signature -/

/-- The last stage of handling a signature. -/
def printLine (settings : Settings) (text : String) (s : Symbol) : Run Unit :=
  match settings.format with
  | .tree => Console.print s.displayed
  | .symbol => do
    let name ← timed settings "Mangling" fun _ => encodeSymbol text s
    Console.print name

theorem printLine_of_said (h : Symbol.ofText text = .ok s)
    (hsaid : Said clock j
      (if settings.format = .symbol then settings.stageRemarks "Mangling" else []) said)
    (output log : List String) :
    ∃ line, settings.format.Shows text line ∧
      printLine settings text s ⟨clock.drop (2 * j), output, log⟩ =
        .ok () ⟨clock.drop (2 * (j + timers (if settings.format = .symbol then
          settings.stageRemarks "Mangling" else []))), output ++ [line], log ++ said⟩ := by
  obtain ⟨name, hlinker, hname⟩ := exists_linkerName h
  unfold printLine
  cases hformat : settings.format with
  | symbol =>
    rw [hformat, if_pos rfl] at hsaid
    refine ⟨name, hname, ?_⟩
    rw [if_pos rfl]
    exact EStateM.bind_of_ok (timed_of_said (encodeSymbol_of_ok hlinker text) hsaid output log)
  | tree =>
    rw [hformat, if_neg (by simp)] at hsaid
    cases hsaid
    refine ⟨_, ⟨s, h, rfl⟩, ?_⟩
    rw [if_neg (by simp), List.append_nil]
    rfl

/-- A signature is read and its symbol said, and its line comes last. -/
theorem handle_eq_printLine (h : Symbol.ofText text = .ok s)
    (hsaid : Said clock j (settings.stageRemarks "Parsing" ++
      if 1 ≤ settings.verbosity then [.tree s] else []) said) (output log : List String) :
    handle (m := Run) settings text ⟨clock.drop (2 * j), output, log⟩ =
      printLine settings text s ⟨clock.drop (2 * (j + timers (settings.stageRemarks "Parsing" ++
        if 1 ≤ settings.verbosity then [.tree s] else []))), output, log ++ said⟩ := by
  obtain ⟨before, tree, rfl, hbefore, htree⟩ := said_append_iff.1 hsaid
  unfold handle
  rw [EStateM.bind_of_ok (timed_of_said (readSymbol_of_ok h) hbefore output log)]
  change (if 1 ≤ settings.verbosity then Console.say _ >>= fun _ => printLine settings text s
    else printLine settings text s) _ = _
  -- The line of the symbol has no timer before it that the other lines do not have.
  rw [timers_append, ← List.append_assoc]
  by_cases hv : 1 ≤ settings.verbosity
  · rw [if_pos hv] at htree ⊢
    obtain _ | _ | htree := htree
    cases htree
    rw [EStateM.bind_of_ok (say_apply _ _), if_pos hv]
    rfl
  · rw [if_neg hv] at htree ⊢
    cases htree
    rw [if_neg hv, List.append_nil]
    rfl

/-- A signature gives its line, and what is said of it. -/
theorem handle_of_said (h : Symbol.ofText text = .ok s)
    (hsaid : Said clock j (settings.remarks s) said) (output log : List String) :
    ∃ line, settings.format.Shows text line ∧
      handle (m := Run) settings text ⟨clock.drop (2 * j), output, log⟩ =
        .ok () ⟨clock.drop (2 * (j + timers (settings.remarks s))), output ++ [line],
          log ++ said⟩ := by
  obtain ⟨before, after, rfl, hbefore, hafter⟩ := said_append_iff.1 hsaid
  obtain ⟨line, hline, hprint⟩ := printLine_of_said h hafter output (log ++ before)
  refine ⟨line, hline, ?_⟩
  rw [Settings.remarks, timers_append, ← Nat.add_assoc, ← List.append_assoc,
    handle_eq_printLine h hbefore]
  exact hprint

/-- A text that is none stops the run, with what is said of it. -/
theorem handle_of_not_accepts (settings : Settings) (h : ¬ accepts text = true) (i : Nat)
    (output log : List String) :
    ∃ why, parse text = .error (.rejected why) ∧
      handle (m := Run) settings text ⟨clock.drop i, output, log⟩ =
        .error .rejected ⟨clock.drop (i + settings.readings), output, log ++ why.lines text⟩ := by
  obtain ⟨why, hwhy, htext⟩ := exists_rejection_of_not_accepts h
  refine ⟨why, hwhy, ?_⟩
  unfold handle
  exact EStateM.bind_of_error
    (timed_of_error (readSymbol_of_rejected htext) "Parsing" i output log)

/-! ## All signatures -/

/-- The lines of the signatures are printed and their remarks said, up to the first text that is no
signature. Each timer has taken two readings of the clock, and the timer of the stage that failed
one. -/
theorem handleAll_of_said (settings : Settings) (texts : List String) {said : List String}
    (hsaid : Said clock j (settings.allRemarks texts) said) (output log : List String) :
    ∃ lines, List.Forall₂ settings.format.Shows (texts.takeWhile accepts) lines ∧
      match texts.dropWhile accepts with
      | [] => handleAll (m := Run) settings texts ⟨clock.drop (2 * j), output, log⟩ =
          .ok () ⟨clock.drop (2 * (j + timers (settings.allRemarks texts))), output ++ lines,
            log ++ said⟩
      | text :: _ => ∃ why, parse text = .error (.rejected why) ∧
          handleAll (m := Run) settings texts ⟨clock.drop (2 * j), output, log⟩ =
            .error .rejected
              ⟨clock.drop (2 * (j + timers (settings.allRemarks texts)) + settings.readings),
                output ++ lines, log ++ said ++ why.lines text⟩ := by
  induction texts generalizing j said output log with
  | nil =>
    cases hsaid
    refine ⟨[], .nil, ?_⟩
    rw [List.append_nil, List.append_nil]
    rfl
  | cons text texts ih =>
    by_cases h : accepts text = true
    · obtain ⟨s, hs⟩ := accepts_iff.1 h
      rw [Settings.allRemarks_cons hs] at hsaid ⊢
      obtain ⟨before, after, rfl, hbefore, hafter⟩ := said_append_iff.1 hsaid
      obtain ⟨line, hline, hstep⟩ := handle_of_said hs hbefore output log
      obtain ⟨lines, hlines, hrest⟩ := ih hafter (output ++ [line]) (log ++ before)
      refine ⟨line :: lines, ?_, ?_⟩
      · rw [List.takeWhile_cons_of_pos h]
        exact .cons hline hlines
      · have hall : handleAll (m := Run) settings (text :: texts) ⟨clock.drop (2 * j), output, log⟩ =
            handleAll (m := Run) settings texts
              ⟨clock.drop (2 * (j + timers (settings.remarks s))), output ++ [line],
                log ++ before⟩ :=
          EStateM.bind_of_ok hstep
        rw [List.dropWhile_cons_of_pos h, hall, timers_append, ← Nat.add_assoc,
          List.append_cons output line lines, ← List.append_assoc log before after]
        exact hrest
    · rw [Settings.allRemarks_cons_of_not_accepts h] at hsaid ⊢
      cases hsaid
      obtain ⟨why, hwhy, hstep⟩ := handle_of_not_accepts settings h (2 * j) output log
      refine ⟨[], ?_, ?_⟩
      · rw [List.takeWhile_cons_of_neg h]
        exact .nil
      · rw [List.dropWhile_cons_of_neg h, List.append_nil, List.append_nil]
        exact ⟨why, hwhy, EStateM.bind_of_error hstep⟩

/-- Without further detail only the first text that is no signature is spoken of. -/
theorem handleAll_of_quiet (hquiet : settings.verbosity = 0) (texts : List String) (p : Progress) :
    ∃ lines, List.Forall₂ settings.format.Shows (texts.takeWhile accepts) lines ∧
      match texts.dropWhile accepts with
      | [] => handleAll (m := Run) settings texts p = .ok () { p with output := p.output ++ lines }
      | text :: _ => ∃ why, parse text = .error (.rejected why) ∧
        handleAll (m := Run) settings texts p = .error .rejected
          { p with output := p.output ++ lines, log := p.log ++ why.lines text } := by
  have hremarks := Settings.allRemarks_of_quiet hquiet texts
  have hsaid : Said p.clock 0 (settings.allRemarks texts) [] := hremarks ▸ .nil
  obtain ⟨lines, hlines, hrun⟩ := handleAll_of_said settings texts hsaid p.output p.log
  rw [hremarks, Settings.readings_of_lt (by omega), List.append_nil] at hrun
  exact ⟨lines, hlines, hrun⟩

end Run
end LinkerNames

import LinkerNames.Proofs.CommandLine.Detail
/-!
# Runs that a timer breaks off

A duration between two readings of a clock may be too large to be shown. A run that comes to such a
duration breaks off, and what was printed and said before it stays: the lines of some of the
signatures, and the first of the remarks. So whatever the clock shows, it is known what a run leaves
(`Command.handled_cases`).
-/

namespace LinkerNames

/-- A member of two lists put together is one of the second, or one of the first. -/
theorem append_eq_append_cons {α : Type} {as bs before behind : List α} {a : α}
    (h : as ++ bs = before ++ a :: behind) :
    (∃ before', before = as ++ before' ∧ bs = before' ++ a :: behind) ∨
      ∃ behind', as = before ++ a :: behind' := by
  rcases List.append_eq_append_iff.1 h with ⟨before', hbefore, hbs⟩ | ⟨behind', has, hbehind⟩
  · exact .inl ⟨before', hbefore, hbs⟩
  · cases behind' with
    | nil =>
      rw [List.append_nil] at has
      exact .inl ⟨[], by rw [has, List.append_nil], hbehind.symm⟩
    | cons b behind' => exact .inr ⟨behind', (List.cons.inj hbehind).1 ▸ has⟩

/-- Remarks can all be said, or those before a timer that cannot be shown. -/
theorem exists_said_or_unshown (clock : List Reading) (j : Nat) (remarks : List Remark) :
    (∃ said, Said clock j remarks said) ∨ ∃ before stage behind said,
      remarks = before ++ .took stage :: behind ∧ Said clock j before said ∧
        timerDuration? clock (j + timers before) = none := by
  induction remarks generalizing j with
  | nil => exact .inl ⟨[], .nil⟩
  | cons r remarks ih =>
    cases r with
    | took stage =>
      cases hd : timerDuration? clock j with
      | none => exact .inr ⟨[], stage, remarks, [], rfl, .nil, hd⟩
      | some d =>
        obtain ⟨said, hsaid⟩ | ⟨before, stage', behind, said, rfl, hsaid, hnone⟩ := ih (j + 1)
        · exact .inl ⟨_, .took hd hsaid⟩
        · refine .inr ⟨.took stage :: before, stage', behind, _, rfl, .took hd hsaid, ?_⟩
          rwa [timers_cons_took, ← Nat.add_assoc, Nat.add_right_comm]
    | tree s =>
      obtain ⟨said, hsaid⟩ | ⟨before, stage', behind, said, rfl, hsaid, hnone⟩ := ih j
      · exact .inl ⟨_, .tree hsaid⟩
      · exact .inr ⟨.tree s :: before, stage', behind, _, rfl, .tree hsaid, hnone⟩

namespace Run

open Console (timed readSymbol encodeSymbol handle handleAll)

variable {settings : Settings} {text stage : String} {s : Symbol} {clock : List Reading} {j : Nat}
  {before behind : List Remark} {said : List String}

/-- A stage that succeeds stops the run if its duration cannot be shown. -/
theorem timed_of_unshown {α : Type} {work : Run α} {a : α} (hwork : ∀ p, work p = .ok a p)
    (hv : 2 ≤ settings.verbosity) (hd : timerDuration? clock j = none) (stage : String)
    (output log : List String) :
    timed (m := Run) settings stage (fun _ => work) ⟨clock.drop (2 * j), output, log⟩ =
      .error (.crashed .duration) ⟨clock.drop (2 * (j + 1)), output, log⟩ := by
  rw [timed, if_neg (by omega), EStateM.bind_of_ok (now_apply clock (2 * j) output log),
    EStateM.bind_of_ok (hwork _), EStateM.bind_of_ok (now_apply clock (2 * j + 1) output log)]
  unfold timerDuration? at hd
  rw [hd]
  rfl

/-- The timers among the remarks on a signature: that of reading it, which comes first, and that of
its linker name, which comes last. -/
theorem remarks_eq_append_took (h : settings.remarks s = before ++ .took stage :: behind) :
    2 ≤ settings.verbosity ∧ (before = [] ∨ settings.format = .symbol ∧
      before = settings.stageRemarks "Parsing" ++
        if 1 ≤ settings.verbosity then [.tree s] else []) := by
  have hnil {r r' : Remark} {before behind : List Remark} (h : [r] = before ++ r' :: behind) :
      r = r' ∧ before = [] := by
    obtain ⟨rfl, hr⟩ | ⟨-, hr⟩ := List.append_eq_singleton_iff.1 h.symm
    · exact ⟨(List.cons.inj hr).1.symm, rfl⟩
    · cases hr
  by_cases hv : 2 ≤ settings.verbosity
  · refine ⟨hv, ?_⟩
    have hstage (stage : String) : settings.stageRemarks stage = [.took stage] := if_pos hv
    have htree : 1 ≤ settings.verbosity := Nat.le_of_succ_le hv
    -- The last stage has remarks in one format only.
    rcases append_eq_append_cons h with ⟨before', rfl, hlast⟩ | ⟨_, hfirst⟩
    · split at hlast
      next hformat =>
        obtain ⟨-, rfl⟩ := hnil (hstage _ ▸ hlast)
        exact .inr ⟨hformat, List.append_nil _⟩
      next => cases before' <;> cases hlast
    · rw [hstage, if_pos htree] at hfirst
      rcases append_eq_append_cons hfirst with ⟨_, -, hsymbol⟩ | ⟨_, hreading⟩
      · cases (hnil hsymbol).1
      · exact .inl (hnil hreading).2
  · have htook : .took stage ∈ settings.remarks s :=
      h ▸ List.mem_append_right _ List.mem_cons_self
    simp [Settings.remarks, Settings.stageRemarks, hv] at htook

/-- A signature breaks the run off if one of its stages takes too long to be shown. -/
theorem handle_of_unshown (h : Symbol.ofText text = .ok s)
    (hremarks : settings.remarks s = before ++ .took stage :: behind)
    (hsaid : Said clock j before said) (hd : timerDuration? clock (j + timers before) = none)
    (output log : List String) :
    handle (m := Run) settings text ⟨clock.drop (2 * j), output, log⟩ =
      .error (.crashed .duration)
        ⟨clock.drop (2 * (j + timers before + 1)), output, log ++ said⟩ := by
  obtain ⟨hv, rfl | ⟨hformat, rfl⟩⟩ := remarks_eq_append_took hremarks
  · cases hsaid
    rw [List.append_nil]
    unfold handle
    exact EStateM.bind_of_error (timed_of_unshown (readSymbol_of_ok h) hv hd "Parsing" output log)
  · obtain ⟨name, hlinker, -⟩ := exists_linkerName h
    rw [handle_eq_printLine h hsaid]
    unfold printLine
    rw [hformat]
    exact EStateM.bind_of_error
      (timed_of_unshown (encodeSymbol_of_ok hlinker text) hv hd "Mangling" output (log ++ said))

/-- A run that breaks off has printed the lines of some signatures, and said the remarks before the
timer that cannot be shown. -/
theorem handleAll_of_unshown (settings : Settings) (texts : List String)
    (hremarks : settings.allRemarks texts = before ++ .took stage :: behind)
    (hsaid : Said clock j before said) (hd : timerDuration? clock (j + timers before) = none)
    (output log : List String) :
    ∃ shown lines i, shown <+: texts.takeWhile accepts ∧
      List.Forall₂ settings.format.Shows shown lines ∧
      handleAll (m := Run) settings texts ⟨clock.drop (2 * j), output, log⟩ =
        .error (.crashed .duration) ⟨clock.drop i, output ++ lines, log ++ said⟩ := by
  induction texts generalizing j before said output log with
  | nil => cases before <;> cases hremarks
  | cons text texts ih =>
    by_cases h : accepts text = true
    · obtain ⟨s, hs⟩ := accepts_iff.1 h
      rw [Settings.allRemarks_cons hs] at hremarks
      rw [List.takeWhile_cons_of_pos h]
      -- The timer is one of this signature, or one of those behind it.
      rcases append_eq_append_cons hremarks with
        ⟨before', rfl, hbehind⟩ | ⟨behind', hremarks⟩
      · obtain ⟨first, rest, rfl, hfirst, hrest⟩ := said_append_iff.1 hsaid
        rw [timers_append, ← Nat.add_assoc] at hd
        obtain ⟨line, hline, hstep⟩ := handle_of_said hs hfirst output log
        obtain ⟨shown, lines, i, hshown, hlines, hrun⟩ :=
          ih hbehind hrest hd (output ++ [line]) (log ++ first)
        refine ⟨text :: shown, line :: lines, i, List.cons_prefix_cons.2 ⟨rfl, hshown⟩,
          .cons hline hlines, ?_⟩
        rw [List.append_cons output line lines, ← List.append_assoc log first rest]
        exact (EStateM.bind_of_ok hstep).trans hrun
      · refine ⟨[], [], 2 * (j + timers before + 1), List.nil_prefix, .nil, ?_⟩
        rw [List.append_nil]
        exact EStateM.bind_of_error (handle_of_unshown hs hremarks hsaid hd output log)
    · rw [Settings.allRemarks_cons_of_not_accepts h] at hremarks
      cases before <;> cases hremarks

end Run

/-! ## Whole runs -/

/-- How handling some texts ends, and what it leaves: the lines of the signatures before the first
text that is none, and the remarks on them. If a timer breaks it off, it leaves the lines of some of
these signatures, and the remarks before that timer. -/
inductive Handled (clock : List Reading) (settings : Settings) (texts : List String) :
    Ending → Progress → Prop
  | finished {said lines : List String} {rest : List Reading} :
    texts.dropWhile accepts = [] →
    List.Forall₂ settings.format.Shows (texts.takeWhile accepts) lines →
    Said clock 0 (settings.allRemarks texts) said →
    Handled clock settings texts .finished ⟨rest, lines, said⟩
  | rejected {text : String} {others said lines : List String} {why : Rejection}
    {rest : List Reading} :
    texts.dropWhile accepts = text :: others → parse text = .error (.rejected why) →
    List.Forall₂ settings.format.Shows (texts.takeWhile accepts) lines →
    Said clock 0 (settings.allRemarks texts) said →
    Handled clock settings texts (.stopped .rejected) ⟨rest, lines, said ++ why.lines text⟩
  | interrupted {shown said lines : List String} {before behind : List Remark} {stage : String}
    {rest : List Reading} :
    settings.allRemarks texts = before ++ .took stage :: behind → shown <+: texts.takeWhile accepts →
    List.Forall₂ settings.format.Shows shown lines → Said clock 0 before said →
    Handled clock settings texts (.stopped (.crashed .duration)) ⟨rest, lines, said⟩

/-- Whatever the clock shows, a run ends in one of the three ways. -/
theorem Command.handled_cases (clock : List Reading) (settings : Settings) (texts : List String) :
    ∃ ending p, handled clock settings texts = (ending, p) ∧
      Handled clock settings texts ending p := by
  obtain ⟨said, hsaid⟩ | ⟨before, stage, behind, said, hremarks, hsaid, hd⟩ :=
    exists_said_or_unshown clock 0 (settings.allRemarks texts)
  · obtain ⟨lines, hlines, hrun⟩ := Run.handleAll_of_said settings texts hsaid [] []
    cases hdrop : texts.dropWhile accepts with
    | nil =>
      rw [hdrop] at hrun
      exact ⟨_, _, handled_of_ok hrun, .finished hdrop hlines hsaid⟩
    | cons text others =>
      rw [hdrop] at hrun
      obtain ⟨why, hwhy, hrun⟩ := hrun
      exact ⟨_, _, handled_of_error hrun, .rejected hdrop hwhy hlines hsaid⟩
  · obtain ⟨shown, lines, i, hshown, hlines, hrun⟩ :=
      Run.handleAll_of_unshown settings texts hremarks hsaid hd [] []
    exact ⟨_, _, handled_of_error hrun, .interrupted hremarks hshown hlines hsaid⟩

end LinkerNames

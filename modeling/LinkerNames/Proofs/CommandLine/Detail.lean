import LinkerNames.Proofs.CommandLine.Handling
import LinkerNames.Proofs.CommandLine.Request
import LinkerNames.Proofs.Text.Lines
/-!
# Asking for detail

A command that is asked for more detail does what it does without, and says more on the way: remarks
on the signatures that it handles, all of them before what it says of a text that is no signature
(`run_detailed`).
-/

namespace LinkerNames

/-- The same request, but for no detail. -/
def Request.quiet (q : Request) : Request :=
  { q with settings := { q.settings with verbosity := 0 } }

namespace Command

/-- The output of a command can be opened. -/
def Opens (c : Command) (name : String) : Prop :=
  name = "-" ∨ ∃ target, c.files.target name = .ok target

/-- Runs that end alike and print the same leave the same behind, but for what they said. -/
theorem report_alike {c c' : Command} {settings settings' : Settings} {texts : List String}
    {name : String} {ending : Ending} {p p' : Progress} (hfiles : c.files = c'.files)
    (hopen : c.Opens name) (h : handled c.clock settings texts = (ending, p))
    (h' : handled c'.clock settings' texts = (ending, p')) (houtput : p.output = p'.output) :
    ∃ stdout files,
      c.report ⟨settings, texts, .named name⟩ = ⟨ending, stdout, Text.unlines p.log, files⟩ ∧
      c'.report ⟨settings', texts, .named name⟩ =
        ⟨ending, stdout, Text.unlines p'.log, files⟩ := by
  by_cases hname : name = "-"
  · subst hname
    rw [report_standard h, report_standard h', hfiles, houtput]
    exact ⟨_, _, rfl, rfl⟩
  · obtain ⟨target, htarget⟩ := hopen.resolve_left hname
    rw [report_file h hname htarget, report_file h' hname (hfiles ▸ htarget), hfiles, houtput]
    exact ⟨_, _, rfl, rfl⟩

theorem handled_of_ok {settings : Settings} {texts : List String} {clock : List Reading}
    {p : Progress} (h : Console.handleAll (m := Run) settings texts ⟨clock, [], []⟩ = .ok () p) :
    handled clock settings texts = (.finished, p) := by
  rw [handled, h]

theorem handled_of_error {settings : Settings} {texts : List String} {clock : List Reading}
    {why : Stop} {p : Progress} (h : Console.handleAll (m := Run) settings texts ⟨clock, [], []⟩ = .error why p) :
    handled clock settings texts = (.stopped why, p) := by
  rw [handled, h]

/-- What the same texts leave with detail and without: what is said without comes last. -/
theorem handled_detailed {settings : Settings} {texts said : List String}
    {clock : List Reading} (hsaid : Said clock 0 (settings.allRemarks texts) said)
    (clock₀ : List Reading) :
    ∃ ending lines last rest,
      handled clock settings texts = (ending, ⟨rest, lines, said ++ last⟩) ∧
      handled clock₀ { settings with verbosity := 0 } texts = (ending, ⟨clock₀, lines, last⟩) ∧
      (settings.verbosity < 2 → rest = clock) ∧
      match texts.dropWhile accepts with
      | [] => last = []
      | text :: _ => ∃ why, parse text = .error (.rejected why) ∧ last = why.lines text := by
  obtain ⟨lines, hlines, hrun⟩ := Run.handleAll_of_said settings texts hsaid [] []
  have hquiet : ({ settings with verbosity := 0 } : Settings).verbosity = 0 := rfl
  obtain ⟨lines', hlines', hrun'⟩ := Run.handleAll_of_quiet hquiet texts ⟨clock₀, [], []⟩
  obtain rfl : lines = lines' := List.right_unique_forall₂' settings.format.rightUnique_shows
    hlines hlines'
  cases hdrop : texts.dropWhile accepts with
  | nil =>
    rw [hdrop] at hrun hrun'
    rw [← List.append_nil (_ ++ said)] at hrun
    refine ⟨_, lines, [], _, handled_of_ok hrun, handled_of_ok hrun', fun hv => ?_, rfl⟩
    rw [Settings.timers_of_lt hv]
    rfl
  | cons text _ =>
    rw [hdrop] at hrun hrun'
    obtain ⟨why, hwhy, hrun⟩ := hrun
    obtain ⟨why', hwhy', hrun'⟩ := hrun'
    cases hwhy.symm.trans hwhy'
    refine ⟨_, lines, _, _, handled_of_error hrun, handled_of_error hrun', fun hv => ?_,
      why, hwhy, rfl⟩
    rw [Settings.timers_of_lt hv, Settings.readings_of_lt hv]
    rfl

end Command

/-! ## Main theorem -/

/-- A command that handles signatures, and is asked for detail, ends as it does without, and leaves
the same behind but for what it says. That comes behind the remarks on the signatures before the
first text that is none, each in a line of its own. Without timers the clock is not read. -/
theorem run_detailed {c c₀ : Command} {q : Request} {texts : List String} (hq : q.AskedBy c.args)
    (hq₀ : q.quiet.AskedBy c₀.args) (hstdin : c.stdin = c₀.stdin) (hfiles : c.files = c₀.files)
    (htexts : c.Gathers q texts) (hopen : c.Opens q.output)
    (hclock : ∀ j < timers (q.settings.allRemarks texts), ∃ d,
      timerDuration? c.clock j = some d) :
    c.run.ending = c₀.run.ending ∧ c.run.stdout = c₀.run.stdout ∧ c.run.files = c₀.run.files ∧
      (∃ said, Said c.clock 0 (q.settings.allRemarks texts) said ∧
        c.run.stderr = String.join (said.map (· ++ "\n")) ++ c₀.run.stderr) ∧
      (match texts.dropWhile accepts with
        | [] => c₀.run.stderr = ""
        | text :: _ => ∃ why, parse text = .error (.rejected why) ∧
          c₀.run.stderr = why.context ++ "\n" ++
            ("Cannot parse " ++ Text.quoted text ++ ": " ++ why.message ++ "\n")) ∧
      (q.settings.verbosity < 2 →
        (Command.handled c.clock q.settings texts).2.clock = c.clock) := by
  obtain ⟨said, hsaid⟩ := exists_said (j := 0) (by simpa only [Nat.zero_add] using hclock)
  obtain ⟨ending, lines, last, rest, hhandled, hhandled₀, hrest, hlast⟩ :=
    Command.handled_detailed hsaid c₀.clock
  obtain ⟨stdout, files, hreport, hreport₀⟩ :=
    Command.report_alike hfiles hopen hhandled hhandled₀ rfl
  have hrun : c.run = ⟨ending, stdout, Text.unlines (said ++ last), files⟩ :=
    (Command.run_eq_report hq htexts).trans hreport
  have hrun₀ : c₀.run = ⟨ending, stdout, Text.unlines last, files⟩ :=
    (Command.run_eq_report hq₀ (htexts.congr rfl rfl hstdin.symm hfiles.symm)).trans hreport₀
  rw [hrun, hrun₀]
  refine ⟨rfl, rfl, rfl, ⟨said, hsaid, Text.unlines_append said last⟩, ?_, fun hv => ?_⟩
  · cases hdrop : texts.dropWhile accepts with
    | nil =>
      rw [hdrop] at hlast
      rw [hlast]
      rfl
    | cons text _ =>
      rw [hdrop] at hlast
      obtain ⟨why, hwhy, rfl⟩ := hlast
      exact ⟨why, hwhy, why.unlines_lines text⟩
  · rw [hhandled]
    exact hrest hv

/-- Two timers for the signature before a text that is none, and none for that text. -/
theorem run_detailed_rejection :
    let c : Command :=
      ⟨["-vv", "f(int)", "g(int x)"], "", [], [.whole 0, .whole 2, .whole 3, .whole 7]⟩
    let c₀ : Command := ⟨["f(int)", "g(int x)"], "", [], []⟩
    let remarks := "[timer] Parsing took 2000.000000 ms\n" ++
      "[tree] Function(callee=Namespace(path=(Type(name='f'),))" ++
      ", args=(Typed(inner=Type(name='int'), qualifiers=()),))\n" ++
      "[timer] Mangling took 4000.000000 ms\n"
    let failure := "g(int x)\n------^\n" ++
      "Cannot parse 'g(int x)': Unexpected token: 'x', expected one of: [',', ')']\n"
    c.run.ending = c₀.run.ending ∧ c.run.stdout = c₀.run.stdout ∧ c₀.run.stderr = failure ∧
      c.run.stderr = remarks ++ failure ∧
      ∃ said, Said c.clock 0 (Settings.allRemarks ⟨.symbol, 2⟩ ["f(int)", "g(int x)"]) said ∧
        c.run.stderr = String.join (said.map (· ++ "\n")) ++ failure := by
  intro c c₀ remarks failure
  let q : Request := ⟨["f(int)", "g(int x)"], none, "-", .symbol, 2⟩
  have hq : q.AskedBy c.args := ⟨_, rfl, rfl, rfl, rfl, rfl, rfl⟩
  have hq₀ : q.quiet.AskedBy c₀.args := ⟨_, rfl, rfl, rfl, rfl, rfl, rfl⟩
  have htexts : c.Gathers q q.signatures := .arguments rfl (List.cons_ne_nil _ _)
  have hclock : ∀ j < timers (q.settings.allRemarks q.signatures), ∃ d,
      timerDuration? c.clock j = some d := by
    rw [(by decide +kernel : timers (q.settings.allRemarks q.signatures) = 2)]
    intro j hj
    have hshown : ∀ j < 2, (timerDuration? c.clock j).isSome = true := by decide +kernel
    exact Option.isSome_iff_exists.1 (hshown j hj)
  obtain ⟨hending, hstdout, -, hstderr, -, -⟩ :=
    run_detailed hq hq₀ rfl rfl htexts (.inl rfl) hclock
  have hfailure : c₀.run.stderr = failure := by decide +kernel
  rw [hfailure] at hstderr
  exact ⟨hending, hstdout, hfailure, by decide +kernel, hstderr⟩

end LinkerNames

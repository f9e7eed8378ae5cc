import LinkerNames.Proofs.CommandLine.Handling
import LinkerNames.Proofs.CommandLine.Request
/-!
# What the command prints

Without further detail the command prints a line for each signature up to the first text that is
none, and says where and why that text is rejected. What the line of a signature is depends on the
signature and the format; where the run ends and what is said does not depend on the format, for
each signature that is accepted has a linker name.
-/

namespace LinkerNames

/-- A command that is asked for no further detail and prints to the standard output prints a line
for each of the texts it gathers that stand before the first that is no signature. If all are
signatures, it says nothing and its exit code is 0; otherwise it says of the first that is none
where and why it is rejected, and its exit code is 1. -/
theorem run_of_quiet {c : Command} {q : Request} {texts : List String} (hq : q.AskedBy c.args)
    (houtput : q.output = "-") (hquiet : q.settings.verbosity = 0) (htexts : c.Gathers q texts) :
    ∃ lines, List.Forall₂ q.settings.format.Shows (texts.takeWhile accepts) lines ∧
      c.run.stdout = String.join (lines.map (· ++ "\n")) ∧ c.run.files = c.files ∧
      match texts.dropWhile accepts with
      | [] => c.run.ending = .finished ∧ c.run.ending.exitCode = 0 ∧ c.run.stderr = ""
      | text :: _ => ∃ why, parse text = .error (.rejected why) ∧
        c.run.ending = .stopped .rejected ∧ c.run.ending.exitCode = 1 ∧
        c.run.stderr = why.context ++ "\n" ++
          ("Cannot parse " ++ Text.quoted text ++ ": " ++ why.message ++ "\n") := by
  obtain ⟨lines, hlines, hrun⟩ := Run.handleAll_of_quiet hquiet texts ⟨c.clock, [], []⟩
  refine ⟨lines, hlines, ?_⟩
  have hreport := Command.run_eq_report hq htexts
  rw [houtput] at hreport
  change _ = c.report ⟨_, _, .standard⟩ at hreport
  rw [hreport, Command.report, Command.handled]
  cases hrest : texts.dropWhile accepts with
  | nil =>
    rw [hrest] at hrun
    rw [hrun]
    exact ⟨rfl, rfl, rfl, rfl, rfl⟩
  | cons text _ =>
    rw [hrest] at hrun
    obtain ⟨why, hwhy, hstop⟩ := hrun
    rw [hstop]
    exact ⟨rfl, rfl, why, hwhy, rfl, rfl, why.unlines_lines text⟩

/-- The signature before one that is rejected has its line, and the one behind it has none. In the
other format the line is a symbol, and the rest is the same. -/
theorem run_of_quiet_rejection :
    let c : Command := ⟨["-i", "-", "--", "f(int)"], "g(int x)\nh()\n", [], []⟩
    let tree : Command := ⟨["-f", "tree", "-i", "-", "--", "f(int)"], "g(int x)\nh()\n", [], []⟩
    let failure := "g(int x)\n------^\n" ++
      "Cannot parse 'g(int x)': Unexpected token: 'x', expected one of: [',', ')']\n"
    (c.run.stdout = "_ZN1fEi\n" ∧ c.run.ending.exitCode = 1 ∧ c.run.stderr = failure) ∧
      tree.run.stdout = "Function(callee=Namespace(path=(Type(name='f'),))" ++
        ", args=(Typed(inner=Type(name='int'), qualifiers=()),))\n" ∧
      tree.run.ending.exitCode = 1 ∧ tree.run.stderr = failure := by
  intro c tree failure
  refine ⟨?_, by decide +kernel⟩
  let q : Request := ⟨["f(int)"], some "-", "-", .symbol, 0⟩
  have hq : q.AskedBy c.args := ⟨_, rfl, rfl, rfl, rfl, rfl, rfl⟩
  have htexts : c.Gathers q ["f(int)", "g(int x)", "h()"] := by
    have hread : q.signatures ++ signaturesOfText c.stdin = ["f(int)", "g(int x)", "h()"] := by
      decide +kernel
    exact hread ▸ .dash rfl
  obtain ⟨lines, hlines, hstdout, -, hend⟩ := run_of_quiet hq rfl rfl htexts
  rw [(by decide +kernel : List.takeWhile accepts ["f(int)", "g(int x)", "h()"] = ["f(int)"])]
    at hlines
  rw [(by decide +kernel :
    List.dropWhile accepts ["f(int)", "g(int x)", "h()"] = ["g(int x)", "h()"])] at hend
  obtain ⟨name, _, hname, hnil, rfl⟩ := List.forall₂_cons_left_iff.1 hlines
  obtain rfl := List.forall₂_nil_left_iff.1 hnil
  have hf : linkerName "f(int)" = .ok "_ZN1fEi" := Except.eq_ok_of_toOption (by decide +kernel)
  obtain rfl : name = "_ZN1fEi" := Except.ok.inj (hname.symm.trans hf)
  obtain ⟨why, hwhy, -, hexit, hstderr⟩ := hend
  have hg : parse "g(int x)" = .error (.rejected
      ⟨⟨⟨.identifier, "x"⟩, ⟨0, 6⟩⟩, [.text ",", .text ")"], "g(int x)\n------^"⟩) :=
    Except.eq_error_of_error? (by decide +kernel)
  cases hwhy.symm.trans hg
  exact ⟨hstdout, hexit, hstderr.trans (by decide +kernel)⟩

end LinkerNames

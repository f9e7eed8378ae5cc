import LinkerNames.Proofs.CommandLine.Request
/-!
# Channels for a text

A text comes in through the standard input, whether by default or under the name of a dash, or
through a file; or the signatures that it holds are put among the arguments. The command ends in the
same way and prints and says the same, if its clock does.
-/

namespace LinkerNames

/-- A command reads a text, and prints to the standard output. -/
inductive Command.Reads (c : Command) (settings : Settings) (text : String) : Prop
  | standardInput : Request.AskedBy ⟨[], none, "-", settings⟩ c.args → c.stdin = text →
    Reads c settings text
  | dash : Request.AskedBy ⟨[], some "-", "-", settings⟩ c.args → c.stdin = text →
    Reads c settings text
  | file {name : String} : Request.AskedBy ⟨[], some name, "-", settings⟩ c.args → name ≠ "-" →
    c.files.read name = .ok text → Reads c settings text
  /-- The signatures of the text are arguments; without any there would be no arguments, and the
  standard input would be read. -/
  | arguments : Request.AskedBy ⟨signaturesOfText text, none, "-", settings⟩ c.args →
    signaturesOfText text ≠ [] → Reads c settings text

/-- What a command leaves behind that reads a text depends on the signatures in it. -/
theorem Command.Reads.run_eq {c : Command} {settings : Settings} {text : String}
    (h : c.Reads settings text) :
    c.run = c.report ⟨settings, signaturesOfText text, .standard⟩ := by
  cases h with
  | standardInput hargs hstdin => exact hstdin ▸ run_eq_report hargs (.standardInput rfl rfl)
  | dash hargs hstdin => exact hstdin ▸ run_eq_report hargs (.dash rfl)
  | file hargs hname hread => exact run_eq_report hargs (.file rfl hname hread)
  | arguments hargs hne => exact run_eq_report hargs (.arguments rfl hne)

/-! ## Main theorem -/

/-- Two commands with the same settings and the same clock that read the same text, through whatever
channels, end in the same way, with the same exit code, and print and say the same. -/
theorem channels_agree {c c' : Command} {settings : Settings} {text : String}
    (h : c.Reads settings text) (h' : c'.Reads settings text) (hclock : c.clock = c'.clock) :
    c.run.ending = c'.run.ending ∧ c.run.stdout = c'.run.stdout ∧
      c.run.stderr = c'.run.stderr := by
  rw [h.run_eq, h'.run_eq, Command.report, Command.report, hclock]
  exact ⟨rfl, rfl, rfl⟩

/-- Signatures in a text with line breaks of several kinds and a remark, and the same signatures as
arguments. -/
theorem channels_agree_arguments :
    let text := " f(int)\r\n  # a remark\rg(x)\u00a0\n"
    let settings : Settings := ⟨.symbol, 1⟩
    let c : Command := ⟨["-v"], text, [], []⟩
    let c' : Command := ⟨Request.args ⟨["f(int)", "g(x)"], none, "-", settings⟩, "", [], []⟩
    c.run.ending = c'.run.ending ∧ c.run.stdout = c'.run.stdout ∧
      c.run.stderr = c'.run.stderr := by
  intro text settings c c'
  have hsignatures : signaturesOfText text = ["f(int)", "g(x)"] := by decide +kernel
  have hargs : Request.AskedBy ⟨[], none, "-", settings⟩ c.args :=
    ⟨_, rfl, rfl, rfl, rfl, rfl, rfl⟩
  have hargs' : Request.AskedBy ⟨signaturesOfText text, none, "-", settings⟩ c'.args :=
    hsignatures ▸ Request.askedBy_args _
  exact channels_agree (.standardInput hargs rfl)
    (.arguments hargs' (hsignatures ▸ List.cons_ne_nil _ _)) rfl

end LinkerNames

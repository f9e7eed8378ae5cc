import LinkerNames.CommandLine.Command
import LinkerNames.Proofs.Runs
/-!
# What the command is asked to do

However the arguments of a command are put, all that counts of them is the signatures, the name of
the input, the name of the output, and the settings. A command that is asked for these and can read
its input handles the signatures that it gathers and nothing else happens: `run_eq_report`. So it
does not matter through which channel a text comes in.
-/

namespace LinkerNames

/-- The name of a format. -/
def Format.name : Format → String
  | .symbol => "symbol"
  | .tree => "tree"

/-- What is written before the value of an option. -/
def Slot.flag : Slot → String
  | .input => "-i"
  | .output => "-o"
  | .format => "-f"

/-- What a command is asked to do. -/
structure Request where
  signatures : List String
  input : Option String
  output : String
  settings : Settings

namespace Request

/-- The arguments ask for this, in whatever way. -/
def AskedBy (q : Request) (args : List String) : Prop :=
  ∃ o, Options.ofArguments args = .ok o ∧ o.help = false ∧ o.signatures = q.signatures ∧
    o.input = q.input ∧ o.output = q.output ∧ o.settings = .ok q.settings

/-- The options that say where a request is read from. -/
def inputOptions (q : Request) : List String :=
  match q.input with
  | none => []
  | some name => [Slot.flag .input, name]

/-- Arguments for a request: its options, and its signatures behind two dashes. -/
def args (q : Request) : List String :=
  q.inputOptions ++ Slot.flag .output :: q.output :: Slot.flag .format :: q.settings.format.name ::
    (List.replicate q.settings.verbosity "-v" ++ "--" :: q.signatures)

end Request

/-- The signatures that a command gathers for a request: those that stand among its arguments, and
then those of its input. Without either it is the standard input that is read. -/
inductive Command.Gathers (c : Command) (q : Request) : List String → Prop
  | arguments : q.input = none → q.signatures ≠ [] → Gathers c q q.signatures
  | standardInput : q.input = none → q.signatures = [] → Gathers c q (signaturesOfText c.stdin)
  | dash : q.input = some "-" → Gathers c q (q.signatures ++ signaturesOfText c.stdin)
  | file {name text : String} : q.input = some name → name ≠ "-" →
    c.files.read name = .ok text → Gathers c q (q.signatures ++ signaturesOfText text)

/-! ## Arguments that ask for something -/

namespace Options

theorem follow_flag (o : Options) (slot : Slot) (value : String) (rest : List String) :
    follow o (slot.flag :: value :: rest) = follow (o.set slot value) rest := by
  cases slot <;> rfl

theorem follow_verbose (o : Options) (n : Nat) (rest : List String) :
    follow o (List.replicate n "-v" ++ rest) =
      follow { o with verbosity := o.verbosity + n } rest := by
  induction n generalizing o with
  | zero => rfl
  | succ n ih =>
    rw [List.replicate_succ, List.cons_append]
    refine (ih o.louder).trans ?_
    rw [louder, Nat.add_assoc, Nat.add_comm 1 n]

theorem follow_signatures (o : Options) (texts : List String) :
    follow o ("--" :: texts) = .ok (o.add texts) :=
  rfl

/-- The name of a format stands for the format. -/
theorem settings_of_name {o : Options} {settings : Settings}
    (hformat : o.format = settings.format.name) (hverbosity : o.verbosity = settings.verbosity) :
    o.settings = .ok settings := by
  obtain ⟨format, verbosity⟩ := settings
  cases format <;> rw [Options.settings, hformat, hverbosity] <;> rfl

theorem start_of_ok {o : Options} {args : List String} (ho : ofArguments args = .ok o)
    (hhelp : o.help = false) : start args = .ok o := by
  rw [start, ho]
  exact if_neg (by simp [hhelp])

/-- With a format that is known, it depends on the input alone whether options can be followed. -/
theorem task_eq_map {o : Options} {settings : Settings} (hsettings : o.settings = .ok settings)
    (read : Channel → Except Ending String) :
    o.task read =
      (o.inputFrom read).map fun input => ⟨settings, o.allSignatures input, o.sink⟩ := by
  have hformat : (MonadExcept.ofExcept (o.settings.mapError .misused) : Except Ending Settings) =
      .ok settings := by
    rw [hsettings]
    rfl
  have hcheck (slot : Slot) :
      o.check read slot = .ok () ∨ o.check read slot = (o.inputFrom read).map fun _ => () := by
    cases slot with
    | input => exact .inr rfl
    | output => exact .inl rfl
    | format => exact .inl (by rw [check, hformat]; rfl)
  have hall := Except.forM_eq_ok_or hcheck o.given
  rw [task, hformat]
  cases hinput : o.inputFrom read <;> rw [hinput] at hall <;>
    obtain hall | hall := hall <;> rw [hall] <;> rfl

end Options

/-- Each request can be put into arguments. -/
theorem Request.askedBy_args (q : Request) : q.AskedBy q.args := by
  obtain ⟨signatures, input, output, settings⟩ := q
  have hbehind (o : Options) := calc
    Options.follow o (Slot.flag .output :: output :: Slot.flag .format :: settings.format.name ::
        (List.replicate settings.verbosity "-v" ++ "--" :: signatures))
    _ = Options.follow ((o.set .output output).set .format settings.format.name)
        (List.replicate settings.verbosity "-v" ++ "--" :: signatures) := by
      rw [Options.follow_flag, Options.follow_flag]
    _ = _ := by rw [Options.follow_verbose, Options.follow_signatures]
  cases input with
  | none =>
    exact ⟨_, hbehind .initial, rfl, rfl, rfl, rfl,
      Options.settings_of_name rfl (Nat.zero_add _)⟩
  | some name =>
    exact ⟨_, (Options.follow_flag _ .input name _).trans (hbehind _), rfl, rfl, rfl, rfl,
      Options.settings_of_name rfl (Nat.zero_add _)⟩

/-! ## Runs -/

/-- Names but the dash are names of files. -/
theorem Channel.named_of_ne {name : String} (h : name ≠ "-") : named name = .file name :=
  if_neg h

namespace Command

variable {c c' : Command} {q q' : Request} {texts : List String}

/-- What is gathered depends on the signatures, the name of the input, and what is read. -/
theorem Gathers.congr (h : c.Gathers q texts) (hsignatures : q'.signatures = q.signatures)
    (hinput : q'.input = q.input) (hstdin : c'.stdin = c.stdin) (hfiles : c'.files = c.files) :
    c'.Gathers q' texts := by
  cases h with
  | arguments hnone hne =>
    exact hsignatures ▸ .arguments (hinput.trans hnone) (hsignatures ▸ hne)
  | standardInput hnone hnil =>
    exact hstdin ▸ .standardInput (hinput.trans hnone) (hsignatures.trans hnil)
  | dash hdash => exact hsignatures ▸ hstdin ▸ .dash (hinput.trans hdash)
  | file hname hne hread =>
    exact hsignatures ▸ .file (hinput.trans hname) hne (hfiles ▸ hread)

/-- The input can be read of which signatures are gathered. -/
theorem Gathers.exists_input (h : c.Gathers q texts) {o : Options}
    (hsignatures : o.signatures = q.signatures) (hinput : o.input = q.input) :
    ∃ input, c.input o = .ok input ∧ o.allSignatures input = texts := by
  unfold Command.input Options.inputFrom Options.source Options.allSignatures
  rw [hsignatures, hinput]
  cases h with
  | arguments hnone hne =>
    rw [hnone]
    refine ⟨none, ?_, List.append_nil _⟩
    rw [if_neg hne]
    rfl
  | standardInput hnone hnil =>
    rw [hnone, hnil]
    exact ⟨some c.stdin, rfl, rfl⟩
  | dash hdash =>
    rw [hdash]
    exact ⟨some c.stdin, rfl, rfl⟩
  | @file name text hname hne hread =>
    rw [hname]
    refine ⟨some text, ?_, rfl⟩
    change some <$> c.textFrom (.named name) = _
    rw [Channel.named_of_ne hne, textFrom, hread]
    rfl

/-! ## Reports -/

section
variable {settings : Settings} {ending : Ending} {p : Progress} {name : String}

theorem report_standard (h : handled c.clock settings texts = (ending, p)) :
    c.report ⟨settings, texts, .named "-"⟩ =
      ⟨ending, Text.unlines p.output, Text.unlines p.log, c.files⟩ := by
  rw [report, h]
  rfl

/-- What is printed to a file becomes its text. -/
theorem report_file {target : Target} (h : handled c.clock settings texts = (ending, p))
    (hname : name ≠ "-") (htarget : c.files.target name = .ok target) :
    c.report ⟨settings, texts, .named name⟩ =
      ⟨ending, "", Text.unlines p.log, c.files.writeTo target (Text.unlines p.output)⟩ := by
  rw [report, h, Channel.named_of_ne hname]
  simp only [htarget]

end

section
variable {o : Options} {settings : Settings} (ho : Options.ofArguments c.args = .ok o)
  (hhelp : o.help = false) (hsettings : o.settings = .ok settings)
include ho hhelp hsettings

theorem perform_eq_map : perform c.args c.textFrom (fun task => return c.report task) =
    (c.input o).map fun input => c.report ⟨settings, o.allSignatures input, o.sink⟩ := by
  rw [perform, Options.start_of_ok ho hhelp, input]
  change (o.task c.textFrom >>= fun task => .ok (c.report task)) = _
  rw [Options.task_eq_map hsettings]
  cases o.inputFrom c.textFrom <;> rfl

/-- With a format that is known, a command comes to its signatures if it can read its input. -/
theorem run_of_input {input : Option String} (hinput : c.input o = .ok input) :
    c.run = c.report ⟨settings, o.allSignatures input, o.sink⟩ := by
  rw [run, perform_eq_map ho hhelp hsettings, hinput]
  rfl

theorem run_of_input_error {e : Ending} (hinput : c.input o = .error e) : c.run = c.idle e := by
  rw [run, perform_eq_map ho hhelp hsettings, hinput]
  rfl

end

/-- What a command leaves behind that can do what it is asked to do. -/
theorem run_eq_report (hq : q.AskedBy c.args) (htexts : c.Gathers q texts) :
    c.run = c.report ⟨q.settings, texts, .named q.output⟩ := by
  obtain ⟨o, ho, hhelp, hsignatures, hname, houtput, hsettings⟩ := hq
  obtain ⟨input, hinput, rfl⟩ := htexts.exists_input hsignatures hname
  rw [run_of_input ho hhelp hsettings hinput, Options.sink, houtput]

end Command
end LinkerNames

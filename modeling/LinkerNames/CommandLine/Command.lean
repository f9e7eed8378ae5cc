import LinkerNames.CommandLine.Directory
import LinkerNames.CommandLine.Options
import LinkerNames.CommandLine.Progress
import LinkerNames.CommandLine.Source
/-!
# The command

`Command.perform` follows the arguments wherever the command is run. `Command.run` says what that
does to the directory it runs in and to the streams it is given. All signatures are there before the
output is opened, so that one file may serve as both; opening it empties it, and what was printed
before a run stops is kept.
-/

namespace LinkerNames

/-- What the command finds when it is run. -/
structure Command where
  args : List String
  stdin : String
  files : Directory
  clock : List Reading

/-- How a run ends. -/
inductive Ending
  | finished
  | stopped (why : Stop)
  | misused (why : UsageError)
  /-- Asking for help was answered. -/
  | helped
deriving DecidableEq

/-- The number that a run leaves behind. -/
def Ending.exitCode : Ending → Nat
  | .finished | .helped => 0
  | .stopped _ => 1
  | .misused _ => 2

/-- What a run leaves behind. -/
structure Report where
  ending : Ending
  stdout : String
  stderr : String
  files : Directory

/-- What asking for help is answered. -/
def helpText : String :=
  Text.unlines
    ["Usage: [OPTIONS] [SIGNATURES]...", "",
      "  Print the linker name of each function SIGNATURE.", "",
      "  With no signatures and no --input, signatures are read from standard input.", "",
      "Options:",
      "  -i, --input FILENAME              Read one signature per line.",
      "  -o, --output FILENAME",
      "  -v, --verbose",
      "  -f, --output-format [symbol|tree]",
      "  --help                            Show this message and exit."]

/-- What is printed of a run that ends before any signature is handled. -/
def Ending.answer : Ending → String
  | .helped => helpText
  | .finished | .stopped _ | .misused _ => ""

/-- What is left to do when all options are followed. -/
structure Task where
  settings : Settings
  signatures : List String
  sink : Channel

namespace Options

/-- The options to follow, or how the run ends at once. -/
def start (args : List String) : Except Ending Options := do
  let o ← (ofArguments args).mapError .misused
  if o.help then throw .helped else return o

/-- The format and the degree of detail that were asked for. -/
def settings (o : Options) : Except UsageError Settings :=
  match Format.ofName? o.format with
  | some format => .ok ⟨format, o.verbosity⟩
  | none => .error (.unknownFormat o.format)

/-- All signatures in order: those on the command line, and those in the text that was read. -/
def allSignatures (o : Options) (input : Option String) : List String :=
  o.signatures ++ (input.map signaturesOfText).getD []

section
variable {m : Type → Type} [Monad m] [MonadExcept Ending m] (read : Channel → m String)

/-- The text that signatures are read from, if there is any, given how a channel is read. -/
def inputFrom (o : Options) : m (Option String) :=
  match o.source with
  | none => return none
  | some channel => some <$> read channel

/-- Looks whether the value of an option can be used. -/
def check (o : Options) : Slot → m Unit
  | .input => discard (o.inputFrom read)
  | .output => return ()
  | .format => discard (MonadExcept.ofExcept (o.settings.mapError .misused))

/-- What the options ask for. The first option whose value cannot be used ends the run. -/
def task (o : Options) : m Task := do
  o.given.forM (o.check read)
  let settings ← MonadExcept.ofExcept (o.settings.mapError .misused)
  let input ← o.inputFrom read
  return ⟨settings, o.allSignatures input, o.sink⟩

end

end Options

namespace Command

/-- Follows the arguments, given how a channel is read and how a task is done. -/
def perform {m : Type → Type} [Monad m] [MonadExcept Ending m] {α : Type} (args : List String)
    (read : Channel → m String) (act : Task → m α) : m α := do
  let o ← MonadExcept.ofExcept (Options.start args)
  let task ← o.task read
  act task

/-- The text that comes through a channel. -/
def textFrom (c : Command) : Channel → Except Ending String
  | .standard => .ok c.stdin
  | .file path =>
    match c.files.read path with
    | .ok text => .ok text
    | .error .holdsNul => .error (.stopped (.crashed (.path .holdsNul)))
    | .error _ => .error (.misused (.unreadableInput path))

/-- The text that signatures are read from, if there is any. -/
def input (c : Command) (o : Options) : Except Ending (Option String) :=
  o.inputFrom c.textFrom

/-- Handles signatures from the beginning. -/
def handled (clock : List Reading) (settings : Settings) (signatures : List String) :
    Ending × Progress :=
  match Console.handleAll (m := Run) settings signatures ⟨clock, [], []⟩ with
  | .ok _ p => (.finished, p)
  | .error why p => (.stopped why, p)

/-- The report of a run that ended before any signature was handled. -/
def idle (c : Command) (ending : Ending) : Report :=
  ⟨ending, ending.answer, "", c.files⟩

/-- The report of a run that comes to its signatures; a file for its output has to be opened
first. -/
def report (c : Command) (task : Task) : Report :=
  let (ending, p) := handled c.clock task.settings task.signatures
  let printed := Text.unlines p.output
  let said := Text.unlines p.log
  match task.sink with
  | .standard => ⟨ending, printed, said, c.files⟩
  | .file path =>
    match c.files.target path with
    | .error why => c.idle (.stopped (.crashed (.path why)))
    | .ok target => ⟨ending, "", said, c.files.writeTo target printed⟩

/-- What the command does. -/
def run (c : Command) : Report :=
  match perform c.args c.textFrom fun task => return c.report task with
  | .ok r => r
  | .error ending => c.idle ending

end Command
end LinkerNames

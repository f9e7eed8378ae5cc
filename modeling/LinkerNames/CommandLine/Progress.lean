import LinkerNames.CommandLine.Directory
import LinkerNames.CommandLine.Duration
import LinkerNames.CommandLine.Options
import LinkerNames.Encoding.LinkerName
/-!
# Handling signatures one after the other

Each signature gives one line of output. What is said about it on the way goes to the log: with
one degree of detail its symbol, with two also how long each stage took. The first signature that
is rejected ends the run after the log has said where and why.
-/

namespace LinkerNames

/-- Why a run breaks off without a word. -/
inductive Crash
  | signature (why : SignatureError)
  | encode (why : EncodeError)
  /-- A duration is a whole number too large to be shown. -/
  | duration
  /-- A file that has to be opened cannot be. -/
  | path (why : PathFault)
deriving DecidableEq

/-- Why no further signature is handled. -/
inductive Stop
  | rejected
  | crashed (why : Crash)
deriving DecidableEq

/-- How much is said, and what is printed. -/
structure Settings where
  format : Format
  verbosity : Nat
deriving DecidableEq, Repr

/-- Where signatures are handled: a clock can be read there, lines can be printed or said in a log,
and a run can be stopped. -/
class Console (m : Type → Type) where
  now : m Reading
  print : String → m Unit
  say : String → m Unit
  stop {α : Type} : Stop → m α

namespace Console

variable {m : Type → Type} [Monad m] [Console m]

/-- Does a stage and says how long it took, if it succeeds and so much detail was asked for. -/
def timed {α : Type} (settings : Settings) (stage : String) (work : Unit → m α) : m α :=
  if settings.verbosity < 2 then work ()
  else do
    let before ← now
    let result ← work ()
    let after ← now
    match milliseconds? before after with
    | none => stop (.crashed .duration)
    | some d =>
      say ("[timer] " ++ stage ++ " took " ++ showDuration d ++ " ms")
      return result

/-- The symbol of a signature. -/
def readSymbol (text : String) : m Symbol :=
  match Symbol.ofText text with
  | .ok s => return s
  | .error (.parse (.rejected r)) => do
    say r.context
    say ("Cannot parse " ++ Text.quoted text ++ ": " ++ r.message)
    stop .rejected
  | .error why => stop (.crashed (.signature why))

/-- The linker name of the symbol of a signature. -/
def encodeSymbol (text : String) (s : Symbol) : m String :=
  match s.linkerName with
  | .ok name => return name
  | .error (.notSymbol s) => stop (.crashed (.encode (.notSymbol s)))
  | .error why => do
    say ("Cannot mangle " ++ Text.quoted text ++ ": " ++ why.message)
    stop .rejected

/-- Handles one signature. -/
def handle (settings : Settings) (text : String) : m Unit := do
  let s ← timed settings "Parsing" fun _ => readSymbol text
  if 1 ≤ settings.verbosity then say ("[tree] " ++ s.displayed)
  match settings.format with
  | .tree => print s.displayed
  | .symbol =>
    let name ← timed settings "Mangling" fun _ => encodeSymbol text s
    print name

/-- Handles signatures in order until one stops the run. -/
def handleAll (settings : Settings) : List String → m Unit
  | [] => return ()
  | text :: texts => do
    handle settings text
    handleAll settings texts

end Console

/-- The readings of the clock that are left, and the lines printed and said so far. -/
structure Progress where
  clock : List Reading
  output : List String
  log : List String

/-- Goes on with a run or stops it; what was printed and said stays. -/
abbrev Run := EStateM Stop Progress

namespace Run

/-- Prints a line. -/
def print (line : String) : Run Unit :=
  modify fun p => { p with output := p.output ++ [line] }

/-- Says a line in the log. -/
def say (line : String) : Run Unit :=
  modify fun p => { p with log := p.log ++ [line] }

/-- Reads the clock. -/
def now : Run Reading := do
  let p ← get
  match p.clock with
  | [] => return .zero
  | t :: ts =>
    set { p with clock := ts }
    return t

/-- Stops the run. -/
def stop {α : Type} (why : Stop) : Run α := throw why

instance : Console Run := ⟨now, print, say, stop⟩

end Run
end LinkerNames

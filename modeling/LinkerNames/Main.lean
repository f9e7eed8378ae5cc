import LinkerNames.CommandLine.Command
/-!
# The program

Does what `Command.perform` and `Console.handleAll` say with the arguments, the streams, the files
and the clock of the system. Each signature is handled as soon as its turn comes, so that its lines
are there before the next one is looked at.
-/

namespace LinkerNames

/-- What is done before signatures are handled, unless the run ends there. -/
abbrev Preparation := ExceptT Ending IO

/-- What is done while signatures are handled, with the stream to print to. -/
abbrev Session := ReaderT IO.FS.Stream (ExceptT Stop IO)

/-- The clock of the system, read in seconds. -/
def readClock : IO Reading := do
  let nanoseconds ← IO.monoNanosNow
  return .measured (.ofDecimal false nanoseconds (-9))

instance : Console Session where
  now := readClock
  print line := do
    let output ← read
    output.putStr (Text.unlines [line])
    output.flush
  say line := IO.eprint (Text.unlines [line])
  stop why := throw why

/-- All that is left of a stream. -/
partial def readAll (stream : IO.FS.Stream) (before : String) : IO String := do
  let line ← stream.getLine
  if line.isEmpty then return before else readAll stream (before ++ line)

/-- The text that comes through a channel. -/
def readChannel : Channel → Preparation String
  | .standard => do readAll (← IO.getStdin) ""
  | .file path => do
    match ← (IO.FS.readFile path).toBaseIO with
    | .ok text => return text
    | .error _ => throw (.misused (.unreadableInput path))

/-- The stream to print to. -/
def openChannel : Channel → IO IO.FS.Stream
  | .standard => IO.getStdout
  | .file path => do
    let handle ← IO.FS.Handle.mk path .write
    return .ofHandle handle

/-- The text that comes through a channel, which is read only once. -/
def readOnce (known : IO.Ref (List (Channel × Except Ending String))) (channel : Channel) :
    Preparation String := ExceptT.mk do
  match (← known.get).lookup channel with
  | some result => return result
  | none =>
    let result ← (readChannel channel).run
    known.modify ((channel, result) :: ·)
    return result

/-- Handles signatures and answers how that ended. -/
def handleTask (task : Task) : Preparation Ending := do
  let output ← openChannel task.sink
  let session : Session Unit := Console.handleAll task.settings task.signatures
  match ← (session.run output).run with
  | .ok () => return .finished
  | .error why => return .stopped why

/-- Runs the program on its arguments and answers how the run ended. -/
def runProgram (args : List String) : IO Ending := do
  let known ← IO.mkRef []
  match ← (Command.perform args (readOnce known) handleTask).run with
  | .ok ending => return ending
  | .error ending =>
    IO.print ending.answer
    return ending

end LinkerNames

/-- The program leaves behind the exit code of its run. -/
def main (args : List String) : IO UInt32 := do
  let ending ← LinkerNames.runProgram args
  match ending with
  | .misused why => IO.eprintln why.message
  | _ => pure ()
  return ending.exitCode.toUInt32

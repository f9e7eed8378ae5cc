/-!
# Options on the command line

Options and signatures may stand in any order. Short options can be put together after one dash,
and the value of the last of them may follow at once or as the next argument; a long option takes
its value after an equals sign or as the next argument. Of an option that is given twice the last
value counts. Everything after `--` is a signature, and so is a single dash. As the name of a file
a dash means a standard stream.
-/

namespace LinkerNames

/-- The options that take a value. -/
inductive Slot
  | input
  | output
  | format
deriving DecidableEq, Repr

namespace Slot

/-- The option with this letter. -/
def ofLetter? : Char → Option Slot
  | 'i' => some .input
  | 'o' => some .output
  | 'f' => some .format
  | _ => none

/-- The long name of an option. -/
def longName : Slot → String
  | .input => "--input"
  | .output => "--output"
  | .format => "--output-format"

/-- The option with this long name. -/
def ofLongName? (name : String) : Option Slot :=
  [input, output, format].find? (·.longName == name)

end Slot

/-- What the arguments say. The options that were given values are in the order in which each
came first. -/
structure Options where
  signatures : List String
  input : Option String
  output : String
  format : String
  verbosity : Nat
  help : Bool
  given : List Slot
deriving DecidableEq, Repr

/-- Where text comes from or goes to. -/
inductive Channel
  | standard
  | file (path : String)
deriving DecidableEq, Repr

/-- The channel of this name. -/
def Channel.named (name : String) : Channel :=
  if name = "-" then .standard else .file name

/-- What is printed for a signature: its linker name, or the tree of its symbol. -/
inductive Format
  | symbol
  | tree
deriving DecidableEq, Repr

/-- The format of this name. -/
def Format.ofName? : String → Option Format
  | "symbol" => some .symbol
  | "tree" => some .tree
  | _ => none

/-- Why the arguments cannot be followed. -/
inductive UsageError
  | unknownOption (name : String)
  | missingValue (slot : Slot)
  | needlessValue (name : String)
  | unknownFormat (name : String)
  | unreadableInput (path : String)
deriving DecidableEq, Repr

/-- The sentence about arguments that cannot be followed. -/
def UsageError.message : UsageError → String
  | .unknownOption name => "No such option: " ++ name
  | .missingValue slot => "Option " ++ slot.longName ++ " requires an argument."
  | .needlessValue name => "Option " ++ name ++ " does not take a value."
  | .unknownFormat name => "Not an output format: " ++ name
  | .unreadableInput path => "Cannot open input file: " ++ path

namespace Options

/-- What an empty command line says. -/
def initial : Options := ⟨[], none, "-", "symbol", 0, false, []⟩

/-- Remembers that an option was given a value. -/
def give (o : Options) (slot : Slot) : Options :=
  if slot ∈ o.given then o else { o with given := o.given ++ [slot] }

/-- Gives an option its value. -/
def set (o : Options) (slot : Slot) (value : String) : Options :=
  let o := o.give slot
  match slot with
  | .input => { o with input := some value }
  | .output => { o with output := value }
  | .format => { o with format := value }

/-- Asks for one more degree of detail. -/
def louder (o : Options) : Options :=
  { o with verbosity := o.verbosity + 1 }

/-- Adds signatures after those that are there. -/
def add (o : Options) (signatures : List String) : Options :=
  { o with signatures := o.signatures ++ signatures }

/-- Follows short options that were put together. An option at their end that takes a value is
left to take the next argument. -/
def followLetters (o : Options) : List Char → Except UsageError (Options × Option Slot)
  | [] => .ok (o, none)
  | c :: cs =>
    if c = 'v' then followLetters o.louder cs
    else match Slot.ofLetter? c with
      | none => .error (.unknownOption (.ofList ['-', c]))
      | some slot => if cs = [] then .ok (o, some slot) else .ok (o.set slot (.ofList cs), none)

/-- Follows a long option with the value that is attached to it, if there is one. -/
def followLong (o : Options) (name : String) (value? : Option String) :
    Except UsageError (Options × Option Slot) :=
  match Slot.ofLongName? name, value? with
  | some slot, some value => .ok (o.set slot value, none)
  | some slot, none => .ok (o, some slot)
  | none, value? =>
    if name = "--verbose" ∨ name = "--help" then
      if value?.isSome then .error (.needlessValue name)
      else if name = "--verbose" then .ok (o.louder, none)
      else .ok ({ o with help := true }, none)
    else .error (.unknownOption name)

/-- The name and the value of a long option, which are parted by the first equals sign. -/
def partLong (cs : List Char) : String × Option String :=
  let name := String.ofList (cs.takeWhile (· != '='))
  match cs.dropWhile (· != '=') with
  | [] => (name, none)
  | _ :: value => (name, some (.ofList value))

/-- Follows one argument: what it says, and the option that takes the next argument. -/
def followArgument (o : Options) (arg : String) : Except UsageError (Options × Option Slot) :=
  match arg.toList with
  | '-' :: '-' :: cs =>
    let (name, value?) := partLong ('-' :: '-' :: cs)
    followLong o name value?
  | '-' :: c :: cs => followLetters o (c :: cs)
  | _ => .ok (o.add [arg], none)

/-- Follows the arguments from left to right. -/
def follow (o : Options) : List String → Except UsageError Options
  | [] => .ok o
  | arg :: rest =>
    if arg = "--" then .ok (o.add rest)
    else match followArgument o arg with
      | .error e => .error e
      | .ok (o, none) => follow o rest
      | .ok (o, some slot) =>
        match rest with
        | [] => .error (.missingValue slot)
        | value :: rest => follow (o.set slot value) rest

/-- What a whole command line says. -/
def ofArguments (args : List String) : Except UsageError Options :=
  follow initial args

/-- Where signatures are read from besides those on the command line: the file that is named, or
the standard input if there is nothing else. -/
def source (o : Options) : Option Channel :=
  match o.input with
  | some name => some (.named name)
  | none => if o.signatures = [] then some .standard else none

/-- Where the output goes to. -/
def sink (o : Options) : Channel :=
  .named o.output

end Options
end LinkerNames

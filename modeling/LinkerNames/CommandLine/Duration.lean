import LinkerNames.Number.Binary64
import LinkerNames.Number.FixedPlaces
/-!
# Durations between two readings of a clock

A clock is read in seconds. Whole numbers are subtracted as such; otherwise each step is one of
the binary64 format. A duration is shown in milliseconds with six decimal places.
-/

namespace LinkerNames

open Number

/-- A reading of a clock in seconds: a whole number of any size, or a number of the binary64
format. -/
inductive Reading
  | whole (seconds : Int)
  | measured (seconds : Binary64)
deriving DecidableEq

/-- What a clock shows that has no readings left. -/
def Reading.zero : Reading := .measured .zero

/-- A reading as a number of the binary64 format; none if it is out of range. -/
def Reading.value? : Reading → Option Binary64
  | .whole n => Binary64.ofInt? n
  | .measured x => some x

/-- The milliseconds in a second. -/
def millisecondsPerSecond : Nat := 1000

/-- The milliseconds from one reading to the next; none if a whole number is out of range. -/
def milliseconds? : Reading → Reading → Option Binary64
  | .whole a, .whole b => Binary64.ofInt? ((b - a) * millisecondsPerSecond)
  | a, b => do
    let x ← a.value?
    let y ← b.value?
    return (y.sub x).times millisecondsPerSecond

/-- A duration as it is shown, in four characters at least. -/
def showDuration : Binary64 → String
  | .finite negative size => .ofList (fixedPlaces 6 negative size)
  | .infinite false => " inf"
  | .infinite true => "-inf"
  | .undefined => " nan"

end LinkerNames

import LinkerNames.Number.Rounding
/-!
# Numbers with a fixed number of decimal places
-/

namespace LinkerNames.Number

/-- The digits of a number with zeros before them, `width` in all or more. -/
def paddedDigits (width n : Nat) : List Char :=
  let digits := Nat.toDigits 10 n
  List.replicate (width - digits.length) '0' ++ digits

/-- A number, given by its sign and its size, with so many decimal places after the point; of
two that are as near the one with the even last digit. The sign stays when nothing else does. -/
def fixedPlaces (places : Nat) (negative : Bool) (size : Rat) : List Char :=
  let unit := powerOfTen places
  let n := roundHalfEven (size.num.natAbs * unit) size.den
  (if negative then ['-'] else []) ++ Nat.toDigits 10 (n / unit) ++
    '.' :: paddedDigits places (n % unit)

end LinkerNames.Number

/-!
# Powers and rounding

Powers that scale a number, and the rounding of a quotient to the nearest whole number. A
quotient half way between two of them goes to the even one.
-/

namespace LinkerNames.Number

/-- The power of two with this exponent. -/
def powerOfTwo (n : Nat) : Nat := Nat.pow 2 n

/-- The power of ten with this exponent. -/
def powerOfTen (n : Nat) : Nat := Nat.pow 10 n

/-- The whole number nearest to `num / den`, the even one of two. -/
def roundHalfEven (num den : Nat) : Nat :=
  let whole := num / den
  let twice := 2 * (num % den)
  if den < twice ∨ (twice = den ∧ whole % 2 = 1) then whole + 1 else whole

end LinkerNames.Number

import LinkerNames.Number.Rounding
/-!
# Numbers of the binary64 format

A number of the format is kept as the fraction that it is, with its sign, which zero has too.
Fractions are rounded to the nearest number: fifty-three binary digits, none of them below
`2 ^ (-1074)`, and infinity from `2 ^ 1024` on. An operation of the format is the exact one,
rounded.
-/

namespace LinkerNames.Number

/-- A number of the format, or what an operation gives that has no result. -/
inductive Binary64
  | finite (negative : Bool) (size : Rat)
  | infinite (negative : Bool)
  | undefined
deriving DecidableEq

namespace Binary64

/-- How many binary digits a number has. -/
def precision : Nat := 53

/-- The exponent of the smallest positive number. -/
def minExponent : Int := -1074

/-- The exponent from which on numbers are infinite. -/
def maxExponent : Nat := 1024

/-! ## Rounding -/

/-- The fraction `num / den` in units of `2 ^ e`, as a numerator and a denominator. -/
def inUnits (num den : Nat) (e : Int) : Nat × Nat :=
  (num * powerOfTwo (-e).toNat, den * powerOfTwo e.toNat)

/-- The exponent of the last digit of `num / den`, which is not zero. -/
def lastDigit (num den : Nat) : Int :=
  let e : Int := (num.log2 : Int) - den.log2 - (precision - 1 : Nat)
  let (n, d) := inUnits num den e
  max minExponent (if n < powerOfTwo (precision - 1) * d then e - 1 else e)

/-- The size nearest to `num / den`, the even one of two; none where numbers are infinite. -/
def roundSize? (num den : Nat) : Option Rat :=
  if num = 0 then some 0
  else
    let e := lastDigit num den
    let (n, d) := inUnits num den e
    let digits := roundHalfEven n d
    let (n, d) := (digits * powerOfTwo e.toNat, powerOfTwo (-e).toNat)
    if n < powerOfTwo maxExponent * d then some (mkRat n d) else none

/-- The number nearest to `num / den` with the given sign. -/
def ofQuotient (negative : Bool) (num den : Nat) : Binary64 :=
  match roundSize? num den with
  | some size => .finite negative size
  | none => .infinite negative

/-- The number nearest to a fraction; `negativeZero` is the sign of the result for zero. -/
def ofRat (negativeZero : Bool) (x : Rat) : Binary64 :=
  ofQuotient (if x = 0 then negativeZero else x < 0) x.num.natAbs x.den

/-- The number nearest to a whole number, if there is one. -/
def ofInt? (n : Int) : Option Binary64 :=
  (roundSize? n.natAbs 1).map (.finite (n < 0))

/-- The number nearest to `digits * 10 ^ exponent` with the given sign. -/
def ofDecimal (negative : Bool) (digits : Nat) (exponent : Int) : Binary64 :=
  ofQuotient negative (digits * powerOfTen exponent.toNat) (powerOfTen (-exponent).toNat)

/-! ## Operations -/

/-- Zero without a minus sign. -/
def zero : Binary64 := .finite false 0

/-- The fraction with this sign and size. -/
def signed (negative : Bool) (size : Rat) : Rat :=
  if negative then -size else size

/-- The difference of two numbers. It is zero with a minus sign only when zero without one is
taken from zero with one. -/
def sub : Binary64 → Binary64 → Binary64
  | .finite m x, .finite n y => ofRat (m && !n) (signed m x - signed n y)
  | .infinite m, .infinite n => if m = n then .undefined else .infinite m
  | .infinite m, .finite .. => .infinite m
  | .finite .., .infinite n => .infinite (!n)
  | .undefined, _ | _, .undefined => .undefined

/-- A number a few times over; `k` is not zero. -/
def times (k : Nat) : Binary64 → Binary64
  | .finite negative x => ofQuotient negative (k * x.num.natAbs) x.den
  | .infinite negative => .infinite negative
  | .undefined => .undefined

end Binary64
end LinkerNames.Number

import GroupingPlanner.Decimal.Shortest
/-!
# Doubles as text

A double is written with the fewest digits that read back as it (`Decimal/Shortest.lean`), always
positionally and never with an exponent: `1e21` is a one and twenty-one zeros, and the least
positive double is written with 324 places.  A whole number has no point.  Zero keeps its sign.
What is not a number is written `NaN` whatever its sign, and the infinities are `inf` and `-inf`.
-/

namespace GroupingPlanner.Decimal

/-- A decimal written out positionally, without a point if it is a multiple of one. -/
def Scaled.positional (d : Scaled) : String :=
  let digits := Nat.toDigits 10 d.digits
  if 0 ≤ d.exponent then String.ofList (digits ++ List.replicate d.exponent.toNat '0')
  else
    let places := (-d.exponent).toNat
    -- at least one digit stands before the point
    let padded := List.replicate (places + 1 - digits.length) '0' ++ digits
    let whole := padded.length - places
    String.ofList (padded.take whole ++ '.' :: padded.drop whole)

/-- The exponent field of a double; 2047 marks what is not finite. -/
def exponentField (bits : UInt64) : Nat := bits.toNat / twoTo 52 % twoTo 11

/-- The fraction field of a double. -/
def fractionField (bits : UInt64) : Nat := bits.toNat % twoTo 52

/-- The text of the double whose bit pattern is `bits`. -/
def textOfBits (bits : UInt64) : String :=
  let sign := if bits.toNat / twoTo 63 = 1 then "-" else ""
  let e := exponentField bits
  let f := fractionField bits
  if e = 2047 then
    if f = 0 then sign ++ "inf" else "NaN"
  else if e = 0 ∧ f = 0 then sign ++ "0"
  else sign ++ (neighbourhood e f).shortest.positional

end GroupingPlanner.Decimal

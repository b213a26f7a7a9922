namespace RegisterMachine

/-- The number `digits * 10 ^ exponent`. -/
structure Decimal where
  digits : Nat
  exponent : Int
deriving DecidableEq, Repr

namespace Decimal

/-- A one and so many zeros. -/
def powerOfTen (n : Nat) : Nat := Nat.pow 10 n

/-- The digits of the whole part and of the part behind the point, for `places` places. -/
def splitAtPoint (digits : List Char) (places : Nat) : List Char × List Char :=
  let padded := List.replicate (places + 1 - digits.length) '0' ++ digits
  (padded.take (padded.length - places), padded.drop (padded.length - places))

/-- All digits written out: zeros fill the places up to the point, and without places behind the
point there is no point. -/
def positional (d : Decimal) : String :=
  let digits := Nat.toDigits 10 d.digits
  if 0 ≤ d.exponent then
    String.ofList (digits ++ List.replicate d.exponent.toNat '0')
  else
    let (whole, fraction) := splitAtPoint digits d.exponent.natAbs
    String.ofList (whole ++ '.' :: fraction)

end Decimal

end RegisterMachine

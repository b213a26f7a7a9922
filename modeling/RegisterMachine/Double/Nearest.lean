import RegisterMachine.Decimal
import RegisterMachine.Double

namespace RegisterMachine.Double

/-- The pattern, without the sign, of the double nearest to the positive number `num / den`. The
last place has the weight `2 ^ e`; a significand of fifty-three bits that carries moves on to the
next exponent by itself. -/
def nearestBits (num den : Nat) : Nat :=
  let guess : Int := (num.log2 : Int) - den.log2
  let small := num <<< (-guess).toNat < den <<< guess.toNat
  let e : Int := max (guess - (if small then 53 else 52)) (-1074)
  let scaledNum := num <<< (-e).toNat
  let scaledDen := den <<< e.toNat
  let q := scaledNum / scaledDen
  let r := scaledNum % scaledDen
  let m := if 2 * r < scaledDen || (2 * r == scaledDen && q % 2 == 0) then q else q + 1
  min (2047 * fractionCount) ((e + 1074).toNat * fractionCount + m)

/-- The double nearest to `digits * 10 ^ exponent`. Numbers far outside the range of doubles are
settled by their count of digits. -/
def nearest (negative : Bool) (digits : Nat) (exponent : Int) : Double :=
  let magnitude : Int := (Nat.toDigits 10 digits).length + exponent
  let bits :=
    if digits = 0 ∨ magnitude < -330 then 0
    else if 310 < magnitude then 2047 * fractionCount
    else nearestBits (digits * Decimal.powerOfTen exponent.toNat)
      (Decimal.powerOfTen (-exponent).toNat)
  ⟨UInt64.ofNat ((if negative then signWeight else 0) + bits)⟩

/-- The number that a row of decimal digits stands for. -/
def digitsValue (ds : List Char) : Nat :=
  ds.foldl (fun n c => n * 10 + (c.toNat - '0'.toNat)) 0

/-- The sign in front of a number, and what follows it. -/
def splitSign : List Char → Bool × List Char
  | '-' :: rest => (true, rest)
  | '+' :: rest => (false, rest)
  | rest => (false, rest)

/-- The power of ten behind the digits: nothing, or an `e` of either case with a whole number. -/
def exponent? : List Char → Option Int
  | [] => some 0
  | c :: rest =>
    if c = 'e' ∨ c = 'E' then
      let (negative, ds) := splitSign rest
      if ds ≠ [] ∧ ds.all Char.isDigit then
        some (if negative then -(digitsValue ds : Int) else digitsValue ds)
      else none
    else none

/-- A number without sign: digits with at most one point among them, then the exponent. There is a
digit before or behind the point. -/
def number? (negative : Bool) (s : List Char) : Option Double :=
  let whole := s.takeWhile Char.isDigit
  let rest := s.dropWhile Char.isDigit
  let (fraction, rest) :=
    match rest with
    | '.' :: rest => (rest.takeWhile Char.isDigit, rest.dropWhile Char.isDigit)
    | _ => ([], rest)
  if whole = [] ∧ fraction = [] then none
  else (exponent? rest).map fun e =>
    nearest negative (digitsValue (whole ++ fraction)) (e - fraction.length)

/-- Reads a double. Names may be written in either case. -/
def ofText? (s : String) : Option Double :=
  let (negative, rest) := splitSign s.toList
  let lower := rest.map Char.toLower
  if lower = "inf".toList ∨ lower = "infinity".toList then some (infinity negative)
  else if lower = "nan".toList then some (nan negative)
  else number? negative rest

end RegisterMachine.Double

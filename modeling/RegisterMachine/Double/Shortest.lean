import RegisterMachine.Decimal
import RegisterMachine.Double

namespace RegisterMachine.Double

/-- The numbers that round to a positive finite double, as quarters of its last place over a common
denominator. -/
structure Rounding where
  /-- Lower end of the interval. -/
  low : Nat
  /-- The double itself. -/
  value : Nat
  /-- Upper end of the interval. -/
  high : Nat
  /-- Common denominator. -/
  denominator : Nat
  /-- The two ends round to the double too. -/
  closed : Bool

/-- The interval around a positive finite double: half a unit in the last place to either side, but
only a quarter downwards from a power of two, where the doubles below lie twice as close. -/
def rounding (d : Double) : Rounding :=
  let m := d.significand
  let e := d.exponent - 2
  let unit := 1 <<< e.toNat
  let below := if d.fraction = 0 ∧ 1 < d.exponentField then 1 else 2
  { low := (4 * m - below) * unit
    value := 4 * m * unit
    high := (4 * m + 2) * unit
    denominator := 1 <<< (-e).toNat
    closed := m % 2 = 0 }

/-- The number `n / r.denominator` lies in the interval; all is multiplied by `scale`. -/
def Rounding.contains (r : Rounding) (scale n : Nat) : Bool :=
  if r.closed then r.low * scale ≤ n && n ≤ r.high * scale
  else r.low * scale < n && n < r.high * scale

/-- The grid point of `10 ^ p` that lies in the interval: of the two next to the double the nearer
one, and the upper one if both are equally near. -/
def Rounding.onGrid? (r : Rounding) (p : Int) : Option Decimal :=
  let scale := Decimal.powerOfTen (-p).toNat
  let step := r.denominator * Decimal.powerOfTen p.toNat
  let value := r.value * scale
  let lower := value / step
  let upper := lower + 1
  match r.contains scale (lower * step), r.contains scale (upper * step) with
  | true, true =>
    if value - lower * step < upper * step - value then some ⟨lower, p⟩ else some ⟨upper, p⟩
  | true, false => some ⟨lower, p⟩
  | false, true => some ⟨upper, p⟩
  | false, false => none

/-- The shortest decimal of a positive finite double. No double has a digit above `10 ^ 309`, and
steps of `10 ^ (-324)` tell all doubles apart. -/
def shortest (d : Double) : Decimal :=
  ((List.range 634).findSome? fun (i : Nat) => d.rounding.onGrid? (309 - (i : Int))).getD ⟨0, 0⟩

/-- The text of a double: the shortest decimal, written without an exponent. The sign of zero is
shown, that of a pattern which is no number is not. -/
def text (d : Double) : String :=
  let sign := if d.isNegative then "-" else ""
  if d.isNaN then "NaN"
  else if d.isInfinite then sign ++ "inf"
  else if d.significand = 0 then sign ++ "0"
  else sign ++ d.shortest.positional

end RegisterMachine.Double

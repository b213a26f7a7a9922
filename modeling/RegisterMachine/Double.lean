namespace RegisterMachine

/-- A double precision number, given by its 64-bit pattern. -/
structure Double where
  /-- Sign, eleven exponent bits and fifty-two fraction bits, from the high end. -/
  bits : UInt64
deriving DecidableEq, Inhabited

namespace Double

/-- The value of the sign bit. -/
def signWeight : Nat := 0x8000000000000000

/-- The number of patterns of the eleven exponent bits. -/
def exponentCount : Nat := 0x800

/-- The number of patterns of the fifty-two fraction bits. -/
def fractionCount : Nat := 0x10000000000000

/-- The number that the pattern stands for. -/
def toFloat (d : Double) : Float := Float.ofBits d.bits

/-- The pattern of a number. -/
def ofFloat (f : Float) : Double := ⟨f.toBits⟩

/-- The sign bit is set. -/
def isNegative (d : Double) : Bool := signWeight ≤ d.bits.toNat

/-- The eleven exponent bits. -/
def exponentField (d : Double) : Nat := d.bits.toNat / fractionCount % exponentCount

/-- The fifty-two fraction bits. -/
def fraction (d : Double) : Nat := d.bits.toNat % fractionCount

/-- The pattern is one of those that stand for no number. -/
def isNaN (d : Double) : Bool := d.exponentField == 2047 && d.fraction != 0

/-- The pattern is one of the two infinities. -/
def isInfinite (d : Double) : Bool := d.exponentField == 2047 && d.fraction == 0

/-- The number of units in the last place, for a finite double. -/
def significand (d : Double) : Nat :=
  if d.exponentField = 0 then d.fraction else fractionCount + d.fraction

/-- The exponent to base two of a unit in the last place, for a finite double. -/
def exponent (d : Double) : Int :=
  (if d.exponentField = 0 then 1 else (d.exponentField : Int)) - 1075

/-- The pattern with the given sign, exponent field and fraction. -/
def ofFields (negative : Bool) (exponentField fraction : Nat) : Double :=
  ⟨UInt64.ofNat ((if negative then signWeight else 0) + exponentField * fractionCount + fraction)⟩

/-- The infinity of the given sign. -/
def infinity (negative : Bool) : Double := ofFields negative 2047 0

/-- The quiet pattern of the given sign that stands for no number. -/
def nan (negative : Bool) : Double := ofFields negative 2047 (fractionCount / 2)

/-- The sum, rounded to a double. -/
def add (a b : Double) : Double := ofFloat (a.toFloat + b.toFloat)

/-- The difference, rounded to a double. -/
def sub (a b : Double) : Double := ofFloat (a.toFloat - b.toFloat)

/-- The product, rounded to a double. -/
def mul (a b : Double) : Double := ofFloat (a.toFloat * b.toFloat)

/-- The quotient, rounded to a double. -/
def div (a b : Double) : Double := ofFloat (a.toFloat / b.toFloat)

/-- The order of numbers; a pattern that is no number is below none and above none. -/
def lt (a b : Double) : Bool := a.toFloat < b.toFloat

/-- Equality of numbers: the two zeros are equal, and a pattern that is no number equals none. -/
def numEq (a b : Double) : Bool := a.toFloat == b.toFloat

/-- One of the two zeros. -/
def isZero (d : Double) : Bool := d.numEq ⟨0⟩

end Double

end RegisterMachine

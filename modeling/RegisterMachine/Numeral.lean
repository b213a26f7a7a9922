import RegisterMachine.Text.Hexadecimal

namespace RegisterMachine.Numeral

/-- The bound on the magnitude of literals. -/
def bound : Nat := 0x80000000000000000000000000000000

/-- The number that digits to the given base stand for; there has to be a digit, and each has to be
one of the base. -/
def digits? (base : Nat) (digits : List Char) : Option Nat :=
  if digits = [] then none
  else digits.foldl
    (fun n c => do
      let n ← n
      let v ← Hexadecimal.digitValue? c
      if v < base then some (n * base + v) else none)
    (some 0)

/-- The number without sign that a literal stands for. -/
def magnitude? : List Char → Option Nat
  | '0' :: 'x' :: digits => digits? 16 digits
  | '0' :: 'X' :: digits => digits? 16 digits
  | digits => digits? 10 digits

/-- The integer that a literal stands for. -/
def parse? (s : List Char) : Option Int :=
  let (negative, digits) :=
    match s with
    | '-' :: digits => (true, digits)
    | digits => (false, digits)
  match magnitude? digits with
  | none => none
  | some n => if n < bound then some (if negative then -(n : Int) else n) else none

/-- The integer that a literal stands for, if it lies in a range, ends included. -/
def parseWithin? (low high : Int) (s : List Char) : Option Int :=
  match parse? s with
  | none => none
  | some z => if low ≤ z ∧ z ≤ high then some z else none

/-- A value of 64 bits: literals from `-2 ^ 63` to `2 ^ 64 - 1`, modulo `2 ^ 64`. -/
def quad? (s : List Char) : Option UInt64 :=
  (parseWithin? (-0x8000000000000000) 0xFFFFFFFFFFFFFFFF s).map UInt64.ofInt

/-- A natural number of 64 bits. -/
def index? (s : List Char) : Option UInt64 :=
  (parseWithin? 0 0xFFFFFFFFFFFFFFFF s).map UInt64.ofInt

end RegisterMachine.Numeral

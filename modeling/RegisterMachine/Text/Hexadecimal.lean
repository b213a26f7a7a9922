namespace RegisterMachine.Hexadecimal

/-- The lower-case digit of a number below sixteen. -/
def digit (n : Nat) : Char :=
  if n < 10 then Char.ofNat (n + '0'.toNat) else Char.ofNat (n - 10 + 'a'.toNat)

/-- The value of a digit of either case. -/
def digitValue? (c : Char) : Option Nat :=
  if '0' ≤ c ∧ c ≤ '9' then some (c.toNat - '0'.toNat)
  else if 'a' ≤ c ∧ c ≤ 'f' then some (c.toNat - 'a'.toNat + 10)
  else if 'A' ≤ c ∧ c ≤ 'F' then some (c.toNat - 'A'.toNat + 10)
  else none

/-- The two digits of a byte. -/
def ofByte (b : UInt8) : List Char :=
  [digit (b.toNat / 16), digit (b.toNat % 16)]

/-- Two digits for each byte. -/
def ofBytes (bs : List UInt8) : String :=
  String.ofList (bs.flatMap ofByte)

/-- A byte as it stands in messages: two digits behind the mark of the base. -/
def marked (b : UInt8) : String :=
  "0x" ++ String.ofList (ofByte b)

end RegisterMachine.Hexadecimal

namespace RegisterMachine.Text

/-- The character that stands for bytes that are no text. -/
def replacement : Char := '\uFFFD'

/-- A character of which the first bytes have been read. -/
structure Partial where
  /-- The bits collected so far. -/
  bits : Nat
  /-- The number of bytes still to come. -/
  owed : Nat
  /-- The least value that the next byte may have. -/
  low : Nat
  /-- The greatest value that the next byte may have. -/
  high : Nat

/-- What the first byte of a character leaves: text that is complete, or a character begun. -/
def firstByte (b : Nat) : List Char × Option Partial :=
  if b < 0x80 then ([Char.ofNat b], none)
  else if 0xC2 ≤ b ∧ b ≤ 0xDF then ([], some ⟨b - 0xC0, 1, 0x80, 0xBF⟩)
  else if b = 0xE0 then ([], some ⟨0, 2, 0xA0, 0xBF⟩)
  else if b = 0xED then ([], some ⟨0x0D, 2, 0x80, 0x9F⟩)
  else if 0xE1 ≤ b ∧ b ≤ 0xEF then ([], some ⟨b - 0xE0, 2, 0x80, 0xBF⟩)
  else if b = 0xF0 then ([], some ⟨0, 3, 0x90, 0xBF⟩)
  else if 0xF1 ≤ b ∧ b ≤ 0xF3 then ([], some ⟨b - 0xF0, 3, 0x80, 0xBF⟩)
  else if b = 0xF4 then ([], some ⟨4, 3, 0x80, 0x8F⟩)
  else ([replacement], none)

/-- What one more byte leaves: a byte that cannot go on with the character begins anew. -/
def nextByte (begun : Option Partial) (b : Nat) : List Char × Option Partial :=
  match begun with
  | none => firstByte b
  | some p =>
    if p.low ≤ b ∧ b ≤ p.high then
      let bits := p.bits * 64 + (b - 0x80)
      if p.owed = 1 then ([Char.ofNat bits], none) else ([], some ⟨bits, p.owed - 1, 0x80, 0xBF⟩)
    else
      let (text, begun) := firstByte b
      (replacement :: text, begun)

/-- The text of bytes that follow a character begun. -/
def ofBytesFrom (begun : Option Partial) : List UInt8 → List Char
  | [] => if begun.isSome then [replacement] else []
  | b :: rest =>
    let (text, begun) := nextByte begun b.toNat
    text ++ ofBytesFrom begun rest

/-- The text of any bytes. -/
def ofBytesLossy (bs : List UInt8) : String :=
  String.ofList (ofBytesFrom none bs)

end RegisterMachine.Text

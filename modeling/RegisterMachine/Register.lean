namespace RegisterMachine

/-- A register that an instruction can name. -/
inductive Register where
  /-- Reads as zero in every instruction. -/
  | x0
  /-- Reads as one in every instruction. -/
  | x1
  /-- Index of the next instruction. -/
  | ip
  /-- Number of bytes on the stack. -/
  | sp
  /-- Frame pointer, free for the program's use. -/
  | fp
  /-- General purpose integer registers. -/
  | int (i : Fin 10)
  /-- General purpose float registers. -/
  | float (i : Fin 10)
  /-- Whether the last operation that can fail succeeded. -/
  | op
deriving DecidableEq, Repr

namespace Register

/-- The id in the image: each bank starts at a multiple of sixteen. -/
def id : Register → UInt8
  | x0 => 0x00
  | x1 => 0x01
  | ip => 0x02
  | sp => 0x03
  | fp => 0x04
  | int i => 0x10 + UInt8.ofNat i
  | float i => 0x20 + UInt8.ofNat i
  | op => 0xFF

/-- The register that holds the exit code of a program. -/
def result : Register := int 0

/-- The name in assembly text. -/
def name : Register → String
  | x0 => "x0"
  | x1 => "x1"
  | ip => "ip"
  | sp => "sp"
  | fp => "fp"
  | int i => "i" ++ toString i.val
  | float i => "f" ++ toString i.val
  | op => "op"

/-- Every register, by ascending id. -/
def all : List Register :=
  [x0, x1, ip, sp, fp] ++ (List.finRange 10).map int ++ (List.finRange 10).map float ++ [op]

/-- The register with the given id. -/
def ofId? (b : UInt8) : Option Register :=
  all.find? (·.id == b)

/-- The register with the given name; case matters. -/
def ofName? (s : String) : Option Register :=
  all.find? (·.name == s)

/-- The position in the bank of integer registers. -/
def integerIndex? : Register → Option (Fin 10)
  | int i => some i
  | _ => none

/-- The position in the bank of float registers. -/
def floatIndex? : Register → Option (Fin 10)
  | float i => some i
  | _ => none

/-- The register is restored before every instruction. -/
def isConstant (r : Register) : Bool :=
  r = x0 || r = x1

theorem ofId?_id (r : Register) : ofId? r.id = some r := by
  cases r with
  | int i => revert i; decide
  | float i => revert i; decide
  | _ => decide

theorem ofName?_name (r : Register) : ofName? r.name = some r := by
  cases r with
  | int i => revert i; decide +kernel
  | float i => revert i; decide +kernel
  | _ => decide +kernel

theorem id_of_ofId? {b : UInt8} {r : Register} (h : ofId? b = some r) : r.id = b := by
  simpa using List.find?_some h

theorem name_of_ofName? {s : String} {r : Register} (h : ofName? s = some r) : r.name = s := by
  simpa using List.find?_some h

end Register

end RegisterMachine

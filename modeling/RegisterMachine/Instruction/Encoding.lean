import RegisterMachine.Binary
import RegisterMachine.Instruction
import RegisterMachine.Text.Hexadecimal

namespace RegisterMachine

/-- Why bytes could not be read as instructions. -/
inductive CodeError where
  /-- No opcode has this byte. -/
  | unknownOpcode (byte : UInt8)
  /-- The stream ends inside the instruction that starts at the offset. -/
  | cutShort (op : Opcode) (offset : Nat)
  /-- There are too many or too few operand bytes for the opcode. -/
  | operandBytes (op : Opcode) (actual : Nat)
  /-- No register has this id. -/
  | unknownRegister (id : UInt8)
deriving DecidableEq, Repr

namespace CodeError

/-- The text shown for the error. -/
def message : CodeError → String
  | unknownOpcode b => "unknown opcode " ++ Hexadecimal.marked b
  | cutShort op offset =>
    "instruction stream ends inside `" ++ op.mnemonic ++ "` at byte " ++ toString offset
  | operandBytes op actual =>
    "`" ++ op.mnemonic ++ "` expects " ++ toString op.operandBytes ++ " operand bytes, got "
      ++ toString actual
  | unknownRegister b => "unknown register id " ++ Hexadecimal.marked b

end CodeError

/-- The opcode of a byte. -/
def Opcode.ofByte (b : UInt8) : Except CodeError Opcode :=
  match Opcode.ofByte? b with
  | some op => .ok op
  | none => .error (.unknownOpcode b)

/-- The register with an id. -/
def Register.ofId (b : UInt8) : Except CodeError Register :=
  match Register.ofId? b with
  | some r => .ok r
  | none => .error (.unknownRegister b)

namespace Operand

/-- The bytes of an operand. -/
def encode : Operand → Bytes
  | register r => [r.id]
  | target n | immediate n | number n => Binary.encode n

/-- Reads the operand of a kind from exactly its bytes. -/
def decode (k : OperandKind) (bs : Bytes) : Except CodeError Operand :=
  match k with
  | .register => register <$> Register.ofId (UInt8.ofNat bs.toNat)
  | .target => .ok (target (UInt64.ofNat bs.toNat))
  | .immediate => .ok (immediate (UInt64.ofNat bs.toNat))
  | .number => .ok (number (UInt64.ofNat bs.toNat))

/-- Reads the operands of the given kinds one after the other. -/
def decodeAll : List OperandKind → Bytes → Except CodeError (List Operand)
  | [], _ => .ok []
  | k :: ks, bs => do
    let operand ← decode k (bs.take k.size)
    let operands ← decodeAll ks (bs.drop k.size)
    pure (operand :: operands)

end Operand

namespace Instruction

/-- The bytes of an instruction. -/
def encode (i : Instruction) : Bytes :=
  i.opcode.byte :: i.operands.flatMap Operand.encode

/-- Reads the instruction with the given opcode from exactly its operand bytes. -/
def ofBytes (op : Opcode) (bs : Bytes) : Except CodeError Instruction :=
  if bs.length = op.operandBytes then do
    let operands ← Operand.decodeAll op.operandKinds bs
    match ofOperands? op operands with
    | some i => pure i
    | none => throw (.operandBytes op bs.length)
  else
    .error (.operandBytes op bs.length)

/-- Reads the instruction with the given opcode byte from exactly its operand bytes. -/
def decode (byte : UInt8) (bs : Bytes) : Except CodeError Instruction := do
  ofBytes (← Opcode.ofByte byte) bs

end Instruction

namespace Code

/-- The code stream of a list of instructions. -/
def encode (is : List Instruction) : Bytes :=
  is.flatMap Instruction.encode

/-- Reads the instructions of a stream whose first byte has the given offset. -/
def decodeFrom (offset : Nat) (code : Bytes) : Except CodeError (List Instruction) :=
  match code with
  | [] => .ok []
  | byte :: rest => do
    let op ← Opcode.ofByte byte
    if op.operandBytes ≤ rest.length then
      let i ← Instruction.ofBytes op (rest.take op.operandBytes)
      let is ← decodeFrom (offset + op.size) (rest.drop op.operandBytes)
      pure (i :: is)
    else
      throw (.cutShort op offset)
termination_by code.length
decreasing_by simp only [List.length_drop, List.length_cons]; omega

/-- Reads the instructions of a stream, up to its end. -/
def decode (code : Bytes) : Except CodeError (List Instruction) :=
  decodeFrom 0 code

end Code

end RegisterMachine

import Mathlib
import RegisterMachine.Proofs.Checked.Reader
import RegisterMachine.Proofs.Code.Instruction

namespace RegisterMachine.Checked

namespace Operand

variable {α : Type}

/-- Reads a part of the operands; a failure tells how many bytes there were. -/
def part (op : Opcode) (r : Reader DecodeError α) : Reader CodeError α := do
  let left ← Reader.remaining
  r.mapError fun _ => .operandBytes op left

def read (op : Opcode) : OperandKind → Reader CodeError Operand
  | .register => do
    let id ← part op Reader.byte
    match Register.ofId id with
    | .ok r => pure (.register r)
    | .error e => throw e
  | .target => .target <$> part op (Reader.number 8 UInt64.ofNat)
  | .immediate => .immediate <$> part op (Reader.number 8 UInt64.ofNat)
  | .number => .number <$> part op (Reader.number 8 UInt64.ofNat)

/-- Reads the operands of the given kinds one after the other. -/
def readAll (op : Opcode) : List OperandKind → Reader CodeError (List Operand)
  | [] => pure []
  | kind :: kinds => do
    let operand ← read op kind
    let operands ← readAll op kinds
    pure (operand :: operands)

end Operand

namespace Code

/-- Reads the instruction with the given opcode byte from exactly its operand bytes. -/
def instruction (byte : UInt8) (bs : Bytes) : Option (Except CodeError Instruction) :=
  match Opcode.ofByte byte with
  | .error e => some (.error e)
  | .ok op => do
    let expected ← sub op.size 1
    if bs.length ≠ expected then return .error (.operandBytes op bs.length)
    else
      let (operands, _) ← (Operand.readAll op op.operandKinds).run bs
      return operands.bind fun operands =>
        match Instruction.ofOperands? op operands with
        | some i => .ok i
        | none => .error (.operandBytes op bs.length)

/-- Reads the instructions of a stream from an offset on. -/
def decodeFrom (code : Bytes) (offset : Nat) : Option (Except CodeError (List Instruction)) :=
  if _ : offset < code.length then
    match entry code offset with
    | none => none
    | some byte =>
      match Opcode.ofByte byte with
      | .error e => some (.error e)
      | .ok op =>
        match _ : add offset op.size with
        | none => none
        | some stop =>
          if code.length < stop then some (.error (.cutShort op offset))
          else do
            let first ← add offset 1
            match ← instruction byte (← slice code first stop) with
            | .error e => return .error e
            | .ok i => return (← decodeFrom code stop).map (i :: ·)
  else some (.ok [])
termination_by code.length - offset
decreasing_by
  have hlater : stop = offset + op.size := eq_of_add ‹add offset op.size = some stop›
  rw [Opcode.size] at hlater
  omega

/-- Reads the instructions of a stream, up to its end. -/
def decode (code : Bytes) : Option (Except CodeError (List Instruction)) :=
  decodeFrom code 0

end Code

namespace Operand

variable {α : Type} {bs rest : Bytes}

theorem run_part (op : Opcode) {r : Reader DecodeError α} {input : Bytes} {a : α}
    (h : r.run input = some (.ok a, rest)) : (part op r).run input = some (.ok a, rest) := by
  have hleft : (Reader.remaining (ε := CodeError)).run input = some (.ok input.length, input) := rfl
  rw [part, Reader.run_bind_of_ok hleft, Reader.run_mapError, h]
  rfl

theorem run_read (op : Opcode) {kind : OperandKind} (h : bs.length = kind.size)
    (hlimit : (bs ++ rest).length < Slot.limit) :
    (read op kind).run (bs ++ rest) = some (RegisterMachine.Operand.decode kind bs, rest) := by
  cases kind with
  | register =>
    obtain ⟨b, rfl⟩ := List.length_eq_one_iff.mp h
    rw [read, Reader.run_bind_of_ok (run_part op (Reader.run_byte hlimit)),
      RegisterMachine.Operand.decode, Bytes.toNat_singleton, UInt8.ofNat_toNat]
    cases Register.ofId b <;> rfl
  | target | immediate | number =>
    have height : bs.length = 8 := h
    have hnumber := run_part op (Reader.run_number UInt64.ofNat height hlimit)
    rw [read, Reader.run_map, hnumber]
    rfl

/-- Where there are as many bytes as the operands have, each operand has its bytes. -/
theorem run_readAll (op : Opcode) {kinds : List OperandKind}
    (h : bs.length = RegisterMachine.Operand.totalSize kinds) (hlimit : bs.length < Slot.limit) :
    ∃ rest, (readAll op kinds).run bs = some (RegisterMachine.Operand.decodeAll kinds bs, rest) := by
  induction kinds generalizing bs with
  | nil => exact ⟨bs, rfl⟩
  | cons kind kinds ih =>
    have hlength : bs.length = kind.size + RegisterMachine.Operand.totalSize kinds := h
    have hfirst : (bs.take kind.size).length = kind.size := by
      rw [List.length_take]
      omega
    have hrest : (bs.drop kind.size).length = RegisterMachine.Operand.totalSize kinds := by
      rw [List.length_drop]
      omega
    have hsplit : bs.take kind.size ++ bs.drop kind.size = bs := List.take_append_drop _ _
    have hread := run_read op hfirst (hsplit.symm ▸ hlimit)
    rw [hsplit] at hread
    obtain ⟨rest, hreadAll⟩ := ih hrest (by omega)
    rw [readAll, RegisterMachine.Operand.decodeAll]
    cases hdecode : RegisterMachine.Operand.decode kind (bs.take kind.size) with
    | error e =>
      rw [hdecode] at hread
      exact ⟨_, Reader.run_bind_of_error hread _⟩
    | ok operand =>
      rw [hdecode] at hread
      refine ⟨rest, ?_⟩
      rw [Reader.run_bind_of_ok hread, Reader.run_bind, hreadAll]
      cases RegisterMachine.Operand.decodeAll kinds (bs.drop kind.size) <;> rfl

end Operand

namespace Code

variable {code bs : Bytes} {offset : Nat}

theorem instruction_eq (byte : UInt8) (hlimit : bs.length < Slot.limit) :
    instruction byte bs = some (Instruction.decode byte bs) := by
  rw [instruction, Instruction.decode]
  cases Opcode.ofByte byte with
  | error e => rfl
  | ok op =>
    have hexpected : sub op.size 1 = some op.operandBytes := by
      rw [Opcode.size, sub_of_le (Nat.le_add_right 1 _), Nat.add_sub_cancel_left]
    show _ = some (Instruction.ofBytes op bs)
    rw [Instruction.ofBytes]
    simp only [Option.bind_eq_bind, hexpected, Option.bind_some]
    by_cases hlength : bs.length = op.operandBytes
    · have hkinds : bs.length = RegisterMachine.Operand.totalSize op.operandKinds := hlength
      obtain ⟨rest, hread⟩ := Operand.run_readAll op hkinds hlimit
      rw [if_neg (not_not.mpr hlength), if_pos hlength, hread]
      cases RegisterMachine.Operand.decodeAll op.operandKinds bs with
      | error e => rfl
      | ok operands =>
        dsimp only [bind, Option.bind, Except.bind]
        cases Instruction.ofOperands? op operands <;> rfl
    · rw [if_pos hlength, if_neg hlength]
      rfl

theorem drop_of_entry {b : UInt8} (h : entry code offset = some b) :
    code.drop offset = b :: code.drop (offset + 1) := by
  obtain ⟨hlt, rfl⟩ := List.getElem?_eq_some_iff.mp h
  exact List.drop_eq_getElem_cons hlt

theorem size_le (op : Opcode) : op.size ≤ 0x100 := by
  have hall : ∀ op ∈ Opcode.all, op.size ≤ 0x100 := by decide
  exact hall op op.mem_all

theorem decodeFrom_eq (hoffset : offset ≤ code.length) (hlimit : code.length < Slot.limit) :
    decodeFrom code offset = some (RegisterMachine.Code.decodeFrom offset (code.drop offset)) := by
  have hwords : Slot.limit + 0x100 < UInt64.size := by decide
  fun_induction decodeFrom code offset
  case case1 offset hlt hnone => exact absurd hlt (Nat.not_lt.mpr (List.getElem?_eq_none_iff.mp hnone))
  case case2 offset hlt byte hbyte e hop =>
    rw [drop_of_entry hbyte, RegisterMachine.Code.decodeFrom, hop]
    rfl
  case case3 offset hlt byte hbyte op hop hstop =>
    have hsize := size_le op
    rw [add_of_lt (by omega)] at hstop
    cases hstop
  case case4 offset hlt byte hbyte op hop stop hstop hshort =>
    obtain rfl := eq_of_add hstop
    rw [Opcode.size] at hshort
    have hcut : ¬ op.operandBytes ≤ (code.drop (offset + 1)).length := by
      rw [List.length_drop]
      omega
    rw [drop_of_entry hbyte, RegisterMachine.Code.decodeFrom, hop]
    simp only [bind, Except.bind, if_neg hcut]
    rfl
  case case5 offset hlt byte hbyte op hop stop hstop hfits ih =>
    obtain rfl := eq_of_add hstop
    have hnext : offset + op.size = offset + 1 + op.operandBytes := by
      rw [Opcode.size, Nat.add_assoc]
    rw [hnext] at hfits
    have hwhole : op.operandBytes ≤ (code.drop (offset + 1)).length := by
      rw [List.length_drop]
      omega
    have hslice : slice code (offset + 1) (offset + op.size) =
        some ((code.drop (offset + 1)).take op.operandBytes) := by
      rw [hnext, slice_of_le (by omega) (by omega), List.drop_take, Nat.add_sub_cancel_left]
    have hoperands : ((code.drop (offset + 1)).take op.operandBytes).length < Slot.limit := by
      rw [List.length_take, List.length_drop]
      omega
    have hrest : (code.drop (offset + 1)).drop op.operandBytes = code.drop (offset + op.size) := by
      rw [List.drop_drop, hnext]
    rw [add_of_lt (by omega), drop_of_entry hbyte, RegisterMachine.Code.decodeFrom, hop]
    simp only [Option.bind_some, hslice, instruction_eq byte hoperands,
      Instruction.decode, hop, ih (by omega), bind, Except.bind, if_pos hwhole, hrest]
    cases Instruction.ofBytes op ((code.drop (offset + 1)).take op.operandBytes) with
    | error e => rfl
    | ok i => cases RegisterMachine.Code.decodeFrom (offset + op.size) (code.drop (offset + op.size)) <;> rfl
  case case6 offset hend =>
    rw [List.drop_eq_nil_of_le (Nat.not_lt.mp hend), RegisterMachine.Code.decodeFrom]

theorem decode_eq (hlimit : code.length < Slot.limit) :
    decode code = some (RegisterMachine.Code.decode code) :=
  decodeFrom_eq (Nat.zero_le _) hlimit

end Code

end RegisterMachine.Checked

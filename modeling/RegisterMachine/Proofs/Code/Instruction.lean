import Mathlib
import RegisterMachine.Proofs.Code.Operand

namespace RegisterMachine

theorem Opcode.byte_inj {op op' : Opcode} (h : op.byte = op'.byte) : op = op' :=
  Option.some.inj ((ofByte?_byte op).symm.trans (h ▸ ofByte?_byte op'))

namespace Instruction

/-- Operands of the kinds that an opcode asks for make an instruction. -/
theorem exists_of_map_kind {op : Opcode} {os : List Operand}
    (h : os.map Operand.kind = op.operandKinds) :
    ∃ i : Instruction, i.opcode = op ∧ i.operands = os := by
  cases op
  all_goals
    simp only [Opcode.operandKinds, Operand.map_kind_eq_cons_iff, List.map_eq_nil_iff,
      List.map_eq_singleton_iff, Operand.kind_eq_register_iff, Operand.kind_eq_target_iff,
      Operand.kind_eq_immediate_iff, Operand.kind_eq_number_iff, ↓existsAndEq, and_true,
      exists_and_left, true_and] at h
  case nop => exact ⟨nop, rfl, h.symm⟩
  case exit => exact ⟨exit, rfl, h.symm⟩
  case ret => exact ⟨ret, rfl, h.symm⟩
  case enableInterrupts => exact ⟨enableInterrupts, rfl, h.symm⟩
  case disableInterrupts => exact ⟨disableInterrupts, rfl, h.symm⟩
  case branch c =>
    obtain ⟨lhs, rhs, t, rfl⟩ := h
    exact ⟨branch c lhs rhs t, rfl, rfl⟩
  case floatBranch c =>
    obtain ⟨lhs, rhs, t, rfl⟩ := h
    exact ⟨floatBranch c lhs rhs t, rfl, rfl⟩
  case jump =>
    obtain ⟨t, rfl⟩ := h
    exact ⟨jump t, rfl, rfl⟩
  case call =>
    obtain ⟨t, rfl⟩ := h
    exact ⟨call t, rfl, rfl⟩
  case move =>
    obtain ⟨dest, v, rfl⟩ := h
    exact ⟨move dest v, rfl, rfl⟩
  case arith o =>
    obtain ⟨dest, lhs, rhs, rfl⟩ := h
    exact ⟨arith o dest lhs rhs, rfl, rfl⟩
  case floatArith o =>
    obtain ⟨dest, lhs, rhs, rfl⟩ := h
    exact ⟨floatArith o dest lhs rhs, rfl, rfl⟩
  case bitwise o =>
    obtain ⟨dest, lhs, rhs, rfl⟩ := h
    exact ⟨bitwise o dest lhs rhs, rfl, rfl⟩
  case complement =>
    obtain ⟨dest, src, rfl⟩ := h
    exact ⟨complement dest src, rfl, rfl⟩
  case assertEqual =>
    obtain ⟨expected, actual, rfl⟩ := h
    exact ⟨assertEqual expected actual, rfl, rfl⟩
  case assertDistinct =>
    obtain ⟨expected, actual, rfl⟩ := h
    exact ⟨assertDistinct expected actual, rfl, rfl⟩
  case push w =>
    obtain ⟨src, rfl⟩ := h
    exact ⟨push w src, rfl, rfl⟩
  case pop w =>
    obtain ⟨dest, rfl⟩ := h
    exact ⟨pop w dest, rfl, rfl⟩
  case alloc =>
    obtain ⟨dest, size, rfl⟩ := h
    exact ⟨alloc dest size, rfl, rfl⟩
  case free =>
    obtain ⟨slot, rfl⟩ := h
    exact ⟨free slot, rfl, rfl⟩
  case store w =>
    obtain ⟨slot, offset, src, rfl⟩ := h
    exact ⟨store w slot offset src, rfl, rfl⟩
  case load w =>
    obtain ⟨slot, offset, dest, rfl⟩ := h
    exact ⟨load w slot offset dest, rfl, rfl⟩
  case syscall =>
    obtain ⟨n, rfl⟩ := h
    exact ⟨syscall n, rfl, rfl⟩
  case debug =>
    obtain ⟨n, rfl⟩ := h
    exact ⟨debug n, rfl, rfl⟩

/-- An instruction is known by its opcode and its operands. -/
theorem ext_operands {i j : Instruction} (hop : i.opcode = j.opcode)
    (hos : i.operands = j.operands) : i = j := by
  have h := ofOperands?_operands i
  rw [hop, hos, ofOperands?_operands j] at h
  exact (Option.some.inj h).symm

/-- Of operands of the right kinds, the instruction is the one that has them. -/
theorem ofOperands?_eq_some_iff {op : Opcode} {os : List Operand} {i : Instruction}
    (h : os.map Operand.kind = op.operandKinds) :
    ofOperands? op os = some i ↔ i.opcode = op ∧ i.operands = os := by
  obtain ⟨j, rfl, rfl⟩ := exists_of_map_kind h
  rw [ofOperands?_operands, Option.some.injEq]
  constructor
  · rintro rfl
    exact ⟨rfl, rfl⟩
  · rintro ⟨hop, hos⟩
    exact (ext_operands hop hos).symm

theorem ofOperands?_ne_none {op : Opcode} {os : List Operand}
    (h : os.map Operand.kind = op.operandKinds) : ofOperands? op os ≠ none := by
  obtain ⟨i, rfl, rfl⟩ := exists_of_map_kind h
  rw [ofOperands?_operands]
  exact Option.some_ne_none i

theorem length_flatMap_encode (os : List Operand) :
    (os.flatMap Operand.encode).length = Operand.totalSize (os.map Operand.kind) := by
  induction os with
  | nil => rfl
  | cons o os ih => simp [Operand.totalSize, ih]

theorem length_operands_encode (i : Instruction) :
    (i.operands.flatMap Operand.encode).length = i.opcode.operandBytes := by
  rw [length_flatMap_encode, map_kind_operands]
  rfl

@[simp] theorem length_encode (i : Instruction) : i.encode.length = i.size := by
  simp only [encode, List.length_cons, length_operands_encode, size, Opcode.size]
  exact Nat.add_comm _ _

/-- What is read as operands of an opcode makes an instruction, so reading an instruction fails only
where reading an operand does. -/
theorem ofBytes_eq {op : Opcode} {bs : Bytes} (h : bs.length = op.operandBytes) :
    (∀ i, ofBytes op bs = .ok i ↔
      i.opcode = op ∧ Operand.decodeAll op.operandKinds bs = .ok i.operands) ∧
    ∀ e, ofBytes op bs = .error e ↔ Operand.decodeAll op.operandKinds bs = .error e := by
  cases hd : Operand.decodeAll op.operandKinds bs with
  | error e =>
    have he : ofBytes op bs = .error e := by
      simp only [ofBytes, h, if_pos, hd]
      rfl
    simp [he]
  | ok os =>
    have hk := ((Operand.decodeAll_eq_ok_iff h).mp hd).1
    obtain ⟨j, rfl, rfl⟩ := exists_of_map_kind hk
    have hj : ofBytes j.opcode bs = .ok j := by
      rw [ofBytes, if_pos h]
      exact Except.bind_eq_ok_iff.mpr ⟨j.operands, hd, by rw [ofOperands?_operands]; rfl⟩
    simp only [hj, Except.ok.injEq, reduceCtorEq, implies_true, and_true]
    intro i
    constructor
    · rintro rfl
      exact ⟨rfl, rfl⟩
    · rintro ⟨hop, hos⟩
      exact ext_operands hop.symm hos

/-- Operand bytes are read as the instruction that is written as the opcode and these bytes. -/
theorem ofBytes_eq_ok_iff {op : Opcode} {bs : Bytes} {i : Instruction}
    (h : bs.length = op.operandBytes) : ofBytes op bs = .ok i ↔ i.encode = op.byte :: bs := by
  rw [(ofBytes_eq h).1, Operand.decodeAll_eq_ok_iff h, encode, List.cons.injEq]
  constructor
  · rintro ⟨rfl, _, hb⟩
    exact ⟨rfl, hb⟩
  · rintro ⟨hop, hb⟩
    cases Opcode.byte_inj hop
    exact ⟨rfl, map_kind_operands i, hb⟩

theorem ofBytes_eq_error_iff {op : Opcode} {bs : Bytes} {e : CodeError}
    (h : bs.length = op.operandBytes) :
    ofBytes op bs = .error e ↔
      ∃ b, (Operand.registerBytes op.operandKinds bs).find? Register.isUnknown = some b ∧
        e = .unknownRegister b := by
  rw [(ofBytes_eq h).2, Operand.decodeAll_eq_error_iff h]

/-- No stream begins with two different instructions. -/
theorem encode_append_inj {i j : Instruction} {bs cs : Bytes}
    (h : i.encode ++ bs = j.encode ++ cs) : i = j ∧ bs = cs := by
  have hop : i.opcode = j.opcode := Opcode.byte_inj (List.cons.inj h).1
  have hsize : i.encode.length = j.encode.length := by simp [size, hop]
  obtain ⟨he, hrest⟩ := List.append_inj h hsize
  have hi := (ofBytes_eq_ok_iff (length_operands_encode i)).mpr rfl
  have hj := (ofBytes_eq_ok_iff (length_operands_encode j)).mpr rfl
  have hbytes := (List.cons.inj he).2
  rw [hop, hbytes, hj] at hi
  exact ⟨(Except.ok.inj hi).symm, hrest⟩

end Instruction

end RegisterMachine

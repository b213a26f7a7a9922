import Mathlib
import RegisterMachine.Proofs.Machine.Frame
import RegisterMachine.Proofs.Machine.Stack

namespace RegisterMachine

theorem IntegerOp.eval_eq_error_iff {op : IntegerOp} {a b : Int64} {f : Fault} :
    op.eval a b = .error f ↔ op = .div ∧ b = 0 ∧ f = .divideByZero := by
  cases op with
  | div =>
    rw [eval]
    split
    next hzero => simp [hzero, eq_comm]
    next hzero => simp [hzero]
  | _ => simp [eval]

theorem FloatOp.eval_eq_error_iff {op : FloatOp} {a b : Double} {f : Fault} :
    op.eval a b = .error f ↔ op = .div ∧ b.isZero = true ∧ f = .divideByZero := by
  cases op with
  | div =>
    rw [eval]
    split
    next hzero => simp [hzero, eq_comm]
    next hzero => simp [hzero]
  | _ => simp [eval]

namespace Machine

/-- The machine behind the instruction that it is about to carry out. -/
def fetched (m : Machine) : Machine :=
  (m.jump (m.registers.ip + 1)).count .executed

/-- The instruction cannot be carried out because of the fault. -/
inductive Fails (m : Machine) : Instruction → Fault → Prop
  | divide {dest lhs rhs : Register} : m.registers.getInt rhs = 0 →
      m.Fails (.arith .div dest lhs rhs) .divideByZero
  | divideDoubles {dest lhs rhs : Register} : (m.registers.getDouble rhs).isZero = true →
      m.Fails (.floatArith .div dest lhs rhs) .divideByZero
  | ret : m.callStack = [] → m.Fails .ret .emptyCallStack
  | push {w : Width} {src : Register} : m.stack.capacity < m.stack.size + w.bytes →
      m.Fails (.push w src) (.stackFull w.bytes m.stack.capacity)
  | pop {w : Width} {dest : Register} : m.stack.size < w.bytes →
      m.Fails (.pop w dest) (.stackShort w.bytes m.stack.size)

/-- What an instruction that was carried out did to the flow of control. -/
inductive Flows (i : Instruction) (m m' : Machine) : Prop
  /-- The machine goes on behind the instruction, at its target, or where it writes to. -/
  | goes : (∀ target, i ≠ .call target) → i ≠ .ret → m'.callStack = m.callStack →
      m'.registers.ip = m.registers.ip ∨ .target m'.registers.ip ∈ i.operands ∨
        i.destination? = some .ip → Flows i m m'
  | calls : i = .call m'.registers.ip → m'.callStack = m.registers.ip :: m.callStack →
      m'.alive = m.alive → Flows i m m'
  | returns : i = .ret → m.callStack = m'.registers.ip :: m'.callStack → m'.alive = m.alive →
      Flows i m m'

/-- What an instruction that was carried out did. -/
structure Carried (i : Instruction) (m m' : Machine) : Prop where
  flows : m.Flows i m'
  fault : m'.fault = m.fault
  kills : m'.kills = m.kills

section

variable {p : Program} {m m' : Machine} {ip : UInt64} {i : Instruction} {f : Fault}

theorem leave_cases : (∃ address rest, m.callStack = address :: rest ∧
      m.leave = .ok ({ m with callStack := rest }.jump address)) ∨
    m.callStack = [] ∧ m.leave = .error .emptyCallStack := by
  rw [leave]
  cases m.callStack with
  | nil => exact .inr ⟨rfl, rfl⟩
  | cons address rest => exact .inl ⟨address, rest, rfl, rfl⟩

theorem leave_eq_error_iff : m.leave = .error f ↔ m.callStack = [] ∧ f = .emptyCallStack := by
  rcases leave_cases (m := m) with ⟨address, rest, hstack, hleave⟩ | ⟨hstack, hleave⟩
  · simp [hstack, hleave]
  · simp [hstack, hleave, eq_comm]

theorem exec_eq_error_iff : m.exec p ip i = .error f ↔ m.Fails i f := by
  constructor
  · intro h
    cases i with
    | arith op dest lhs rhs =>
      rcases Except.bind_eq_error_iff.mp h with heval | ⟨_, -, hnext⟩
      · obtain ⟨rfl, hzero, rfl⟩ := IntegerOp.eval_eq_error_iff.mp heval
        exact .divide hzero
      · cases hnext
    | floatArith op dest lhs rhs =>
      rcases Except.bind_eq_error_iff.mp h with heval | ⟨_, -, hnext⟩
      · obtain ⟨rfl, hzero, rfl⟩ := FloatOp.eval_eq_error_iff.mp heval
        exact .divideDoubles hzero
      · cases hnext
    | ret =>
      obtain ⟨hempty, rfl⟩ := leave_eq_error_iff.mp h
      exact .ret hempty
    | push w src =>
      rcases Except.bind_eq_error_iff.mp h with hpush | ⟨_, -, hnext⟩
      · obtain ⟨hfull, rfl⟩ := Stack.push_eq_error_iff.mp hpush
        exact .push hfull
      · cases hnext
    | pop w dest =>
      rcases Except.bind_eq_error_iff.mp h with hpop | ⟨_, -, hnext⟩
      · obtain ⟨hshort, rfl⟩ := Stack.pop_eq_error_iff.mp hpop
        exact .pop hshort
      · cases hnext
    | _ => cases h
  · intro h
    cases h with
    | divide hzero =>
      exact Except.bind_eq_error_iff.mpr (.inl (IntegerOp.eval_eq_error_iff.mpr ⟨rfl, hzero, rfl⟩))
    | divideDoubles hzero =>
      exact Except.bind_eq_error_iff.mpr (.inl (FloatOp.eval_eq_error_iff.mpr ⟨rfl, hzero, rfl⟩))
    | ret hempty => exact leave_eq_error_iff.mpr ⟨hempty, rfl⟩
    | push hfull =>
      exact Except.bind_eq_error_iff.mpr (.inl (Stack.push_eq_error_iff.mpr ⟨hfull, rfl⟩))
    | pop hshort =>
      exact Except.bind_eq_error_iff.mpr (.inl (Stack.pop_eq_error_iff.mpr ⟨hshort, rfl⟩))

theorem Flows.of_callStack (h : i.usesCallStack = false) (hstack : m'.callStack = m.callStack)
    (hip : m'.registers.ip = m.registers.ip ∨ .target m'.registers.ip ∈ i.operands ∨
      i.destination? = some .ip) : m.Flows i m' :=
  .goes (Instruction.ne_call h) (Instruction.ne_ret h) hstack hip

theorem flows_jumpIf {condition : Bool} {target : UInt64} (h : i.usesCallStack = false)
    (htarget : .target target ∈ i.operands) : m.Flows i (m.jumpIf condition target) := by
  cases condition with
  | true => exact .of_callStack h rfl (.inr (.inl htarget))
  | false => exact .of_callStack h rfl (.inl rfl)

/-- What the instructions do to the flow of control: calls and returns use the call stack, and all others
leave it alone. -/
theorem carried_of_exec (h : m.exec p ip i = .ok m') : m.Carried i m' := by
  have hframed := framed_of_exec h
  refine ⟨?_, hframed.fault, hframed.kills⟩
  cases i with
  | call target =>
    obtain rfl := Except.ok.inj h
    exact .calls rfl rfl rfl
  | ret =>
    have hleave : m.leave = .ok m' := h
    rcases leave_cases (m := m) with ⟨address, rest, hstack, hok⟩ | ⟨-, herror⟩
    · obtain rfl := Except.ok.inj (hok.symm.trans hleave)
      exact .returns rfl hstack rfl
    · rw [herror] at hleave
      cases hleave
  | jump target =>
    obtain rfl := Except.ok.inj h
    exact .of_callStack rfl rfl (.inr (.inl (List.mem_singleton.mpr rfl)))
  | branch c lhs rhs target | floatBranch c lhs rhs target =>
    obtain rfl := Except.ok.inj h
    exact flows_jumpIf rfl (by simp [Instruction.operands])
  | _ =>
    -- What is left writes to the instruction pointer only if that is its destination.
    refine .of_callStack rfl (hframed.callStack rfl) (or_iff_not_imp_left.mpr fun hne => .inr ?_)
    have hip := not_not.mp (mt (hframed.registers .ip) hne)
    simp_all [Instruction.written, Instruction.destination?, Register.viewed, Register.result]

theorem advance_of_outside (h : p.fetch? m.registers.ip = none) :
    m.advance p = m.kill m.registers.ip (.noInstruction m.registers.ip p.instructions.size) := by
  rw [advance, h]

theorem advance_of_fails (hfetch : p.fetch? m.registers.ip = some i) (h : m.fetched.Fails i f) :
    m.advance p = m.fetched.kill m.registers.ip f := by
  have hexec : m.fetched.exec p m.registers.ip i = .error f := exec_eq_error_iff.mpr h
  rw [fetched] at hexec ⊢
  simp only [advance, hfetch, hexec]

theorem advance_of_ok (hfetch : p.fetch? m.registers.ip = some i)
    (h : m.fetched.exec p m.registers.ip i = .ok m') : m.advance p = m' := by
  rw [fetched] at h
  simp only [advance, hfetch, h]

/-- There is no instruction to carry out, or it cannot be carried out, or it is. -/
theorem exec_cases (p : Program) (m : Machine) :
    p.fetch? m.registers.ip = none ∨
    (∃ i f, p.fetch? m.registers.ip = some i ∧ m.fetched.Fails i f) ∨
    ∃ i, p.fetch? m.registers.ip = some i ∧ m.fetched.exec p m.registers.ip i = .ok (m.advance p) := by
  cases hfetch : p.fetch? m.registers.ip with
  | none => exact .inl rfl
  | some i =>
    cases hexec : m.fetched.exec p m.registers.ip i with
    | error f => exact .inr (.inl ⟨i, f, rfl, exec_eq_error_iff.mp hexec⟩)
    | ok m' => exact .inr (.inr ⟨i, rfl, (advance_of_ok hfetch hexec).symm ▸ hexec⟩)

theorem advance_cases (p : Program) (m : Machine) :
    p.fetch? m.registers.ip = none ∨
    (∃ i f, p.fetch? m.registers.ip = some i ∧ m.fetched.Fails i f) ∨
    ∃ i, p.fetch? m.registers.ip = some i ∧ m.fetched.Carried i (m.advance p) := by
  rcases exec_cases p m with hnone | hfails | ⟨i, hfetch, hexec⟩
  · exact .inl hnone
  · exact .inr (.inl hfails)
  · exact .inr (.inr ⟨i, hfetch, carried_of_exec hexec⟩)

theorem kills_kill (m : Machine) (ip : UInt64) (f : Fault) :
    (m.kill ip f).kills = .killed f ip :: m.kills := rfl

end

end Machine

end RegisterMachine

import Mathlib
import RegisterMachine.Machine.Syscall
import RegisterMachine.Machine.Run
import RegisterMachine.Proofs.Except

namespace RegisterMachine

namespace Stats

theorem toNat_saturatingAdd (a b : UInt64) :
    (saturatingAdd a b).toNat = min (a.toNat + b.toNat) (UInt64.size - 1) := by
  apply UInt64.toNat_ofNat_of_lt'
  have hsize : 0 < UInt64.size := by decide
  omega

section

variable {a b : UInt64} {n : Nat}

theorem none_more (a : UInt64) : a.toNat = min (a.toNat + 0) (UInt64.size - 1) := by
  have hlt := a.toNat_lt_size
  omega

theorem one_more (h : a.toNat = min (b.toNat + n) (UInt64.size - 1)) :
    (saturatingAdd a 1).toNat = min (b.toNat + (n + 1)) (UInt64.size - 1) := by
  have hone : (1 : UInt64).toNat = 1 := rfl
  rw [toNat_saturatingAdd, hone]
  omega

theorem both_more (h : a.toNat = min (b.toNat + n) (UInt64.size - 1)) :
    (saturatingAdd a 1).toNat = min ((saturatingAdd b 1).toNat + n) (UInt64.size - 1) := by
  have hone : (1 : UInt64).toNat = 1 := rfl
  rw [toNat_saturatingAdd, toNat_saturatingAdd, hone]
  omega

end

end Stats

/-- The request that an effect makes. -/
def Effect.request? : Effect → Option Request
  | .raise id => some ⟨id, none⟩
  | _ => none

/-- The system function without the interrupts that it asks for. -/
def Syscall.quiet (f : Syscall) : Syscall where
  name := f.name
  call v := ((f.call v).1, (f.call v).2.filter fun e => e.request?.isNone)

/-- The program whose system functions ask for no interrupts. -/
def Program.quiet (p : Program) : Program :=
  { p with syscalls := p.syscalls.map Syscall.quiet }

/-- The requests that an instruction makes. -/
def Program.raised (p : Program) (v : View) : Instruction → List Request
  | .syscall id => (p.syscalls[id.toNat]?).elim [] fun f => (f.call v).2.filterMap Effect.request?
  | _ => []

theorem Syscall.quiet_eq_self {f : Syscall} (h : ∀ v, ∀ e ∈ (f.call v).2, e.request? = none) :
    f.quiet = f := by
  obtain ⟨name, call⟩ := f
  have hcall : ∀ v, (call v).2.filter (fun e => e.request?.isNone) = (call v).2 := fun v =>
    List.filter_eq_self.mpr fun e he => by rw [h v e he]; rfl
  simp only [quiet, hcall, Prod.mk.eta]

theorem Program.quiet_eq_self {p : Program} (h : ∀ f ∈ p.syscalls, f.quiet = f) : p.quiet = p := by
  have hmap : p.syscalls.map Syscall.quiet = p.syscalls.map id := Array.map_congr_left h
  rw [quiet, hmap, Array.map_id]

theorem Program.quiet_quiet (p : Program) : p.quiet.quiet = p.quiet := by
  apply quiet_eq_self
  intro f hf
  obtain ⟨g, -, rfl⟩ := Array.mem_map.mp hf
  refine Syscall.quiet_eq_self fun v e he => ?_
  exact Option.isNone_iff_eq_none.mp (List.mem_filter.mp he).2

theorem Program.raised_quiet (p : Program) (v : View) (i : Instruction) : p.quiet.raised v i = [] := by
  cases i with
  | syscall id =>
    have hget : p.quiet.syscalls[id.toNat]? = (p.syscalls[id.toNat]?).map Syscall.quiet :=
      Array.getElem?_map
    rw [raised, hget]
    cases p.syscalls[id.toNat]? with
    | none => rfl
    | some f =>
      refine List.filterMap_eq_nil_iff.mpr fun e he => ?_
      exact Option.isNone_iff_eq_none.mp (List.mem_filter.mp he).2
  | _ => rfl

/-- The functions that every machine has ask for no interrupts. -/
theorem Syscall.quiet_builtin : ∀ f ∈ builtin, f.quiet = f := by
  have htimer : timer.quiet = timer := by
    refine quiet_eq_self fun v e he => ?_
    simp only [timer] at he
    split at he
    next => cases he
    next =>
      split at he
      next => rw [List.mem_singleton.mp he]; rfl
      next => cases he
  have hprint : print.quiet = print := by
    refine quiet_eq_self fun v e he => ?_
    simp only [print, write] at he
    split at he
    next => split at he <;> (rw [List.mem_singleton.mp he]; rfl)
    next => cases he
  intro f hf
  simp only [builtin, List.mem_toArray, List.mem_cons, List.not_mem_nil, or_false] at hf
  rcases hf with rfl | rfl
  · exact htimer
  · exact hprint

/-- What the message about an interrupt without a handler starts with. -/
def Event.noHandler : String := "no handler for interrupt "

/-- The event tells that a request was answered. -/
def Event.isAnswer : Event → Bool
  | .answered .. => true
  | _ => false

/-- The event tells of the delivery of a request. -/
def Event.isDelivery : Event → Bool
  | .answered .. => true
  | .logged entry => noHandler.toList.isPrefixOf entry.message.toList
  | _ => false

namespace Machine

/-- The machine without all that belongs to the delivery of interrupts. -/
def silence (m : Machine) : Machine :=
  { m with
    pending := []
    stats := { m.stats with executed := 0, accepted := 0, rejected := 0 }
    events := m.events.filter fun e => !e.isDelivery }

section

variable {m m' : Machine} {p : Program} {ip : UInt64}

@[simp] theorem silence_registers (m : Machine) : m.silence.registers = m.registers := rfl

@[simp] theorem silence_callStack (m : Machine) : m.silence.callStack = m.callStack := rfl

@[simp] theorem silence_memory (m : Machine) : m.silence.memory = m.memory := rfl

theorem silence_emit {e : Event} (h : e.isDelivery = false) :
    (m.emit e).silence = m.silence.emit e := by
  simp only [silence, emit, List.filter_cons, h, Bool.not_false, if_true]

theorem silence_emit_delivery {e : Event} (h : e.isDelivery = true) :
    (m.emit e).silence = m.silence := by
  simp only [silence, emit, List.filter_cons, h, Bool.not_true, Bool.false_eq_true, if_false]

theorem silence_log (m : Machine) (level : Log.Level) {message : String}
    (h : message.toList.head? ≠ some 'n') :
    (m.log level message).silence = m.silence.log level message := by
  apply silence_emit
  rw [Event.isDelivery, Bool.eq_false_iff]
  intro hprefix
  obtain ⟨rest, hrest⟩ := List.isPrefixOf_iff_prefix.mp hprefix
  exact h (hrest ▸ rfl)

theorem head?_append {s t : String} {c : Char} (h : s.toList.head? = some c) :
    (s ++ t).toList.head? = some c := by
  rw [String.toList_append, List.head?_append, h]
  rfl

theorem silence_perform (effects : List Effect) (m : Machine) :
    (effects.foldl perform m).silence =
      (effects.filter fun e => e.request?.isNone).foldl perform m.silence := by
  induction effects generalizing m with
  | nil => rfl
  | cons e effects ih =>
    rw [List.foldl_cons, ih]
    cases e <;> rfl

theorem silence_syscall (m : Machine) (id : UInt64) :
    (m.syscall p ip id).silence = m.silence.syscall p.quiet ip id := by
  have hget : p.quiet.syscalls[id.toNat]? = (p.syscalls[id.toNat]?).map Syscall.quiet :=
    Array.getElem?_map
  rw [syscall, syscall, hget]
  cases p.syscalls[id.toNat]? with
  | none => rfl
  | some f =>
    have hcount : ∀ m : Machine, (m.count .dispatched).ask.silence = (m.silence.count .dispatched).ask :=
      fun _ => rfl
    have hview : ∀ (m : Machine) v, (m.setView v).silence = m.silence.setView v := fun _ _ => rfl
    simp only [Option.map_some, hcount, silence_perform, hview]
    by_cases hdebug : p.debug.atLeast .minimal
    · simp only [hdebug, if_true, Program.quiet]
      rfl
    · simp only [hdebug, Program.quiet]
      rfl

theorem silence_jumpIf (m : Machine) (condition : Bool) (target : UInt64) :
    (m.jumpIf condition target).silence = m.silence.jumpIf condition target := by
  cases condition <;> rfl

theorem silence_leave (m : Machine) : m.leave.map silence = m.silence.leave := by
  rw [leave, leave, silence_callStack]
  cases m.callStack <;> rfl

theorem silence_assert (m : Machine) {op : Opcode} (holds : Bool) (expected actual : Register)
    (hop : op.mnemonic.toList.head? = some 'a') :
    (m.assert ip op holds expected actual).silence = m.silence.assert ip op holds expected actual := by
  cases holds with
  | true => rfl
  | false =>
    have hhead : (op.mnemonic ++ " failed at ip " ++ toString ip.toNat ++ ": "
        ++ (expected.name ++ " = " ++ toString (m.registers.get expected).toNat) ++ ", "
        ++ (actual.name ++ " = " ++ toString (m.registers.get actual).toNat)).toList.head? ≠
          some 'n' := by
      simp only [String.append_assoc]
      rw [head?_append hop]
      decide
    exact congrArg (fun m : Machine => { m.setRegister .result 1 with alive := false })
      (silence_log m .warn hhead)

theorem silence_exec (p : Program) (ip : UInt64) (m : Machine) (i : Instruction) :
    (m.exec p ip i).map silence = m.silence.exec p.quiet ip i := by
  cases i with
  | nop =>
    have hdebug : p.quiet.debug = p.debug := rfl
    simp only [exec, hdebug]
    split <;> rfl
  | exit =>
    have hhead : ("exit @ ip = " ++ toString ip.toNat ++ " with code "
        ++ toString m.exitCode.toNat).toList.head? ≠ some 'n' := by
      simp only [String.append_assoc]
      rw [head?_append (c := 'e') rfl]
      decide
    exact congrArg (fun m : Machine => Except.ok { m with alive := false }) (silence_log m .debug hhead)
  | branch c lhs rhs target => exact congrArg _ (silence_jumpIf m _ target)
  | jump target => rfl
  | call target => rfl
  | ret => exact silence_leave m
  | move dest v => rfl
  | arith op dest lhs rhs => exact Except.map_bind _ _ _
  | floatArith op dest lhs rhs => exact Except.map_bind _ _ _
  | bitwise op dest lhs rhs => rfl
  | complement dest src => rfl
  | floatBranch c lhs rhs target => exact congrArg _ (silence_jumpIf m _ target)
  | assertEqual expected actual => exact congrArg _ (silence_assert m _ expected actual rfl)
  | assertDistinct expected actual => exact congrArg _ (silence_assert m _ expected actual rfl)
  | push w src => exact Except.map_bind _ _ _
  | pop w dest => exact Except.map_bind _ _ _
  | alloc dest size =>
    have hreserves : m.silence.reserves p.quiet = m.reserves p := rfl
    simp only [exec, alloc, silence_memory, silence_registers, hreserves]
    cases m.memory.alloc? (m.registers.get size) (m.reserves p) <;> rfl
  | free slot =>
    simp only [exec, free, silence_memory, silence_registers]
    cases m.memory.free? (m.registers.get slot) <;> rfl
  | store w slot offset src =>
    simp only [exec, store, silence_memory, silence_registers]
    split <;> rfl
  | load w slot offset dest =>
    simp only [exec, load, silence_memory, silence_registers]
    split <;> rfl
  | syscall id => exact congrArg _ (silence_syscall m id)
  | debug id =>
    have htrace : ∀ (lines : List String) (m : Machine),
        (lines.foldl trace m).silence = lines.foldl trace m.silence := by
      intro lines
      induction lines with
      | nil => exact fun m => rfl
      | cons line lines ih => exact fun m => ih (m.trace line)
    exact congrArg _ (htrace _ m)
  | enableInterrupts => rfl
  | disableInterrupts => rfl

theorem silence_kill (m : Machine) (ip : UInt64) (f : Fault) :
    (m.kill ip f).silence = m.silence.kill ip f := by
  have hhead : ("execution killed at ip " ++ toString ip.toNat ++ ": " ++ f.message).toList.head? ≠
      some 'n' := by
    simp only [String.append_assoc]
    rw [head?_append (c := 'e') rfl]
    decide
  exact congrArg (fun m : Machine =>
    { (m.setRegister .result 1).emit (.killed f ip) with alive := false, fault := some f })
      (silence_log m .error hhead)

/-- Machines that differ by the delivery of interrupts only still do so behind an instruction, even if
system functions ask for interrupts in one of them only. -/
theorem silence_advance (h : m.silence = m'.silence) :
    (m.advance p).silence = (m'.advance p.quiet).silence := by
  have hregisters : m.silence.registers = m'.silence.registers := congrArg registers h
  rw [silence_registers, silence_registers] at hregisters
  have hfetch : p.quiet.fetch? m.registers.ip = p.fetch? m.registers.ip := rfl
  rw [advance, advance, ← hregisters]
  simp only [hfetch]
  cases p.fetch? m.registers.ip with
  | none =>
    simp only [silence_kill, h]
    rfl
  | some i =>
    have hnext : ((m.jump (m.registers.ip + 1)).count .executed).silence =
        ((m'.jump (m.registers.ip + 1)).count .executed).silence :=
      congrArg (fun s : Machine => s.setRegister .ip (m.registers.ip + 1)) h
    have hexec : (((m.jump (m.registers.ip + 1)).count .executed).exec p m.registers.ip i).map silence =
        (((m'.jump (m.registers.ip + 1)).count .executed).exec p.quiet m.registers.ip i).map
          silence := by
      rw [silence_exec, silence_exec, p.quiet_quiet, hnext]
    simp only
    revert hexec
    cases ((m.jump (m.registers.ip + 1)).count .executed).exec p m.registers.ip i with
    | error f =>
      cases ((m'.jump (m.registers.ip + 1)).count .executed).exec p.quiet m.registers.ip i with
      | error f' =>
        intro hexec
        obtain rfl : f = f' := Except.error.inj hexec
        simp only [silence_kill, hnext]
      | ok _ => exact fun hexec => nomatch hexec
    | ok _ =>
      cases ((m'.jump (m.registers.ip + 1)).count .executed).exec p.quiet m.registers.ip i with
      | error f' => exact fun hexec => nomatch hexec
      | ok _ => exact fun hexec => Except.ok.inj hexec

/-- What is counted of instructions and of requests, the requests that wait, and the answers that the
outside world learns of. -/
structure Ledger where
  executed : UInt64
  accepted : UInt64
  rejected : UInt64
  pending : List Request
  answers : List Event

def ledger (m : Machine) : Ledger :=
  ⟨m.stats.executed, m.stats.accepted, m.stats.rejected, m.pending, m.events.filter Event.isAnswer⟩

theorem ledger_perform (effects : List Effect) (m : Machine) : (effects.foldl perform m).ledger =
    { m.ledger with pending := m.pending ++ effects.filterMap Effect.request? } := by
  induction effects generalizing m with
  | nil =>
    rw [List.filterMap_nil, List.append_nil]
    rfl
  | cons e effects ih =>
    rw [List.foldl_cons, ih]
    cases e with
    | raise id =>
      rw [List.filterMap_cons_some (show Effect.request? (.raise id) = some ⟨id, none⟩ from rfl),
        perform, request]
      rw [List.append_assoc]
      rfl
    | _ => rfl

theorem ledger_syscall (m : Machine) (id : UInt64) : (m.syscall p ip id).ledger =
    { m.ledger with pending := m.pending ++ p.raised (m.viewIn p) (.syscall id) } := by
  rw [syscall, Program.raised]
  cases p.syscalls[id.toNat]? with
  | none =>
    rw [Option.elim_none, List.append_nil]
    rfl
  | some f =>
    have hcount : ∀ m : Machine, (m.count .dispatched).ask.ledger = m.ledger := fun _ => rfl
    simp only [hcount, ledger_perform]
    split <;> rfl

theorem ledger_assert (m : Machine) (op : Opcode) (holds : Bool) (expected actual : Register) :
    (m.assert ip op holds expected actual).ledger = m.ledger := by
  cases holds <;> rfl

theorem ledger_trace (lines : List String) (m : Machine) : (lines.foldl trace m).ledger = m.ledger := by
  induction lines generalizing m with
  | nil => rfl
  | cons line lines ih =>
    rw [List.foldl_cons, ih]
    rfl

theorem ledger_exec_of_ne {i : Instruction} (hi : ∀ id, i ≠ .syscall id)
    (h : m.exec p ip i = .ok m') : m'.ledger = m.ledger := by
  cases i with
  | nop =>
    obtain rfl := Except.ok.inj h
    split <;> rfl
  | branch c lhs rhs target | floatBranch c lhs rhs target =>
    obtain rfl := Except.ok.inj h
    rw [jumpIf]
    split <;> rfl
  | ret =>
    simp only [exec, leave] at h
    split at h
    next =>
      obtain rfl := Except.ok.inj h
      rfl
    next => cases h
  | arith op dest lhs rhs | floatArith op dest lhs rhs | push w src | pop w dest =>
    obtain ⟨_, -, hnext⟩ := Except.bind_eq_ok_iff.mp h
    obtain rfl := Except.ok.inj hnext
    rfl
  | assertEqual expected actual =>
    obtain rfl := Except.ok.inj h
    exact ledger_assert m _ _ expected actual
  | assertDistinct expected actual =>
    obtain rfl := Except.ok.inj h
    exact ledger_assert m _ _ expected actual
  | alloc dest size =>
    obtain rfl := Except.ok.inj h
    rw [alloc]
    split <;> rfl
  | free slot =>
    obtain rfl := Except.ok.inj h
    rw [free]
    split <;> rfl
  | store w slot offset src =>
    obtain rfl := Except.ok.inj h
    simp only [store]
    split <;> rfl
  | load w slot offset dest =>
    obtain rfl := Except.ok.inj h
    simp only [load]
    split <;> rfl
  | syscall id => exact absurd rfl (hi id)
  | debug id =>
    obtain rfl := Except.ok.inj h
    exact ledger_trace _ m
  | exit | jump | call | move | bitwise | complement | enableInterrupts | disableInterrupts =>
    obtain rfl := Except.ok.inj h
    rfl

/-- No instruction counts itself or answers a request, and system functions may make requests. -/
theorem ledger_exec {i : Instruction} (h : m.exec p ip i = .ok m') :
    m'.ledger = { m.ledger with pending := m.pending ++ p.raised (m.viewIn p) i } := by
  by_cases hi : ∃ id, i = .syscall id
  · obtain ⟨id, rfl⟩ := hi
    obtain rfl := Except.ok.inj h
    exact ledger_syscall m id
  · have hne : ∀ id, i ≠ .syscall id := fun id hid => hi ⟨id, hid⟩
    have hraised : p.raised (m.viewIn p) i = [] := by
      cases i with
      | syscall id => exact absurd rfl (hne id)
      | _ => rfl
    rw [ledger_exec_of_ne hne h, hraised, List.append_nil]
    rfl

/-- Each instruction that is begun counts as one. -/
theorem ledger_advance (p : Program) (m : Machine) : (m.advance p).ledger =
    match p.fetch? m.registers.ip with
    | none => m.ledger
    | some i =>
      { m.ledger with
        executed := Stats.saturatingAdd m.stats.executed 1
        pending := m.pending ++ p.raised (m.viewIn p) i } := by
  rw [advance]
  cases p.fetch? m.registers.ip with
  | none => rfl
  | some i =>
    simp only
    split
    next hexec =>
      rw [ledger_exec hexec]
      rfl
    next f hexec =>
      have hraised : p.raised (m.viewIn p) i = [] := by
        cases i with
        | syscall id => cases hexec
        | _ => rfl
      rw [hraised, List.append_nil]
      rfl

end

end Machine

end RegisterMachine

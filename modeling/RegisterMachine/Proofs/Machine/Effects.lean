import Mathlib
import RegisterMachine.Proofs.Machine.Access
import RegisterMachine.Proofs.Machine.Frame
import RegisterMachine.Proofs.Machine.Silence

namespace RegisterMachine

namespace Instruction

/-- The instruction is an assertion that does not hold of these registers. -/
def refuted (rs : Registers) : Instruction → Bool
  | assertEqual expected actual => rs.get expected != rs.get actual
  | assertDistinct expected actual => rs.get expected == rs.get actual
  | _ => false

/-- The instruction halts a machine with these registers. -/
def halts (rs : Registers) : Instruction → Bool
  | exit => true
  | i => i.refuted rs

/-- The instruction hands out a slot, takes it back or writes to it. -/
def changesMemory : Instruction → Bool
  | alloc .. | free _ | store .. => true
  | _ => false

/-- The instruction turns to the outside world: it reserves a slot, or calls a system function that is
there. -/
def asks (p : Program) : Instruction → Bool
  | alloc .. => true
  | syscall id => id.toNat < p.syscalls.size
  | _ => false

/-- The registers that an instruction may change, where these are their contents. -/
def changed (rs : Registers) (i : Instruction) : List Register :=
  match i with
  | assertEqual .. | assertDistinct .. => if i.refuted rs then [.result] else []
  | syscall _ => [.op]
  | i => i.written

end Instruction

namespace Syscall

/-- The functions that every machine has change nothing but `op`. -/
theorem call_builtin {n : Nat} {f : Syscall} (h : builtin[n]? = some f) (v : View) :
    ∃ success, (f.call v).1 = withSuccess v success := by
  rcases n with _ | _ | n
  · obtain rfl : timer = f := Option.some.inj h
    simp only [timer]
    split
    · exact ⟨false, rfl⟩
    · split
      · exact ⟨true, rfl⟩
      · exact ⟨false, rfl⟩
  · obtain rfl : print = f := Option.some.inj h
    simp only [print, write]
    split
    · split
      · exact ⟨true, rfl⟩
      · exact ⟨false, rfl⟩
    · exact ⟨false, rfl⟩
  · cases h

end Syscall

namespace Memory

theorem isSome_alloc? (m : Memory) (size : UInt64) (reserves : Nat → Bool) :
    (m.alloc? size reserves).isSome = Slot.obtainable reserves size.toNat := by
  rw [alloc?, Option.isSome_map, Slot.zeros?]
  split
  next h => exact h.symm
  next h => exact (Bool.not_eq_true _ ▸ h).symm

theorem isSome_free? (m : Memory) (id : UInt64) : (m.free? id).isSome = (m.slot? id).isSome := by
  rw [free?]
  split
  next h => exact h.symm
  next h => exact (Bool.not_eq_true _ ▸ h).symm

end Memory

namespace Machine

/-- The memory after what an instruction asks of it, if that can be done; most instructions ask for
nothing. -/
def access? (p : Program) (m : Machine) : Instruction → Option (Option Memory)
  | .alloc _ size => some ((m.memory.alloc? (m.registers.get size) (m.reserves p)).map Prod.snd)
  | .free slot => some (m.memory.free? (m.registers.get slot))
  | .store w slot offset src =>
    some (m.memory.write? (m.registers.get slot) (m.registers.get offset) w (m.registers.get src))
  | .load w slot offset _ =>
    some ((m.memory.read? (m.registers.get slot) (m.registers.get offset) w).map fun _ => m.memory)
  | _ => none

/-- What an instruction asks of the memory can be done: the slot needs no bytes or the outside world has them,
the slot is in use, or the access ends inside of it. -/
def grants (p : Program) (m : Machine) : Instruction → Bool
  | .alloc _ size =>
    let bytes := (m.registers.get size).toNat + (m.registers.get size).toNat % 2
    bytes = 0 || bytes < 2 ^ 63 && m.reserves p bytes
  | .free slot => (m.memory.slot? (m.registers.get slot)).isSome
  | .store w slot offset _ | .load w slot offset _ =>
    m.memory.fits (m.registers.get slot) (m.registers.get offset) w
  | _ => false

/-- The machine after the instruction has turned to the outside world, if it does. -/
def asking (p : Program) (m : Machine) (i : Instruction) : Machine :=
  if i.asks p then m.ask else m

/-- The machine after an access to the memory. One that can be made reports success and has its effect; one
that cannot be made does nothing but to report it. -/
def Tells (m m' : Machine) (answer : Option Memory) : Prop :=
  m'.memory = answer.getD m.memory ∧ m'.registers.get .op = (if answer.isSome then 1 else 0) ∧
    (answer = none → m' = m.setRegister .op 0)

/-- What an instruction that was carried out may have changed. -/
structure Changes (p : Program) (i : Instruction) (m m' : Machine) : Prop where
  registers : ∀ r, r ∉ i.changed m.registers → m'.registers.get r = m.registers.get r
  stack : i.usesStack = false → m'.stack = m.stack
  memory : i.changesMemory = false → m'.memory = m.memory
  callStack : i.usesCallStack = false → m'.callStack = m.callStack
  interruptsEnabled : m'.interruptsEnabled = i.switch?.getD m.interruptsEnabled
  alive : m'.alive = (m.alive && !i.halts m.registers)
  pending : m'.pending = m.pending
  fault : m'.fault = m.fault
  asked : m'.asked = (m.asking p i).asked

section

variable {p : Program} {m m' : Machine} {ip : UInt64} {i : Instruction}

/-- To turn to the outside world changes nothing but the number of times that it was done. -/
theorem asking_eq (p : Program) (m : Machine) (i : Instruction) :
    m.asking p i = { m with asked := (m.asking p i).asked } := by
  rw [asking]
  split <;> rfl

/-- A call of a function that every machine has turns to the outside world, reports in `op`, counts and
tells. -/
theorem resembles_syscall (hp : p.syscalls = Syscall.builtin) (ip : UInt64) (m : Machine) (id : UInt64) :
    ∃ success, Resembles ((m.asking p (.syscall id)).setSuccess success) (m.syscall p ip id) := by
  rw [syscall, asking, Instruction.asks, hp]
  cases hf : Syscall.builtin[id.toNat]? with
  | none =>
    have hid : ¬ id.toNat < Syscall.builtin.size := Nat.not_lt.mpr (Array.getElem?_eq_none_iff.mp hf)
    rw [if_neg (by simpa using hid)]
    exact ⟨false, .refl _⟩
  | some f =>
    obtain ⟨success, hcall⟩ := Syscall.call_builtin hf (m.viewIn p)
    -- The function is called on the machine or, if the call is traced, on one with one more event.
    have hperform : ∀ m₁ : Machine, m₁.viewIn p = m.viewIn p → Resembles (m.ask.setSuccess success)
        (m₁.ask.setSuccess success) → Resembles (m.ask.setSuccess success)
          (((f.call (m₁.viewIn p)).2.foldl perform
            (m₁.setView (f.call (m₁.viewIn p)).1)).count .dispatched).ask := by
      intro m₁ hview h
      have hset : m₁.setView (f.call (m₁.viewIn p)).1 = m₁.setSuccess success := by
        rw [hview, hcall, ← hview]
        rfl
      have hsame := Resembles.foldl Resembles.perform (f.call (m₁.viewIn p)).2 (m₁.setSuccess success)
      rw [hset]
      exact h.trans (hsame.trans (.count _ .dispatched)).ask
    rw [if_pos (decide_eq_true (Array.getElem?_eq_some_iff.mp hf).1)]
    refine ⟨success, hperform _ ?_ ?_⟩
    · split <;> rfl
    · split
      · exact .trace _ _
      · exact .refl _

theorem pending_of_exec (hp : p.syscalls = Syscall.builtin) (h : m.exec p ip i = .ok m') :
    m'.pending = m.pending := by
  have hquiet : p.quiet = p := Program.quiet_eq_self (hp ▸ Syscall.quiet_builtin)
  have hraised : p.raised (m.viewIn p) i = [] := hquiet ▸ p.raised_quiet (m.viewIn p) i
  have hledger : m'.pending = m.pending ++ p.raised (m.viewIn p) i := congrArg Ledger.pending (ledger_exec h)
  rw [hledger, hraised, List.append_nil]

theorem Resembles.eq (h : Resembles m m') (hpending : m'.pending = m.pending) :
    m' = { m with stats := m'.stats, events := m'.events } := by
  obtain ⟨registers, stack, memory, callStack, interruptsEnabled, pending, alive, fault, stats, asked,
    events⟩ := m'
  obtain ⟨rfl, rfl, rfl, rfl, rfl, rfl, rfl, rfl, -⟩ := h
  obtain rfl := hpending
  rfl

theorem Framed.changes (h : Framed i m m') (hpending : m'.pending = m.pending)
    (hchanged : i.changed m.registers = i.written) (hmemory : i.changesMemory = i.usesMemory)
    (hhalts : i.halts m.registers = false) (halive : i.mayHalt = false)
    (hasked : m'.asked = (m.asking p i).asked) : Changes p i m m' where
  registers r hr := h.registers r (hchanged ▸ hr)
  stack := h.stack
  memory hi := h.memory (hmemory ▸ hi)
  callStack := h.callStack
  interruptsEnabled := h.interruptsEnabled
  alive := by rw [hhalts, h.alive halive, Bool.not_false, Bool.and_true]
  pending := hpending
  fault := h.fault
  asked := hasked

theorem changes_assert {op : Opcode} {holds : Bool} {expected actual : Register}
    (hi : i = .assertEqual expected actual ∨ i = .assertDistinct expected actual)
    (hrefuted : i.refuted m.registers = !holds) : Changes p i m (m.assert ip op holds expected actual) := by
  have hchanged : i.changed m.registers = if i.refuted m.registers then [.result] else [] := by
    rcases hi with rfl | rfl <;> rfl
  have hhalts : i.halts m.registers = i.refuted m.registers := by rcases hi with rfl | rfl <;> rfl
  have hswitch : i.switch? = none := by rcases hi with rfl | rfl <;> rfl
  have hasking : m.asking p i = m := by rcases hi with rfl | rfl <;> rfl
  rw [hrefuted] at hchanged hhalts
  cases holds with
  | true =>
    refine ⟨fun _ _ => rfl, fun _ => rfl, fun _ => rfl, fun _ => rfl, by rw [hswitch]; rfl, ?_, rfl, rfl,
      by rw [hasking]; rfl⟩
    rw [hhalts]
    exact (Bool.and_true _).symm
  | false =>
    refine ⟨fun r hr => ?_, fun _ => rfl, fun _ => rfl, fun _ => rfl, by rw [hswitch]; rfl, ?_, rfl, rfl,
      by rw [hasking]; rfl⟩
    · rw [hchanged] at hr
      exact Registers.get_set_of_ne _ _ (List.ne_of_not_mem_cons hr)
    · rw [hhalts]
      exact (Bool.and_false _).symm

theorem changes_of_exec (hp : p.syscalls = Syscall.builtin) (h : m.exec p ip i = .ok m') :
    Changes p i m m' := by
  have hframed := framed_of_exec h
  have hpending := pending_of_exec hp h
  cases i with
  | syscall id =>
    obtain rfl := Except.ok.inj h
    obtain ⟨success, hsame⟩ := resembles_syscall hp ip m id
    rw [asking_eq] at hsame
    refine ⟨fun r hr => ?_, hframed.stack, fun _ => hsame.memory, hframed.callStack,
      hframed.interruptsEnabled, ?_, hpending, hframed.fault, hsame.asked⟩
    · rw [hsame.registers]
      exact Registers.get_set_of_ne _ _ (List.ne_of_not_mem_cons hr)
    · exact hsame.alive.trans (Bool.and_true _).symm
  | assertEqual expected actual =>
    obtain rfl := Except.ok.inj h
    exact changes_assert (.inl rfl) rfl
  | assertDistinct expected actual =>
    obtain rfl := Except.ok.inj h
    exact changes_assert (.inr rfl) (Bool.not_not _).symm
  | exit =>
    refine ⟨hframed.registers, hframed.stack, hframed.memory, hframed.callStack,
      hframed.interruptsEnabled, ?_, hpending, hframed.fault, hframed.asked rfl⟩
    obtain rfl := Except.ok.inj h
    exact (Bool.and_false _).symm
  | alloc dest size =>
    refine hframed.changes hpending rfl rfl rfl rfl ?_
    obtain rfl := Except.ok.inj h
    rw [alloc]
    split <;> rfl
  | _ => exact hframed.changes hpending rfl rfl rfl rfl (hframed.asked rfl)

theorem isSome_access? {answer : Option Memory} (h : m.access? p i = some answer) :
    answer.isSome = m.grants p i := by
  cases i with
  | alloc dest size =>
    obtain rfl := Option.some.inj h
    rw [Option.isSome_map, Memory.isSome_alloc?]
    rfl
  | free slot =>
    obtain rfl := Option.some.inj h
    rw [Memory.isSome_free?, grants]
  | store w slot offset src =>
    obtain rfl := Option.some.inj h
    rw [Memory.isSome_write?, grants]
  | load w slot offset dest =>
    obtain rfl := Option.some.inj h
    rw [Option.isSome_map, Memory.isSome_read?, grants]
  | _ => cases h

theorem tells_none (m : Machine) : m.Tells (m.setSuccess false) none :=
  ⟨rfl, get_setSuccess_op m false, fun _ => rfl⟩

theorem tells_some (m m' : Machine) : m.Tells (m'.setSuccess true) (some m'.memory) :=
  ⟨rfl, get_setSuccess_op m' true, fun hnone => absurd hnone (Option.some_ne_none _)⟩

theorem tells_of_exec {answer : Option Memory} (h : m.exec p ip i = .ok m')
    (hanswer : m.access? p i = some answer) : (m.asking p i).Tells m' answer := by
  cases i with
  | alloc dest size =>
    obtain rfl := Option.some.inj hanswer
    obtain rfl := Except.ok.inj h
    rw [alloc]
    cases m.memory.alloc? (m.registers.get size) (m.reserves p) with
    | none => exact m.ask.tells_none
    | some r => exact m.ask.tells_some (({ m.ask with memory := r.2 }.setRegister dest r.1).count .allocated)
  | free slot =>
    obtain rfl := Option.some.inj hanswer
    obtain rfl := Except.ok.inj h
    rw [free]
    cases m.memory.free? (m.registers.get slot) with
    | none => exact m.tells_none
    | some memory => exact m.tells_some { m with memory }
  | store w slot offset src =>
    obtain rfl := Option.some.inj hanswer
    obtain rfl := Except.ok.inj h
    simp only [store]
    cases m.memory.write? (m.registers.get slot) (m.registers.get offset) w (m.registers.get src) with
    | none => exact m.tells_none
    | some memory => exact m.tells_some { m with memory }
  | load w slot offset dest =>
    obtain rfl := Option.some.inj hanswer
    obtain rfl := Except.ok.inj h
    rw [load]
    cases m.memory.read? (m.registers.get slot) (m.registers.get offset) w with
    | none => exact m.tells_none
    | some v => exact m.tells_some (m.setRegister dest v)
  | _ => cases hanswer

end

/-- On a machine that has no system functions but those that every machine has, an instruction that is
carried out changes nothing but what it is there for. What asks something of the memory tells in `op` whether
that could be done: if so it is done, and otherwise nothing but `op` is changed. Whether a slot can be had is
up to the outside world. Of all that belongs to the machine, system functions change `op` alone; one that is
not there sets it to zero. -/
theorem exec_changes {p : Program} {m m' : Machine} {ip : UInt64} {i : Instruction}
    (hp : p.syscalls = Syscall.builtin) (h : m.exec p ip i = .ok m') :
    Changes p i m m' ∧
    (∀ answer, m.access? p i = some answer →
      answer.isSome = m.grants p i ∧ (m.asking p i).Tells m' answer) ∧
    ∀ id, i = .syscall id →
      (∃ success, m' =
        { (m.asking p i).setSuccess success with stats := m'.stats, events := m'.events }) ∧
      (p.syscalls.size ≤ id.toNat → m' = m.setRegister .op 0) := by
  refine ⟨changes_of_exec hp h,
    fun answer hanswer => ⟨isSome_access? hanswer, tells_of_exec h hanswer⟩, ?_⟩
  rintro id rfl
  have hpending := pending_of_exec hp h
  obtain rfl := Except.ok.inj h
  obtain ⟨success, hsame⟩ := resembles_syscall hp ip m id
  refine ⟨⟨success, hsame.eq ?_⟩, fun hid => ?_⟩
  · rw [asking_eq]
    exact hpending
  · rw [syscall, Array.getElem?_eq_none hid]
    rfl

/-- A slot of two bytes is asked for whose handle is to go to the instruction pointer, when the outside world
has no memory; a text is printed, of which the outside world takes the first character only. -/
theorem exec_changes_denied :
    let p : Program :=
      { instructions := #[], handlers := [], debug := .minimal, syscalls := Syscall.builtin,
        environment := fun _ _ => .refused 1 }
    let registers : Registers :=
      { Registers.initial with fp := 2, ints := ⟨#[0, 0, 2, 9, 0, 0, 0, 0, 0, 0], rfl⟩, op := 7 }
    let m : Machine :=
      { registers, stack := Stack.empty 4, memory := ⟨#[some ⟨#[72, 105]⟩], []⟩, callStack := [],
        interruptsEnabled := false, pending := [], alive := true, fault := none, stats := {}, events := [] }
    m.exec p 3 (.alloc .ip .fp) = .ok (m.ask.setRegister .op 0) ∧
      ∃ m', m.exec p 4 (.syscall 1) = .ok m' ∧ m'.registers = m.registers.set .op 0 ∧
        m'.memory = m.memory := by
  intro p registers m
  have hp : p.syscalls = Syscall.builtin := rfl
  refine ⟨?_, m.syscall p 4 1, rfl, ?_⟩
  · have hexec : m.exec p 3 (.alloc .ip .fp) = .ok (m.alloc p .ip .fp) := rfl
    have hgrants : m.grants p (.alloc .ip .fp) = false := by decide +kernel
    obtain ⟨-, haccess, -⟩ := exec_changes hp hexec
    obtain ⟨hgranted, -, -, hsame⟩ := haccess _ rfl
    rw [hexec, hsame (Option.isNone_iff_eq_none.mp (Option.isSome_eq_false_iff.mp (hgranted.trans hgrants)))]
    rfl
  · have hexec : m.exec p 4 (.syscall 1) = .ok (m.syscall p 4 1) := rfl
    obtain ⟨hchanges, -, hsyscall⟩ := exec_changes hp hexec
    obtain ⟨⟨success, hsame⟩, -⟩ := hsyscall 1 rfl
    have hregisters : (m.syscall p 4 1).registers = (m.setSuccess success).registers :=
      (congrArg Machine.registers hsame :)
    have hop : (m.syscall p 4 1).registers.op = 0 := by decide +kernel
    refine ⟨?_, hchanges.memory rfl⟩
    cases success with
    | false => exact hregisters
    | true => exact absurd ((congrArg Registers.op hregisters).symm.trans hop) (by decide)

end Machine

end RegisterMachine

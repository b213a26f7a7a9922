import Mathlib
import RegisterMachine.Machine.Run
import RegisterMachine.Proofs.Except

namespace RegisterMachine

/-- The registers that a system function sees. -/
def Register.viewed : List Register :=
  (List.finRange 10).map int ++ (List.finRange 10).map float ++ [op]

namespace Instruction

/-- The register that an instruction has its result in. -/
def destination? : Instruction → Option Register
  | move dest _ | arith _ dest _ _ | floatArith _ dest _ _ | bitwise _ dest _ _ | complement dest _
  | pop _ dest | alloc dest _ | load _ _ _ dest => some dest
  | _ => none

/-- The registers that an instruction may write to. -/
def written : Instruction → List Register
  | branch .. | floatBranch .. | jump _ | call _ | ret => [.ip]
  | move dest _ | arith _ dest _ _ | floatArith _ dest _ _ | bitwise _ dest _ _ | complement dest _ => [dest]
  | assertEqual .. | assertDistinct .. => [.result]
  | push .. => [.sp]
  | pop _ dest => [.sp, dest]
  | alloc dest _ | load _ _ _ dest => [dest, .op]
  | free _ | store .. => [.op]
  | syscall _ => Register.viewed
  | nop | exit | debug _ | enableInterrupts | disableInterrupts => []

def usesStack : Instruction → Bool
  | push .. | pop .. => true
  | _ => false

def usesMemory : Instruction → Bool
  | alloc .. | free _ | store .. | syscall _ => true
  | _ => false

def usesCallStack : Instruction → Bool
  | call _ | ret => true
  | _ => false

/-- The instruction can halt a machine that carries it out. -/
def mayHalt : Instruction → Bool
  | exit | assertEqual .. | assertDistinct .. => true
  | _ => false

/-- The instruction can turn to the outside world. -/
def mayAsk : Instruction → Bool
  | alloc .. | syscall _ => true
  | _ => false

/-- Whether interrupts are let in after the instruction, if it says so. -/
def switch? : Instruction → Option Bool
  | enableInterrupts => some true
  | disableInterrupts => some false
  | _ => none

theorem ne_call {i : Instruction} (h : i.usesCallStack = false) (target : UInt64) : i ≠ .call target := by
  rintro rfl
  cases h

theorem ne_ret {i : Instruction} (h : i.usesCallStack = false) : i ≠ .ret := by
  rintro rfl
  cases h

end Instruction

/-- The event tells that the program was stopped. -/
def Event.isKill : Event → Bool
  | .killed .. => true
  | _ => false

namespace Machine

/-- What the outside world learns of programs that were stopped, the latest first. -/
def kills (m : Machine) : List Event :=
  m.events.filter Event.isKill

/-- The second machine is the first one, but for what it has counted and told and for the interrupts that it
has asked for, and it has told of no fault. -/
structure Resembles (m m' : Machine) : Prop where
  registers : m'.registers = m.registers
  stack : m'.stack = m.stack
  memory : m'.memory = m.memory
  callStack : m'.callStack = m.callStack
  interruptsEnabled : m'.interruptsEnabled = m.interruptsEnabled
  alive : m'.alive = m.alive
  fault : m'.fault = m.fault
  asked : m'.asked = m.asked
  kills : m'.kills = m.kills

/-- What an instruction that was carried out left alone. -/
structure Framed (i : Instruction) (m m' : Machine) : Prop where
  registers : ∀ r, r ∉ i.written → m'.registers.get r = m.registers.get r
  stack : i.usesStack = false → m'.stack = m.stack
  memory : i.usesMemory = false → m'.memory = m.memory
  callStack : i.usesCallStack = false → m'.callStack = m.callStack
  interruptsEnabled : m'.interruptsEnabled = i.switch?.getD m.interruptsEnabled
  alive : i.mayHalt = false → m'.alive = m.alive
  fault : m'.fault = m.fault
  asked : i.mayAsk = false → m'.asked = m.asked
  kills : m'.kills = m.kills

section

variable {p : Program} {m m₁ m' : Machine} {ip : UInt64} {i : Instruction}

namespace Resembles

theorem refl (m : Machine) : Resembles m m :=
  ⟨rfl, rfl, rfl, rfl, rfl, rfl, rfl, rfl, rfl⟩

theorem trans (h : Resembles m m₁) (h' : Resembles m₁ m') : Resembles m m' where
  registers := h'.registers.trans h.registers
  stack := h'.stack.trans h.stack
  memory := h'.memory.trans h.memory
  callStack := h'.callStack.trans h.callStack
  interruptsEnabled := h'.interruptsEnabled.trans h.interruptsEnabled
  alive := h'.alive.trans h.alive
  fault := h'.fault.trans h.fault
  asked := h'.asked.trans h.asked
  kills := h'.kills.trans h.kills

theorem foldl {α : Type} {g : Machine → α → Machine} (hg : ∀ m a, Resembles m (g m a)) (l : List α)
    (m : Machine) : Resembles m (l.foldl g m) :=
  List.foldlRecOn (motive := Resembles m) l g (refl m) fun m' h a _ => h.trans (hg m' a)

theorem perform (m : Machine) (e : Effect) : Resembles m (m.perform e) := by
  cases e <;> exact ⟨rfl, rfl, rfl, rfl, rfl, rfl, rfl, rfl, rfl⟩

theorem trace (m : Machine) (line : String) : Resembles m (m.trace line) :=
  ⟨rfl, rfl, rfl, rfl, rfl, rfl, rfl, rfl, rfl⟩

theorem ask (h : Resembles m m') : Resembles m.ask m'.ask :=
  { h with asked := congrArg (· + 1) h.asked }

theorem count (m : Machine) (c : Counter) : Resembles m (m.count c) :=
  ⟨rfl, rfl, rfl, rfl, rfl, rfl, rfl, rfl, rfl⟩

end Resembles

namespace Framed

theorem refl (hswitch : i.switch? = none) : Framed i m m where
  registers _ _ := rfl
  stack _ := rfl
  memory _ := rfl
  callStack _ := rfl
  interruptsEnabled := by
    rw [hswitch]
    rfl
  alive _ := rfl
  fault := rfl
  asked _ := rfl
  kills := rfl

theorem trans (h : Framed i m m₁) (h' : Resembles m₁ m') : Framed i m m' where
  registers r hr := h'.registers ▸ h.registers r hr
  stack hi := h'.stack.trans (h.stack hi)
  memory hi := h'.memory.trans (h.memory hi)
  callStack hi := h'.callStack.trans (h.callStack hi)
  interruptsEnabled := h'.interruptsEnabled.trans h.interruptsEnabled
  alive hi := h'.alive.trans (h.alive hi)
  fault := h'.fault.trans h.fault
  asked hi := h'.asked.trans (h.asked hi)
  kills := h'.kills.trans h.kills

/-- A register that the instruction may write to is written to besides. -/
theorem set {r : Register} {v : UInt64} (h : Framed i m m₁) (hr : r ∈ i.written) :
    Framed i m (m₁.setRegister r v) :=
  have hne : ∀ r', r' ∉ i.written → r' ≠ r := fun _ hr' heq => hr' (heq ▸ hr)
  { h with
    registers := fun _ hr' => (Registers.get_set_of_ne _ _ (hne _ hr')).trans (h.registers _ hr') }

theorem withStack {stack : Stack} (h : Framed i m m₁) (hi : i.usesStack = true) :
    Framed i m { m₁ with stack } :=
  { h with stack := fun hno => absurd (hi.symm.trans hno) nofun }

theorem withMemory {memory : Memory} (h : Framed i m m₁) (hi : i.usesMemory = true) :
    Framed i m { m₁ with memory } :=
  { h with memory := fun hno => absurd (hi.symm.trans hno) nofun }

theorem withCallStack {callStack : List UInt64} (h : Framed i m m₁) (hi : i.usesCallStack = true) :
    Framed i m { m₁ with callStack } :=
  { h with callStack := fun hno => absurd (hi.symm.trans hno) nofun }

theorem ask (h : Framed i m m₁) (hi : i.mayAsk = true) : Framed i m m₁.ask :=
  { h with asked := fun hno => absurd (hi.symm.trans hno) nofun }

end Framed

theorem get_setView {r : Register} (v : View) (h : r ∉ Register.viewed) :
    (m.setView v).registers.get r = m.registers.get r := by
  cases r with
  | int i | float i | op => simp [Register.viewed] at h
  | _ => rfl

theorem framed_syscall (p : Program) (ip : UInt64) (m : Machine) (id : UInt64) :
    Framed (.syscall id) m (m.syscall p ip id) := by
  rw [syscall]
  cases p.syscalls[id.toNat]? with
  | none => exact (Framed.refl rfl).set (List.mem_append_right _ (List.mem_singleton.mpr rfl))
  | some f =>
    have hcall : ∀ (m₁ : Machine) (v : View) (effects : List Effect), Resembles m m₁ →
        Framed (.syscall id) m (((effects.foldl perform (m₁.setView v)).count .dispatched).ask) := by
      intro m₁ v effects h
      have hview : Framed (.syscall id) m (m₁.setView v) :=
        { (Framed.refl rfl).trans h with
          registers := fun r hr => (get_setView v hr).trans (congrArg (·.get r) h.registers)
          memory := nofun }
      exact ((hview.trans (.foldl Resembles.perform effects _)).trans (.count _ _)).ask rfl
    refine hcall _ _ _ ?_
    split
    · exact .trace m _
    · exact .refl m

theorem framed_jumpIf {condition : Bool} {target : UInt64} (hip : .ip ∈ i.written)
    (hswitch : i.switch? = none) : Framed i m (m.jumpIf condition target) := by
  cases condition with
  | true => exact (Framed.refl hswitch).set hip
  | false => exact .refl hswitch

theorem framed_assert {op : Opcode} {holds : Bool} {expected actual : Register}
    (hresult : .result ∈ i.written) (hswitch : i.switch? = none) (hhalts : i.mayHalt = true) :
    Framed i m (m.assert ip op holds expected actual) := by
  cases holds with
  | true => exact .refl hswitch
  | false =>
    have hset : Framed i m (m.setRegister .result 1) := (Framed.refl hswitch).set hresult
    exact { hset with alive := fun hno => absurd (hhalts.symm.trans hno) nofun }

/-- What each instruction leaves alone when it is carried out. -/
theorem framed_of_exec (h : m.exec p ip i = .ok m') : Framed i m m' := by
  cases i with
  | nop =>
    obtain rfl := Except.ok.inj h
    split
    · exact (Framed.refl rfl).trans (.trace m _)
    · exact .refl rfl
  | debug id =>
    obtain rfl := Except.ok.inj h
    exact (Framed.refl rfl).trans (.foldl Resembles.trace _ m)
  | branch c lhs rhs target | floatBranch c lhs rhs target =>
    obtain rfl := Except.ok.inj h
    exact framed_jumpIf (List.mem_singleton.mpr rfl) rfl
  | jump target =>
    obtain rfl := Except.ok.inj h
    exact (Framed.refl rfl).set (List.mem_singleton.mpr rfl)
  | call target =>
    obtain rfl := Except.ok.inj h
    exact ((Framed.refl rfl).withCallStack rfl).set (List.mem_singleton.mpr rfl)
  | ret =>
    have hleave : m.leave = .ok m' := h
    rw [leave] at hleave
    split at hleave
    next =>
      obtain rfl := Except.ok.inj hleave
      exact ((Framed.refl rfl).withCallStack rfl).set (List.mem_singleton.mpr rfl)
    next => cases hleave
  | move dest v | bitwise op dest lhs rhs | complement dest src =>
    obtain rfl := Except.ok.inj h
    exact (Framed.refl rfl).set (List.mem_singleton.mpr rfl)
  | arith op dest lhs rhs | floatArith op dest lhs rhs =>
    obtain ⟨v, -, hnext⟩ := Except.bind_eq_ok_iff.mp h
    obtain rfl := Except.ok.inj hnext
    exact (Framed.refl rfl).set (List.mem_singleton.mpr rfl)
  | assertEqual expected actual | assertDistinct expected actual =>
    obtain rfl := Except.ok.inj h
    exact framed_assert (List.mem_singleton.mpr rfl) rfl rfl
  | push w src =>
    obtain ⟨stack, -, hnext⟩ := Except.bind_eq_ok_iff.mp h
    obtain rfl := Except.ok.inj hnext
    exact ((Framed.refl rfl).withStack rfl).set (List.mem_singleton.mpr rfl)
  | pop w dest =>
    obtain ⟨⟨v, stack⟩, -, hnext⟩ := Except.bind_eq_ok_iff.mp h
    obtain rfl := Except.ok.inj hnext
    have hsp : Framed (.pop w dest) m ({ m with stack }.setRegister .sp (UInt64.ofNat stack.size)) :=
      ((Framed.refl rfl).withStack rfl).set List.mem_cons_self
    exact hsp.set (List.mem_cons_of_mem _ List.mem_cons_self)
  | alloc dest size =>
    have hop : .op ∈ (Instruction.alloc dest size).written := List.mem_cons_of_mem _ List.mem_cons_self
    have hask : Framed (.alloc dest size) m m.ask := (Framed.refl rfl).ask rfl
    obtain rfl := Except.ok.inj h
    rw [alloc]
    split
    next => exact (((hask.withMemory rfl).set List.mem_cons_self).set hop).trans (.count _ _)
    next => exact hask.set hop
  | load w slot offset dest =>
    have hop : .op ∈ (Instruction.load w slot offset dest).written :=
      List.mem_cons_of_mem _ List.mem_cons_self
    obtain rfl := Except.ok.inj h
    rw [load]
    split
    next => exact ((Framed.refl rfl).set List.mem_cons_self).set hop
    next => exact (Framed.refl rfl).set hop
  | free slot =>
    obtain rfl := Except.ok.inj h
    rw [free]
    split
    next => exact ((Framed.refl rfl).withMemory rfl).set List.mem_cons_self
    next => exact (Framed.refl rfl).set List.mem_cons_self
  | store w slot offset src =>
    obtain rfl := Except.ok.inj h
    simp only [store]
    split
    next => exact ((Framed.refl rfl).withMemory rfl).set List.mem_cons_self
    next => exact (Framed.refl rfl).set List.mem_cons_self
  | syscall id =>
    obtain rfl := Except.ok.inj h
    exact framed_syscall p ip m id
  | exit =>
    obtain rfl := Except.ok.inj h
    exact ⟨fun _ _ => rfl, fun _ => rfl, fun _ => rfl, fun _ => rfl, rfl, nofun, rfl, fun _ => rfl, rfl⟩
  | enableInterrupts | disableInterrupts =>
    obtain rfl := Except.ok.inj h
    exact ⟨fun _ _ => rfl, fun _ => rfl, fun _ => rfl, fun _ => rfl, rfl, fun _ => rfl, rfl, fun _ => rfl, rfl⟩

end

end Machine

end RegisterMachine

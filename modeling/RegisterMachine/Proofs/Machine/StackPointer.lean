import Mathlib
import RegisterMachine.Proofs.Machine.Confinement
import RegisterMachine.Proofs.Machine.Faults

namespace RegisterMachine

theorem Instruction.sp_not_mem_written {i : Instruction} (hdest : i.destination? ≠ some .sp)
    (hstack : i.usesStack = false) : .sp ∉ i.written := by
  cases i <;> simp_all [destination?, usesStack, written, Register.viewed, Register.result, eq_comm]

namespace Machine

/-- The stack is what some calls have made of a new one, and the stack pointer tells its size. -/
structure Mirrors (capacity : Nat) (m : Machine) : Prop where
  stack : ∃ calls, m.stack = (Stack.empty capacity).after calls
  sp : m.registers.sp = UInt64.ofNat m.stack.size

namespace Mirrors

variable {p : Program} {m m' : Machine} {t : List Transfer} {i : Instruction} {ip : UInt64} {capacity : Nat}

theorem of_same (h : Mirrors capacity m) (hstack : m'.stack = m.stack)
    (hsp : m'.registers.sp = m.registers.sp) : Mirrors capacity m' :=
  ⟨hstack ▸ h.stack, by rw [hsp, hstack, h.sp]⟩

theorem of_respond (h : Mirrors capacity m) (c : Stack.Call) (hstack : m'.stack = (m.stack.respond c).2)
    (hsp : m'.registers.sp = UInt64.ofNat m'.stack.size) : Mirrors capacity m' := by
  obtain ⟨calls, hcalls⟩ := h.stack
  refine ⟨⟨calls ++ [c], ?_⟩, hsp⟩
  rw [hstack, hcalls, Stack.after_append]
  rfl

theorem exec (h : Mirrors capacity m) (hdest : i.destination? ≠ some .sp)
    (hexec : m.exec p ip i = .ok m') : Mirrors capacity m' := by
  cases i with
  | push w src =>
    obtain ⟨stack, hpush, hnext⟩ := Except.bind_eq_ok_iff.mp hexec
    obtain rfl := Except.ok.inj hnext
    refine h.of_respond (.push w (m.registers.get src)) ?_ rfl
    rw [Stack.respond, hpush]
    rfl
  | pop w dest =>
    obtain ⟨⟨v, stack⟩, hpop, hnext⟩ := Except.bind_eq_ok_iff.mp hexec
    obtain rfl := Except.ok.inj hnext
    refine h.of_respond (.pop w) ?_ ?_
    · rw [Stack.respond, hpop]
      rfl
    · -- The value is written last, and it goes to another register.
      have hne : Register.sp ≠ dest := fun heq => hdest (congrArg some heq.symm)
      exact Registers.get_set_of_ne _ v hne
  | _ =>
    have hframed := framed_of_exec hexec
    exact h.of_same (hframed.stack rfl) (hframed.registers .sp (Instruction.sp_not_mem_written hdest rfl))

theorem advance (h : Mirrors capacity m) (hp : ∀ ip i, p.fetch? ip = some i → i.destination? ≠ some .sp) :
    Mirrors capacity (m.advance p) := by
  rcases faults_or_exec p m with ⟨f, hfaults⟩ | ⟨i, hfetch, hexec⟩
  · exact h.of_same hfaults.stopped.stack (hfaults.stopped.registers .sp nofun nofun)
  · have hfetched : Mirrors capacity m.fetched := h.of_same rfl rfl
    exact hfetched.exec (hp _ i hfetch) hexec

theorem answer (h : Mirrors capacity m) (p : Program) (r : Request) : Mirrors capacity (m.answer p r) :=
  h.of_same (congrArg Machine.stack (diverted_answer p m r) :)
    (congrArg (·.registers.sp) (diverted_answer p m r) :)

theorem step (h : Mirrors capacity m) (hp : ∀ ip i, p.fetch? ip = some i → i.destination? ≠ some .sp)
    (hstep : Step p m t m') : Mirrors capacity m' := by
  cases hstep with
  | start | request | notice => exact h.of_same rfl rfl
  | @answer r rest _ _ =>
    have hrest : Mirrors capacity { m with pending := rest } := h.of_same rfl rfl
    exact hrest.answer p r
  | advance _ =>
    have hready : Mirrors capacity m.resetConstants := h.of_same rfl rfl
    exact hready.advance hp

theorem reaches (h : Mirrors capacity m) (hp : ∀ ip i, p.fetch? ip = some i → i.destination? ≠ some .sp)
    (hreaches : Reaches p m t m') : Mirrors capacity m' := by
  induction hreaches with
  | refl => exact h
  | tail _ hstep ih => exact ih.step hp hstep

theorem ofImage (i : Image) (stackSize : Nat) : Mirrors stackSize (ofImage i stackSize) :=
  ⟨⟨[], rfl⟩, rfl⟩

end Mirrors

/-- At every point of every history of an image in which no instruction has the stack pointer as its
destination, the stack pointer is the number of bytes on the stack, as far as a register can hold it, and
the stack holds no more than it has room for. -/
theorem stackPointer_mirrors (i : Image) (syscalls : Array Syscall) (environment : Environment)
    (stackSize : Nat) (t : List Transfer) (m : Machine)
    (hdest : ∀ j ∈ i.instructions, j.destination? ≠ some .sp)
    (h : Reaches (Program.ofImage i syscalls environment) (ofImage i stackSize) t m) :
    m.registers.sp = UInt64.ofNat m.stack.toList.length ∧ m.stack.toList.length ≤ stackSize ∧
      (stackSize < UInt64.size → m.registers.sp.toNat = m.stack.toList.length) := by
  obtain ⟨⟨calls, hcalls⟩, hsp⟩ := (Mirrors.ofImage i stackSize).reaches
    (fun _ j hfetch => hdest j (Program.mem_of_fetch? hfetch)) h
  have hle : m.stack.size ≤ stackSize := by
    have hcapacity : m.stack.capacity = stackSize := hcalls ▸ Stack.capacity_after _ calls
    exact hcapacity ▸ m.stack.size_le
  rw [Stack.length_toList]
  refine ⟨hsp, hle, fun hbound => ?_⟩
  rw [hsp]
  exact UInt64.toNat_ofNat_of_lt' (by omega)

/-- A first run is stopped by a push and a second one by a pop; in the third one a handler pushes once more. -/
theorem stackPointer_mirrors_reruns :
    let i : Image :=
      { version := Version.supported, debug := .none, sections := [], interrupts := [⟨3, 6⟩],
        constants := [], entry := 0,
        instructions := [.enableInterrupts, .push .double .x1, .push .half .x1, .push .word .x1,
          .pop .word (.int 1), .pop .quad (.int 2), .push .half .x1, .ret] }
    let p := Program.ofImage i Syscall.builtin
    let m₁ := runWith p [] 4 (ofImage i 5).start
    let m₂ := runWith p [] 2 m₁.start
    let m₃ := runWith p [[⟨3, none⟩]] 3 m₂.start
    (∀ j ∈ i.instructions, j.destination? ≠ some .sp) ∧ m₁.fault = some (.stackFull 2 5) ∧
      m₂.fault = some (.stackShort 8 3) ∧ m₂.alive = false ∧ m₂.registers.sp = 3 ∧ m₃.alive = true ∧
      (∃ t, Reaches p (ofImage i 5) t m₃) ∧ m₃.registers.sp = 5 ∧
      m₃.registers.sp.toNat = m₃.stack.toList.length := by
  intro i p m₁ m₂ m₃
  have hdest : ∀ j ∈ i.instructions, j.destination? ≠ some .sp := by decide
  have hrun : ∀ schedule n (m : Machine), Reaches p m (transfersWith p schedule n m.start)
      (runWith p schedule n m.start) := fun schedule n m =>
    (Reaches.single (.start m)).trans (reaches_runWith p schedule n m.start)
  have hreaches := ((hrun [] 4 (ofImage i 5)).trans (hrun [] 2 m₁)).trans (hrun [[⟨3, none⟩]] 3 m₂)
  have hmirrors := stackPointer_mirrors i Syscall.builtin _ 5 _ m₃ hdest hreaches
  exact ⟨hdest, by decide +kernel, by decide +kernel, by decide +kernel, by decide +kernel,
    by decide +kernel, ⟨_, hreaches⟩, by decide +kernel, hmirrors.2.2 (by decide)⟩

end Machine

end RegisterMachine

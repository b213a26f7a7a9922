import Mathlib
import RegisterMachine.Proofs.Machine.Lockstep

namespace RegisterMachine

/-- The instruction with `nop` in place of a debug mark. -/
def Instruction.unmarked : Instruction → Instruction
  | .debug _ => .nop
  | i => i

/-- The image at the lowest debug level, with `nop` in place of debug marks. -/
def Image.unmarked (i : Image) : Image :=
  { i with debug := .none, instructions := i.instructions.map Instruction.unmarked }

/-- The program at the lowest debug level, with `nop` in place of debug marks. -/
def Program.unmarked (p : Program) : Program :=
  { p with debug := .none, instructions := p.instructions.map Instruction.unmarked }

theorem Program.unmarked_ofImage (i : Image) (syscalls : Array Syscall) (environment : Environment) :
    (Program.ofImage i syscalls environment).unmarked =
      Program.ofImage i.unmarked syscalls environment := by
  simp [unmarked, ofImage, Image.unmarked]

theorem Program.fetch?_unmarked (p : Program) (ip : UInt64) :
    p.unmarked.fetch? ip = (p.fetch? ip).map Instruction.unmarked :=
  Array.getElem?_map

theorem Program.size_unmarked (p : Program) : p.unmarked.instructions.size = p.instructions.size :=
  Array.size_map

/-- The event is a line of the trace. -/
def Event.isTrace : Event → Bool
  | .traced _ => true
  | _ => false

namespace Machine

/-- The machine without the lines of the trace. -/
def untraced (m : Machine) : Machine :=
  { m with events := m.events.filter fun e => !e.isTrace }

section

variable {p p' : Program} {m : Machine} {i : Instruction} {how : Ending} {f : Fault}

@[simp] theorem untraced_registers (m : Machine) : m.untraced.registers = m.registers := rfl

@[simp] theorem untraced_memory (m : Machine) : m.untraced.memory = m.memory := rfl

theorem untraced_foldl_trace (lines : List String) (m : Machine) :
    (lines.foldl trace m).untraced = m.untraced := by
  have htrace : ∀ (m : Machine) line, (m.trace line).untraced = m.untraced := fun _ _ => rfl
  exact List.foldlRecOn (motive := fun m' => m'.untraced = m.untraced) lines trace rfl
    fun m' h line _ => (htrace m' line).trans h

theorem untraced_jumpIf (m : Machine) (condition : Bool) (target : UInt64) :
    (m.jumpIf condition target).untraced = m.untraced.jumpIf condition target := by
  cases condition <;> rfl

theorem untraced_assert (m : Machine) (ip : UInt64) (op : Opcode) (holds : Bool)
    (expected actual : Register) :
    (m.assert ip op holds expected actual).untraced = m.untraced.assert ip op holds expected actual := by
  cases holds <;> rfl

theorem untraced_foldl_perform (effects : List Effect) (m : Machine) :
    (effects.foldl perform m).untraced = effects.foldl perform m.untraced := by
  refine (List.foldl_hom untraced fun m e => ?_).symm
  cases e <;> rfl

theorem untraced_syscall (p : Program) (ip : UInt64) (m : Machine) (id : UInt64) :
    (m.syscall p ip id).untraced = m.untraced.syscall p.unmarked ip id := by
  have hget : p.unmarked.syscalls = p.syscalls := rfl
  rw [syscall, syscall, hget]
  cases p.syscalls[id.toNat]? with
  | none => rfl
  | some f =>
    have hcount : ∀ m : Machine, (m.count .dispatched).ask.untraced = (m.untraced.count .dispatched).ask :=
      fun _ => rfl
    have hview : ∀ (m : Machine) v, (m.setView v).untraced = m.untraced.setView v := fun _ _ => rfl
    simp only [hcount, untraced_foldl_perform, hview]
    by_cases hdebug : p.debug.atLeast .minimal
    · rw [if_pos hdebug]
      rfl
    · rw [if_neg hdebug]
      rfl

theorem untraced_exec (p : Program) (ip : UInt64) (m : Machine) (i : Instruction) :
    (m.exec p ip i).map untraced = m.untraced.exec p.unmarked ip i.unmarked := by
  cases i with
  | nop =>
    simp only [exec]
    split <;> rfl
  | debug id => exact congrArg Except.ok (untraced_foldl_trace _ m)
  | syscall id => exact congrArg Except.ok (untraced_syscall p ip m id)
  | branch | floatBranch => exact congrArg Except.ok (untraced_jumpIf m _ _)
  | assertEqual | assertDistinct => exact congrArg Except.ok (untraced_assert m ip _ _ _ _)
  | ret =>
    have hstack : m.untraced.callStack = m.callStack := rfl
    simp only [exec, leave, Instruction.unmarked, hstack]
    cases m.callStack <;> rfl
  | arith op dest lhs rhs | floatArith op dest lhs rhs => exact Except.map_bind _ _ _
  | push w src | pop w dest => exact Except.map_bind _ _ _
  | alloc dest size =>
    have hreserves : m.untraced.reserves p.unmarked = m.reserves p := rfl
    simp only [exec, alloc, Instruction.unmarked, untraced_memory, untraced_registers, hreserves]
    cases m.memory.alloc? (m.registers.get size) (m.reserves p) <;> rfl
  | free slot =>
    simp only [exec, free, Instruction.unmarked, untraced_memory, untraced_registers]
    cases m.memory.free? (m.registers.get slot) <;> rfl
  | store w slot offset src =>
    simp only [exec, store, Instruction.unmarked, untraced_memory, untraced_registers]
    split <;> rfl
  | load w slot offset dest =>
    simp only [exec, load, Instruction.unmarked, untraced_memory, untraced_registers]
    split <;> rfl
  | exit | jump | call | move | bitwise | complement | enableInterrupts | disableInterrupts => rfl

theorem untraced_advance (p : Program) (m : Machine) :
    (m.advance p).untraced = m.untraced.advance p.unmarked := by
  have hfetch := p.fetch?_unmarked m.registers.ip
  cases hi : p.fetch? m.registers.ip with
  | none =>
    rw [hi] at hfetch
    rw [advance_of_outside hi, advance_of_outside (m := m.untraced) hfetch, p.size_unmarked]
    rfl
  | some i =>
    rw [hi] at hfetch
    have hexec := untraced_exec p m.registers.ip m.fetched i
    cases hnext : m.fetched.exec p m.registers.ip i with
    | ok m' =>
      rw [hnext] at hexec
      rw [advance_of_ok hi hnext, advance_of_ok (m := m.untraced) hfetch hexec.symm]
    | error f =>
      rw [hnext] at hexec
      rw [advance_of_fails hi (exec_eq_error_iff.mp hnext),
        advance_of_fails (m := m.untraced) hfetch (exec_eq_error_iff.mp hexec.symm)]
      rfl

theorem untraced_prepared (p : Program) (requests : List Request) (m : Machine) :
    (m.prepared p requests).untraced = m.untraced.prepared p.unmarked requests := by
  have hanswer : ∀ (m : Machine) r, m.untraced.answer p.unmarked r = (m.answer p r).untraced := by
    intro m r
    have henabled : m.untraced.interruptsEnabled = m.interruptsEnabled := rfl
    have hhandler : p.unmarked.handler? r.id = p.handler? r.id := rfl
    rw [answer, answer, henabled, hhandler]
    split
    next => split <;> rfl
    next => rfl
  have hfold : ∀ (queue : List Request) (m : Machine),
      queue.foldl (answer p.unmarked) m.untraced = (queue.foldl (answer p) m).untraced :=
    fun queue m => List.foldl_hom untraced hanswer
  rw [prepared, prepared, foldl_request, foldl_request, answerAll, answerAll]
  exact congrArg resetConstants (hfold _ _).symm

theorem halts_untraced : m.untraced.Halts i.unmarked how ↔ m.Halts i how := by
  constructor
  · intro h
    cases i with
    | exit => cases h; exact .exit
    | assertEqual =>
      cases h with
      | assertEqual hne => exact .assertEqual hne
    | assertDistinct =>
      cases h with
      | assertDistinct heq => exact .assertDistinct heq
    | _ => cases h
  · intro h
    cases h with
    | exit => exact .exit
    | assertEqual hne => exact .assertEqual hne
    | assertDistinct heq => exact .assertDistinct heq

theorem fails_untraced (p : Program) : m.untraced.Fails i.unmarked f ↔ m.Fails i f := by
  have herror : (m.exec p 0 i).map untraced = .error f ↔ m.exec p 0 i = .error f :=
    Except.map_eq_error_iff
  rw [untraced_exec, exec_eq_error_iff, exec_eq_error_iff] at herror
  exact herror

theorem ends_untraced : m.untraced.Ends p.unmarked how ↔ m.Ends p how := by
  have hfetch := p.fetch?_unmarked m.registers.ip
  constructor
  · intro h
    cases h with
    | halts hi hhalts =>
      obtain ⟨i, hmarked, rfl⟩ := Option.map_eq_some_iff.mp (hfetch.symm.trans hi)
      exact .halts hmarked ((halts_untraced (m := m.fetched)).mp hhalts)
    | faults hfaults =>
      cases hfaults with
      | outside hnone =>
        rw [p.size_unmarked]
        exact .faults (.outside (Option.map_eq_none_iff.mp (hfetch.symm.trans hnone)))
      | fails hi hfails =>
        obtain ⟨i, hmarked, rfl⟩ := Option.map_eq_some_iff.mp (hfetch.symm.trans hi)
        exact .faults (.fails hmarked ((fails_untraced (m := m.fetched) p).mp hfails))
  · intro h
    cases h with
    | halts hi hhalts =>
      rw [hi] at hfetch
      exact .halts hfetch ((halts_untraced (m := m.fetched)).mpr hhalts)
    | faults hfaults =>
      cases hfaults with
      | outside hnone =>
        rw [hnone] at hfetch
        rw [← p.size_unmarked]
        exact .faults (.outside (m := m.untraced) hfetch)
      | fails hi hfails =>
        rw [hi] at hfetch
        exact .faults (.fails hfetch ((fails_untraced (m := m.fetched) p).mpr hfails))

theorem lockstep_untraced (hp : p.unmarked = p'.unmarked) : Lockstep untraced p p' where
  alive h := by
    have halive := congrArg (fun m : Machine => m.alive) h
    exact halive
  start h := congrArg start h
  advance requests h := by
    rw [untraced_advance, untraced_advance, untraced_prepared, untraced_prepared, hp, h]
  ends requests how h := by
    rw [← ends_untraced, ← ends_untraced (p := p'), untraced_prepared, untraced_prepared, hp, h]

end

/-- If two images are the same but for the debug level and debug marks in the place of `nop`, their runs
are in lock step: they end in the same way, after every cycle the machines differ in the lines of the trace
only, and they report the same. -/
theorem tracing_immaterial {i i' : Image} (h : i.unmarked = i'.unmarked) (syscalls : Array Syscall)
    (environment : Environment) (stackSize : Nat) {runs : List (List (List Request) × Ending)} {m : Machine}
    (hruns : Runs (Program.ofImage i syscalls environment) (ofImage i stackSize) runs m) :
    ∃ m', Runs (Program.ofImage i' syscalls environment) (ofImage i' stackSize) runs m' ∧
      m'.untraced = m.untraced ∧ m'.outcome = m.outcome ∧
      ∀ schedule n, (runWith (Program.ofImage i' syscalls environment) schedule n m'.start).untraced =
        (runWith (Program.ofImage i syscalls environment) schedule n m.start).untraced := by
  have hprogram : (Program.ofImage i syscalls environment).unmarked =
      (Program.ofImage i' syscalls environment).unmarked := by
    rw [Program.unmarked_ofImage, Program.unmarked_ofImage, h]
  have hlock : Lockstep untraced (Program.ofImage i syscalls environment)
      (Program.ofImage i' syscalls environment) :=
    lockstep_untraced hprogram
  have hinitial : ∀ i : Image, (ofImage i stackSize).untraced = ofImage i.unmarked stackSize := by
    intro i
    rw [ofImage, ofImage, Image.unmarked, List.length_map]
    rfl
  have hnew : (ofImage i stackSize).untraced = (ofImage i' stackSize).untraced := by
    rw [hinitial, hinitial, h]
  obtain ⟨m', hruns', hsame⟩ := hlock.runs hnew hruns
  refine ⟨m', hruns', hsame.symm, ?_, fun schedule n => ?_⟩
  · have houtcome := congrArg outcome hsame.symm
    exact houtcome
  · exact (hlock.runWith (hlock.start hsame) schedule n).symm

/-- A `nop` and a call of `print` at the highest level, and a debug mark and the call without a trace. -/
theorem tracing_immaterial_print :
    let i : Image :=
      { version := Version.supported, debug := .extreme, sections := [], interrupts := [],
        constants := [], entry := 0, instructions := [.nop, .syscall 1, .ret] }
    let i' : Image := { i with debug := .none, instructions := [.debug 4, .syscall 1, .ret] }
    ∃ m m', i.unmarked = i'.unmarked ∧
      Runs (Program.ofImage i Syscall.builtin) (ofImage i 16) [([], .fault .emptyCallStack)] m ∧
      Runs (Program.ofImage i' Syscall.builtin) (ofImage i' 16) [([], .fault .emptyCallStack)] m' ∧
      m'.untraced = m.untraced ∧ m'.outcome = m.outcome ∧
      m.events.countP Event.isTrace = 2 := by
  intro i i'
  let p := Program.ofImage i Syscall.builtin
  let ready := (runWith p [] 2 (ofImage i 16).start).prepared p []
  have hstopped : ready.Ends p (.fault .emptyCallStack) := by
    have hfetch : p.fetch? ready.registers.ip = some .ret := by decide +kernel
    exact .faults (.fails hfetch (.ret (by decide +kernel)))
  have hruns : Runs p (ofImage i 16) ([] ++ [([], .fault .emptyCallStack)]) (ready.advance p) :=
    Runs.nil.concat (.ends (by decide +kernel) hstopped)
  have hmarks : i.unmarked = i'.unmarked := rfl
  obtain ⟨m', hruns', hsame, houtcome, -⟩ := tracing_immaterial hmarks Syscall.builtin _ 16 hruns
  exact ⟨ready.advance p, m', hmarks, hruns, hruns', hsame, houtcome, by decide +kernel⟩

end Machine

end RegisterMachine

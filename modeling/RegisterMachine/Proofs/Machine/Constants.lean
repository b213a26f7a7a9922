import Mathlib
import RegisterMachine.Proofs.Machine.Lockstep

namespace RegisterMachine

/-- The instruction loads a value into a constant register. -/
def Instruction.movesConstant : Instruction → Bool
  | .move dest _ => dest.isConstant
  | _ => false

/-- The image with `nop` in place of those loads into constant registers that were chosen by their index. -/
def Image.dropMoves (i : Image) (chosen : Nat → Bool) : Image :=
  { i with
    instructions := i.instructions.mapIdx fun n j => if chosen n && j.movesConstant then .nop else j }

/-- The second program is the first one with `nop` in place of some of the loads into constant registers. -/
structure Program.Drops (p p' : Program) : Prop where
  handlers : p'.handlers = p.handlers
  debug : p'.debug = p.debug
  syscalls : p'.syscalls = p.syscalls
  environment : p'.environment = p.environment
  size : p'.instructions.size = p.instructions.size
  fetch (ip : UInt64) : p'.fetch? ip = p.fetch? ip ∨
    ∃ i, i.movesConstant = true ∧ p.fetch? ip = some i ∧ p'.fetch? ip = some .nop

theorem Image.drops_dropMoves (i : Image) (chosen : Nat → Bool) (syscalls : Array Syscall)
    (environment : Environment) :
    (Program.ofImage i syscalls environment).Drops
      (Program.ofImage (i.dropMoves chosen) syscalls environment) := by
  refine ⟨rfl, rfl, rfl, rfl, ?_, fun ip => ?_⟩
  · simp [Program.ofImage, dropMoves]
  · have hfetch : (Program.ofImage (i.dropMoves chosen) syscalls environment).fetch? ip =
        ((Program.ofImage i syscalls environment).fetch? ip).map fun j =>
          if chosen ip.toNat && j.movesConstant then .nop else j := by
      simp [Program.fetch?, Program.ofImage, dropMoves]
    rw [hfetch]
    cases hj : (Program.ofImage i syscalls environment).fetch? ip with
    | none => exact .inl rfl
    | some j =>
      rw [Option.map_some]
      split
      next hchosen => exact .inr ⟨j, (Bool.and_eq_true_iff.mp hchosen).2, rfl, rfl⟩
      next => exact .inl rfl

namespace Machine

/-- The constant registers hold their constants. -/
def ConstantsHold (m : Machine) : Prop :=
  m.registers.x0 = 0 ∧ m.registers.x1 = 1

section

variable {p p' : Program} {m m' : Machine} {i : Instruction} {how : Ending}
  {schedule : List (List Request)} {runs : List (List (List Request) × Ending)}

theorem resetConstants_of_constantsHold (h : m.ConstantsHold) : m.resetConstants = m := by
  obtain ⟨h0, h1⟩ := h
  rw [resetConstants, Registers.resetConstants, ← h0, ← h1]

theorem constantsHold_resetConstants (m : Machine) : m.resetConstants.ConstantsHold :=
  ⟨rfl, rfl⟩

theorem ConstantsHold.of_registers (h : m.ConstantsHold) (hx0 : m'.registers.x0 = m.registers.x0)
    (hx1 : m'.registers.x1 = m.registers.x1) : m'.ConstantsHold :=
  ⟨hx0.trans h.1, hx1.trans h.2⟩

/-- The instruction that ends a run writes to no constant register. -/
theorem Ends.constantsHold (h : m.Ends p how) (hm : m.ConstantsHold) : (m.advance p).ConstantsHold := by
  cases h with
  | faults hfaults =>
    have hkept := hfaults.stopped.registers
    exact hm.of_registers (hkept .x0 nofun nofun) (hkept .x1 nofun nofun)
  | @halts i _ hfetch hhalts =>
    cases hhalts with
    | exit =>
      rw [advance_of_ok hfetch rfl]
      exact hm
    | assertEqual | assertDistinct =>
      rw [advance_of_ok hfetch rfl, assert]
      split <;> exact hm

theorem Run.constantsHold (h : Run p m schedule how m') : m'.ConstantsHold := by
  cases h with
  | ends _ hends => exact hends.constantsHold (constantsHold_resetConstants _)

theorem Runs.constantsHold (h : Runs p m runs m') (hm : m.ConstantsHold) : m'.ConstantsHold := by
  cases h with
  | nil => exact hm
  | concat _ hrun => exact hrun.constantsHold

theorem resetConstants_answer (p : Program) (m : Machine) (r : Request) :
    (m.answer p r).resetConstants = m.resetConstants.answer p r := by
  have henabled : m.resetConstants.interruptsEnabled = m.interruptsEnabled := rfl
  rw [answer, answer, henabled]
  split
  next => split <;> rfl
  next => rfl

/-- What happens to requests does not depend on the constant registers. -/
theorem prepared_congr (hp : p'.handlers = p.handlers) (requests : List Request)
    (h : m.resetConstants = m'.resetConstants) : m.prepared p requests = m'.prepared p' requests := by
  have hanswer : answer p' = answer p := by
    funext m r
    rw [answer, answer, Program.handler?, Program.handler?, hp]
  have hfold : ∀ (queue : List Request) (m : Machine),
      (queue.foldl (answer p) m).resetConstants = queue.foldl (answer p) m.resetConstants :=
    fun queue m => (List.foldl_hom resetConstants fun m r => (resetConstants_answer p m r).symm).symm
  have hready : ∀ m : Machine, m.prepared p requests =
      (m.resetConstants.pending ++ requests).foldl (answer p) { m.resetConstants with pending := [] } := by
    intro m
    rw [prepared, foldl_request, answerAll, hfold]
    rfl
  rw [hready, h, ← hready, prepared, prepared, answerAll, answerAll, hanswer]

theorem exec_congr (hp : p.Drops p') (ip : UInt64) (m : Machine) (i : Instruction) :
    m.exec p' ip i = m.exec p ip i := by
  have hreserves : reserves p' = reserves p := by
    funext m size
    rw [reserves, reserves, hp.environment]
  have hview : viewIn p' = viewIn p := by
    funext m
    rw [viewIn, viewIn, hp.environment]
  cases i <;> simp only [exec, alloc, syscall, hp.debug, hp.syscalls, hreserves, hview]

/-- Without a trace, a load into a constant register and a `nop` differ in the constant registers only. -/
theorem resetConstants_advance (hp : p.Drops p') (hdebug : p.debug = .none) (m : Machine) :
    (m.advance p).resetConstants = (m.advance p').resetConstants := by
  rcases hp.fetch m.registers.ip with hsame | ⟨i, hmoves, hmove, hnop⟩
  · have hexec : exec p' = exec p := by
      funext ip m i
      exact exec_congr hp ip m i
    simp only [advance, hsame, hexec, hp.size]
  · cases i with
    | move dest v =>
      have hsilent : m.fetched.exec p' m.registers.ip .nop = .ok m.fetched := by
        rw [exec, hp.debug, hdebug]
        rfl
      rw [advance_of_ok hmove rfl, advance_of_ok hnop hsilent]
      have hdest : dest = .x0 ∨ dest = .x1 := by
        simpa [Instruction.movesConstant, Register.isConstant] using hmoves
      rcases hdest with rfl | rfl <;> rfl
    | _ => cases hmoves

theorem Ends.of_fetch (h : m.Ends p how) (hsize : p'.instructions.size = p.instructions.size)
    (hfetch : p'.fetch? m.registers.ip = p.fetch? m.registers.ip) : m.Ends p' how := by
  cases h with
  | halts hi hhalts => exact .halts (hfetch.trans hi) hhalts
  | faults hfaults =>
    cases hfaults with
    | outside hnone =>
      rw [← hsize]
      exact .faults (.outside (hfetch.trans hnone))
    | fails hi hfails => exact .faults (.fails (hfetch.trans hi) hfails)

theorem not_ends_of_goes (hfetch : p.fetch? m.registers.ip = some i)
    (hhalts : ∀ how, ¬ m.fetched.Halts i how) (hfails : ∀ f, ¬ m.fetched.Fails i f) : ¬ m.Ends p how := by
  intro h
  cases h with
  | halts hi hends =>
    obtain rfl := Option.some.inj (hfetch.symm.trans hi)
    exact hhalts _ hends
  | faults hfaults =>
    cases hfaults with
    | outside hnone => rw [hfetch] at hnone; cases hnone
    | fails hi hfault =>
      obtain rfl := Option.some.inj (hfetch.symm.trans hi)
      exact hfails _ hfault

theorem ends_congr (hp : p.Drops p') : m.Ends p how ↔ m.Ends p' how := by
  rcases hp.fetch m.registers.ip with hsame | ⟨i, hmoves, hmove, hnop⟩
  · exact ⟨fun h => h.of_fetch hp.size hsame, fun h => h.of_fetch hp.size.symm hsame.symm⟩
  -- Neither of the two instructions can end a run.
  · cases i with
    | move => exact iff_of_false (not_ends_of_goes hmove nofun nofun) (not_ends_of_goes hnop nofun nofun)
    | _ => cases hmoves

theorem lockstep_of_drops (hp : p.Drops p') (hdebug : p.debug = .none) :
    Lockstep resetConstants p p' where
  alive h := by
    have halive := congrArg (fun m : Machine => m.alive) h
    exact halive
  start h := congrArg start h
  advance requests h := by
    rw [prepared_congr hp.handlers requests h]
    exact resetConstants_advance hp hdebug _
  ends requests how h := by
    rw [← prepared_congr hp.handlers requests h]
    exact ends_congr hp

/-- Runs in lock step leave the same machine, since both restore the constants at the end. -/
theorem Runs.of_drops (hlock : Lockstep resetConstants p p') (hm : m.ConstantsHold)
    (h : Runs p m runs m') : Runs p' m runs m' := by
  obtain ⟨m₂, hruns, hsame⟩ := hlock.runs rfl h
  rw [resetConstants_of_constantsHold (h.constantsHold hm),
    resetConstants_of_constantsHold (hruns.constantsHold hm)] at hsame
  exact hsame ▸ hruns

end

/-- Every instruction is carried out with the constants in the constant registers, and they are there after
every run. So without a trace, any loads into constant registers can be replaced by `nop`: the runs are
the same, they end in the same way and leave the same machine, and on the way the machines differ in the
constant registers at most. -/
theorem constants_immaterial (i : Image) (syscalls : Array Syscall) (environment : Environment)
    (stackSize : Nat) (runs : List (List (List Request) × Ending)) (m : Machine) :
    let p := Program.ofImage i syscalls environment
    (Runs p (ofImage i stackSize) runs m → m.ConstantsHold ∧
      ∀ schedule n, let s := runWith p schedule n m.start
        let ready := s.prepared p (schedule.getD n [])
        runWith p schedule (n + 1) m.start = (if s.alive then ready.advance p else s) ∧
          ready.fetched.ConstantsHold) ∧
    (i.debug = .none → ∀ chosen, let p' := Program.ofImage (i.dropMoves chosen) syscalls environment
      (Runs p' (ofImage (i.dropMoves chosen) stackSize) runs m ↔ Runs p (ofImage i stackSize) runs m) ∧
        ∀ schedule n, (runWith p' schedule n m.start).resetConstants =
          (runWith p schedule n m.start).resetConstants) := by
  intro p
  refine ⟨fun h => ⟨h.constantsHold ⟨rfl, rfl⟩, fun schedule n => ?_⟩, fun hdebug chosen => ?_⟩
  · exact ⟨runWith_succ p schedule n m.start, ⟨rfl, rfl⟩⟩
  · intro p'
    have hlock : Lockstep resetConstants p p' :=
      lockstep_of_drops (i.drops_dropMoves chosen syscalls environment) hdebug
    have hinitial : ofImage (i.dropMoves chosen) stackSize = ofImage i stackSize := by
      rw [ofImage, ofImage, Image.dropMoves, List.length_mapIdx]
      rfl
    rw [hinitial]
    exact ⟨⟨Runs.of_drops hlock.symm ⟨rfl, rfl⟩, Runs.of_drops hlock ⟨rfl, rfl⟩⟩,
      fun schedule n => hlock.symm.runWith rfl schedule n⟩

/-- A load into `x0` before the register is read: the sum is that of the constants. -/
theorem constants_immaterial_sum :
    let i : Image :=
      { version := Version.supported, debug := .none, sections := [], interrupts := [], constants := [],
        entry := 0, instructions := [.move .x0 5, .arith .add (.int 0) .x0 .x1, .exit] }
    let dropped := i.dropMoves fun _ => true
    dropped.instructions = [.nop, .arith .add (.int 0) .x0 .x1, .exit] ∧
      ∃ m, Runs (Program.ofImage i Syscall.builtin) (ofImage i 16) [([], .exit)] m ∧
        m.ConstantsHold ∧ m.exitCode = 1 ∧
        Runs (Program.ofImage dropped Syscall.builtin) (ofImage dropped 16) [([], .exit)] m := by
  intro i dropped
  let p := Program.ofImage i Syscall.builtin
  let ready := (runWith p [] 2 (ofImage i 16).start).prepared p []
  have hexits : ready.Ends p .exit := by
    have hfetch : p.fetch? ready.registers.ip = some .exit := by decide +kernel
    exact .halts hfetch .exit
  have hruns : Runs p (ofImage i 16) ([] ++ [([], .exit)]) (ready.advance p) :=
    Runs.nil.concat (.ends (by decide +kernel) hexits)
  obtain ⟨hconstants, hdropped⟩ := constants_immaterial i Syscall.builtin _ 16 [([], .exit)] (ready.advance p)
  exact ⟨rfl, ready.advance p, hruns, (hconstants hruns).1, by decide +kernel,
    (hdropped rfl fun _ => true).1.mpr hruns⟩

end Machine

end RegisterMachine

import Mathlib
import RegisterMachine.Proofs.Delivery.Cycles
import RegisterMachine.Proofs.Machine.Control
import RegisterMachine.Proofs.Machine.Transparency

namespace RegisterMachine.Machine

/-- The machine about to carry out its next instruction, after these requests have come in. -/
def prepared (p : Program) (requests : List Request) (m : Machine) : Machine :=
  ((requests.foldl request m).answerAll p).resetConstants

/-- What the machine comes to next is the fault. -/
inductive Faults (p : Program) (m : Machine) : Fault → Prop
  | outside : p.fetch? m.registers.ip = none →
      m.Faults p (.noInstruction m.registers.ip p.instructions.size)
  | fails {i : Instruction} {f : Fault} : p.fetch? m.registers.ip = some i → m.fetched.Fails i f →
      m.Faults p f

/-- The first machine was about to carry out an instruction, and the second one was stopped by it. -/
structure Stopped (p : Program) (f : Fault) (m m' : Machine) : Prop where
  stack : m'.stack = m.stack
  memory : m'.memory = m.memory
  callStack : m'.callStack = m.callStack
  interruptsEnabled : m'.interruptsEnabled = m.interruptsEnabled
  registers : ∀ r, r ≠ .result → r ≠ .ip → m'.registers.get r = m.registers.get r
  result : m'.registers.get .result = 1
  ip : m'.registers.ip =
    if (p.fetch? m.registers.ip).isSome then m.registers.ip + 1 else m.registers.ip
  asked : m'.asked = m.asked
  alive : m'.alive = false
  outcome : m'.outcome = .error f

section

variable {p : Program} {m : Machine} {f : Fault}

theorem Faults.stopped (h : m.Faults p f) : Stopped p f m (m.advance p) := by
  cases h with
  | outside hfetch =>
    rw [advance_of_outside hfetch]
    refine ⟨rfl, rfl, rfl, rfl, fun r hr _ => ?_, ?_, ?_, rfl, rfl, rfl⟩
    · exact Registers.get_set_of_ne m.registers 1 hr
    · exact Registers.get_set_self m.registers .result 1
    · rw [hfetch]
      rfl
  | fails hfetch hfails =>
    rw [advance_of_fails hfetch hfails]
    refine ⟨rfl, rfl, rfl, rfl, fun r hr hip => ?_, ?_, ?_, rfl, rfl, rfl⟩
    · exact (Registers.get_set_of_ne m.fetched.registers 1 hr).trans
        (Registers.get_set_of_ne m.registers _ hip)
    · exact Registers.get_set_self m.fetched.registers .result 1
    · rw [hfetch]
      rfl

theorem Faults.kills (h : m.Faults p f) :
    (m.advance p).kills = .killed f m.registers.ip :: m.kills := by
  cases h with
  | outside hfetch => rw [advance_of_outside hfetch, kills_kill]
  | fails hfetch hfails =>
    rw [advance_of_fails hfetch hfails, kills_kill]
    rfl

theorem faults_or_exec (p : Program) (m : Machine) : (∃ f, m.Faults p f) ∨
    ∃ i, p.fetch? m.registers.ip = some i ∧ m.fetched.exec p m.registers.ip i = .ok (m.advance p) := by
  rcases exec_cases p m with hnone | ⟨i, f, hfetch, hfails⟩ | hexec
  · exact .inl ⟨_, .outside hnone⟩
  · exact .inl ⟨f, .fails hfetch hfails⟩
  · exact .inr hexec

theorem faults_or_kills (p : Program) (m : Machine) :
    (∃ f, m.Faults p f) ∨ (m.advance p).kills = m.kills := by
  rcases faults_or_exec p m with hfaults | ⟨i, -, hexec⟩
  · exact .inl hfaults
  · exact .inr (framed_of_exec hexec).kills

theorem kills_answer (p : Program) (m : Machine) (r : Request) : (m.answer p r).kills = m.kills := by
  cases h : m.admission p r.id with
  | rejected => rw [answer_of_rejected h]; rfl
  | unhandled => rw [answer_of_unhandled h]; rfl
  | entered =>
    obtain ⟨address, -, hanswer⟩ := answer_of_entered h
    rw [hanswer]
    rfl

theorem kills_answerAll (p : Program) (m : Machine) : (m.answerAll p).kills = m.kills := by
  rw [answerAll]
  refine List.foldlRecOn (motive := fun m' => m'.kills = m.kills) m.pending (answer p) ?_ ?_
  · rfl
  · exact fun m' h r _ => (kills_answer p m' r).trans h

theorem kills_prepared (p : Program) (requests : List Request) (m : Machine) :
    (m.prepared p requests).kills = m.kills := by
  rw [prepared, foldl_request]
  exact kills_answerAll p _

theorem runWith_succ (p : Program) (schedule : List (List Request)) (n : Nat) (m : Machine) :
    runWith p schedule (n + 1) m =
      if (runWith p schedule n m).alive then
        ((runWith p schedule n m).prepared p (schedule.getD n [])).advance p
      else runWith p schedule n m := by
  induction n generalizing schedule m with
  | zero => cases schedule <;> rfl
  | succ n ih =>
    have hlater : schedule.tail.getD n [] = schedule.getD (n + 1) [] := by cases schedule <;> rfl
    by_cases halive : m.alive = true
    · have hstep : ∀ k, runWith p schedule (k + 1) m =
          runWith p schedule.tail k (((schedule.headD []).foldl request m).cycle p) :=
        fun k => if_pos halive
      rw [hstep, hstep, ih, hlater]
    -- A machine that does not run to begin with stays as it is.
    · have hhalted : m.alive = false := Bool.not_eq_true _ ▸ halive
      rw [runWith_of_halted hhalted, runWith_of_halted hhalted, if_neg halive]

theorem runWith_add_of_halted {schedule : List (List Request)} {n : Nat}
    (h : (runWith p schedule n m).alive = false) (k : Nat) :
    runWith p schedule (n + k) m = runWith p schedule n m := by
  induction k with
  | zero => rfl
  | succ k ih => rw [← Nat.add_assoc, runWith_succ, ih, h, if_neg Bool.false_ne_true]

/-- A run that has not ended has told of no fault. -/
theorem kills_runWith_of_alive {schedule : List (List Request)} {n : Nat}
    (h : (runWith p schedule n m).alive = true) : (runWith p schedule n m).kills = m.kills := by
  induction n with
  | zero => rfl
  | succ n ih =>
    rw [runWith_succ] at h ⊢
    split at h
    next halive =>
      rw [if_pos halive]
      rcases faults_or_kills p ((runWith p schedule n m).prepared p (schedule.getD n [])) with
        ⟨f, hfaults⟩ | hkills
      · exact absurd (hfaults.stopped.alive.symm.trans h) Bool.false_ne_true
      · rw [hkills, kills_prepared, ih halive]
    next halted => exact absurd h halted

end

/-- In a cycle of a run the outside world learns of a fault if and only if a fault is what comes after the
requests have been answered and the constant registers been restored. The machine is then left as it is at
that point, but for the exit code and the instruction pointer. The run ends with the fault, and it is the
only one that the run tells of. -/
theorem faults_atomic (p : Program) (schedule : List (List Request)) (n : Nat) (m : Machine) :
    let s := runWith p schedule n m.start
    let ready := s.prepared p (schedule.getD n [])
    let last := runWith p schedule (n + 1) m.start
    (last.kills ≠ s.kills ↔ s.alive = true ∧ ∃ f, ready.Faults p f) ∧
      ∀ f, s.alive = true → ready.Faults p f → Stopped p f ready last ∧
        last.kills = .killed f ready.registers.ip :: m.kills ∧
        ∀ k, runWith p schedule (n + 1 + k) m.start = last := by
  intro s ready last
  by_cases halive : s.alive = true
  · have hlast : last = ready.advance p := (runWith_succ p schedule n m.start).trans (if_pos halive)
    have hready : ready.kills = s.kills := kills_prepared p _ s
    refine ⟨⟨fun hne => ⟨halive, ?_⟩, fun ⟨_, f, hfaults⟩ => ?_⟩, fun f _ hfaults => ?_⟩
    · rcases faults_or_kills p ready with hfaults | hkills
      · exact hfaults
      · exact absurd ((congrArg kills hlast).trans (hkills.trans hready)) hne
    · rw [hlast, hfaults.kills, hready]
      exact List.cons_ne_self _ _
    · have hstopped : Stopped p f ready last := hlast ▸ hfaults.stopped
      refine ⟨hstopped, ?_, runWith_add_of_halted hstopped.alive⟩
      rw [hlast, hfaults.kills, hready]
      exact congrArg _ (kills_runWith_of_alive halive)
  · have hlast : last = s := (runWith_succ p schedule n m.start).trans (if_neg halive)
    rw [hlast]
    exact ⟨⟨fun hne => absurd rfl hne, fun h => absurd h.1 halive⟩, fun f h => absurd h halive⟩

/-- A handler that pops into the stack pointer more than there is on the stack. -/
theorem faults_atomic_pop :
    let p : Program :=
      { instructions := #[.enableInterrupts, .push .half .x1, .nop, .pop .quad .sp],
        handlers := [⟨5, 3⟩], debug := .none, syscalls := #[] }
    let m : Machine :=
      { registers := Registers.initial, stack := Stack.empty 4, memory := Memory.empty, callStack := [],
        interruptsEnabled := false, pending := [], alive := false, fault := none, stats := {},
        events := [] }
    let schedule : List (List Request) := [[], [], [⟨5, none⟩]]
    let last := runWith p schedule (2 + 1) m.start
    last.registers.sp = 1 ∧ last.registers.ip = 4 ∧ last.registers.get .result = 1 ∧
      last.stack.size = 1 ∧ last.callStack = [2] ∧ last.kills = [.killed (.stackShort 8 1) 3] ∧
      last.outcome = .error (.stackShort 8 1) ∧ ∀ k, runWith p schedule (2 + 1 + k) m.start = last := by
  intro p m schedule last
  let ready := (runWith p schedule 2 m.start).prepared p (schedule.getD 2 [])
  have hip : ready.registers.ip = 3 := by decide +kernel
  have hfaults : ready.Faults p (.stackShort 8 1) := by
    have hfetch : p.fetch? ready.registers.ip = some (.pop .quad .sp) := by decide +kernel
    have hsize : ready.fetched.stack.size = 1 := by decide +kernel
    have hshort : ready.fetched.stack.size < Width.quad.bytes := by decide +kernel
    rw [← hsize]
    exact .fails hfetch (.pop hshort)
  have hlast : Stopped p (.stackShort 8 1) ready last ∧
      last.kills = .killed (.stackShort 8 1) ready.registers.ip :: m.kills ∧
      ∀ k, runWith p schedule (2 + 1 + k) m.start = last :=
    (faults_atomic p schedule 2 m).2 _ (by decide +kernel) hfaults
  obtain ⟨hstopped, hkills, hend⟩ := hlast
  refine ⟨?_, ?_, hstopped.result, ?_, ?_, ?_, hstopped.outcome, hend⟩
  · exact (hstopped.registers .sp (by decide) (by decide)).trans (by decide +kernel)
  · exact hstopped.ip.trans (by decide +kernel)
  · exact (congrArg Stack.size hstopped.stack).trans (by decide +kernel)
  · exact hstopped.callStack.trans (by decide +kernel)
  · rw [hkills, hip]
    rfl

end RegisterMachine.Machine

import Mathlib
import RegisterMachine.Machine.Syscall
import RegisterMachine.Proofs.Machine.Faults

namespace RegisterMachine

/-- How a run ends. -/
inductive Ending where
  | exit
  /-- An assertion has failed. -/
  | assertion
  | fault (f : Fault)
deriving DecidableEq

/-- The fault that a run has ended with. -/
def Ending.fault? : Ending → Option Fault
  | fault f => some f
  | _ => none

namespace Machine

/-- The instruction halts the machine, although it can be carried out. -/
inductive Halts (m : Machine) : Instruction → Ending → Prop
  | exit : m.Halts .exit .exit
  | assertEqual {expected actual : Register} :
      m.registers.get expected ≠ m.registers.get actual →
      m.Halts (.assertEqual expected actual) .assertion
  | assertDistinct {expected actual : Register} :
      m.registers.get expected = m.registers.get actual →
      m.Halts (.assertDistinct expected actual) .assertion

/-- What the machine comes to next ends the run. -/
inductive Ends (p : Program) (m : Machine) : Ending → Prop
  | halts {i : Instruction} {how : Ending} : p.fetch? m.registers.ip = some i →
      m.fetched.Halts i how → m.Ends p how
  | faults {f : Fault} : m.Faults p f → m.Ends p (.fault f)

/-- A run of the first machine with a schedule of requests has ended and left the second one. -/
inductive Run (p : Program) (m : Machine) (schedule : List (List Request)) : Ending → Machine → Prop
  | ends {n : Nat} {how : Ending} : (runWith p schedule n m.start).alive = true →
      ((runWith p schedule n m.start).prepared p (schedule.getD n [])).Ends p how →
      Run p m schedule how
        (((runWith p schedule n m.start).prepared p (schedule.getD n [])).advance p)

/-- The second machine is what some runs of the first one have left, each with its schedule of requests and
its end. -/
inductive Runs (p : Program) (m : Machine) : List (List (List Request) × Ending) → Machine → Prop
  | nil : Runs p m [] m
  | concat {runs : List (List (List Request) × Ending)} {m₁ m₂ : Machine}
      {schedule : List (List Request)} {how : Ending} : Runs p m runs m₁ →
      Run p m₁ schedule how m₂ → Runs p m (runs ++ [(schedule, how)]) m₂

/-- The fault of the latest of the runs that ended with one. -/
def latestFault (runs : List (List (List Request) × Ending)) : Option Fault :=
  (runs.filterMap fun run => run.2.fault?).getLast?

section

variable {p : Program} {m m' : Machine} {ip : UInt64} {i : Instruction} {how : Ending}
  {schedule : List (List Request)} {runs : List (List (List Request) × Ending)}

theorem latestFault_concat : latestFault (runs ++ [(schedule, how)]) =
    how.fault?.or (latestFault runs) := by
  rw [latestFault, List.filterMap_append]
  cases how <;> simp [Ending.fault?, latestFault]

theorem not_halts (h : i.mayHalt = false) (how : Ending) : ¬ m.Halts i how := by
  intro hhalts
  cases hhalts <;> cases h

/-- An instruction that can be carried out halts the machine only if it is an `exit` or an assertion that
fails. -/
theorem alive_exec (halive : m.alive = true) (h : m.exec p ip i = .ok m') :
    m'.alive = false ↔ ∃ how, m.Halts i how := by
  have hgoes : (∀ how, ¬ m.Halts i how) → m'.alive = m.alive →
      (m'.alive = false ↔ ∃ how, m.Halts i how) := by
    intro hnone hsame
    rw [hsame, halive]
    exact iff_of_false (by decide) (not_exists.mpr hnone)
  cases hmay : i.mayHalt with
  | false => exact hgoes (not_halts hmay) ((framed_of_exec h).alive hmay)
  | true =>
    cases i with
    | exit =>
      obtain rfl := Except.ok.inj h
      exact iff_of_true rfl ⟨_, .exit⟩
    | assertEqual expected actual =>
      obtain rfl := Except.ok.inj h
      by_cases heq : m.registers.get expected = m.registers.get actual
      · refine hgoes (fun how hhalts => ?_) ?_
        · cases hhalts with
          | assertEqual hne => exact hne heq
        · rw [beq_iff_eq.mpr heq]
          rfl
      · refine iff_of_true ?_ ⟨_, .assertEqual heq⟩
        rw [beq_eq_false_iff_ne.mpr heq]
        rfl
    | assertDistinct expected actual =>
      obtain rfl := Except.ok.inj h
      by_cases heq : m.registers.get expected = m.registers.get actual
      · refine iff_of_true ?_ ⟨_, .assertDistinct heq⟩
        rw [bne, beq_iff_eq.mpr heq]
        rfl
      · refine hgoes (fun how hhalts => ?_) ?_
        · cases hhalts with
          | assertDistinct hsame => exact heq hsame
        · rw [bne, beq_eq_false_iff_ne.mpr heq]
          rfl
    | _ => cases hmay

/-- A machine halts exactly at the end of a run. -/
theorem alive_advance_eq_false_iff (halive : m.alive = true) :
    (m.advance p).alive = false ↔ ∃ how, m.Ends p how := by
  constructor
  · intro hhalted
    cases hfetch : p.fetch? m.registers.ip with
    | none => exact ⟨_, .faults (.outside hfetch)⟩
    | some i =>
      cases hexec : m.fetched.exec p m.registers.ip i with
      | error f => exact ⟨_, .faults (.fails hfetch (exec_eq_error_iff.mp hexec))⟩
      | ok m' =>
        have hnext : m'.alive = false := advance_of_ok hfetch hexec ▸ hhalted
        obtain ⟨how, hhalts⟩ := (alive_exec (m := m.fetched) halive hexec).mp hnext
        exact ⟨how, .halts hfetch hhalts⟩
  · rintro ⟨how, hends⟩
    cases hends with
    | faults hfaults => exact hfaults.stopped.alive
    | @halts i _ hfetch hhalts =>
      obtain ⟨m', hexec⟩ : ∃ m', m.fetched.exec p m.registers.ip i = .ok m' := by
        cases hhalts <;> exact ⟨_, rfl⟩
      rw [advance_of_ok hfetch hexec]
      exact (alive_exec (m := m.fetched) halive hexec).mpr ⟨how, hhalts⟩

theorem fault_prepared (p : Program) (requests : List Request) (m : Machine) :
    (m.prepared p requests).fault = m.fault := by
  rw [prepared, foldl_request]
  exact (congrArg Machine.fault (diverted_answerAll p _) :)

/-- Only a fault changes what a machine reports, and it takes the place of the one reported before. -/
theorem Ends.fault_advance (h : m.Ends p how) : (m.advance p).fault = how.fault?.or m.fault := by
  cases h with
  | faults hfaults =>
    cases hfaults with
    | outside hfetch => rw [advance_of_outside hfetch]; rfl
    | fails hfetch hfails => rw [advance_of_fails hfetch hfails]; rfl
  | @halts i _ hfetch hhalts =>
    cases hhalts with
    | exit => rw [advance_of_ok hfetch rfl]; rfl
    | assertEqual | assertDistinct =>
      rw [advance_of_ok hfetch rfl, assert]
      split <;> rfl

theorem fault_runWith_of_alive {n : Nat} (h : (runWith p schedule n m).alive = true) :
    (runWith p schedule n m).fault = m.fault := by
  induction n with
  | zero => rfl
  | succ n ih =>
    rw [runWith_succ] at h ⊢
    split at h
    next halive =>
      rw [if_pos halive]
      rcases advance_cases p ((runWith p schedule n m).prepared p (schedule.getD n [])) with
        hnone | ⟨i, f, hfetch, hfails⟩ | ⟨i, -, hcarried⟩
      · rw [advance_of_outside hnone] at h
        cases h
      · rw [advance_of_fails hfetch hfails] at h
        cases h
      · exact hcarried.fault.trans ((fault_prepared p _ _).trans (ih halive))
    next halted => exact absurd h halted

theorem Run.fault (h : Run p m schedule how m') : m'.fault = how.fault?.or m.fault := by
  cases h with
  | ends halive hends =>
    rw [hends.fault_advance, fault_prepared, fault_runWith_of_alive halive]
    rfl

/-- Every run that comes to an end ends in one of these ways. -/
theorem exists_run {n : Nat} (h : (runWith p schedule n m.start).alive = false) :
    ∃ how, Run p m schedule how (runWith p schedule n m.start) := by
  induction n with
  | zero => cases h
  | succ n ih =>
    rw [runWith_succ] at h ⊢
    split
    next halive =>
      rw [if_pos halive] at h
      have hready : ((runWith p schedule n m.start).prepared p (schedule.getD n [])).alive = true := by
        rw [prepared, foldl_request]
        exact (alive_answerAll p _).trans halive
      obtain ⟨how, hends⟩ := (alive_advance_eq_false_iff hready).mp h
      exact ⟨how, .ends halive hends⟩
    next halted => exact ih (Bool.not_eq_true _ ▸ halted)

theorem Runs.fault (h : Runs p m runs m') : m'.fault = (latestFault runs).or m.fault := by
  induction h with
  | nil => rfl
  | concat _ hrun ih => rw [hrun.fault, ih, latestFault_concat, Option.or_assoc]

/-- The exit code tells of every end but `exit`. -/
theorem Run.exitCode (h : Run p m schedule how m') (hne : how ≠ .exit) : m'.exitCode = 1 := by
  cases h with
  | ends halive hends =>
    cases hends with
    | faults hfaults => exact hfaults.stopped.result
    | @halts i _ hfetch hhalts =>
      cases hhalts with
      | exit => exact absurd rfl hne
      | assertEqual hdiffer =>
        rw [advance_of_ok hfetch rfl, beq_eq_false_iff_ne.mpr hdiffer]
        exact Registers.get_set_self _ .result 1
      | assertDistinct hsame =>
        rw [advance_of_ok hfetch rfl, bne, beq_iff_eq.mpr hsame]
        exact Registers.get_set_self _ .result 1

theorem Runs.last (h : Runs p m (runs ++ [(schedule, how)]) m') :
    ∃ m₁, Runs p m runs m₁ ∧ Run p m₁ schedule how m' := by
  generalize hall : runs ++ [(schedule, how)] = all at h
  cases h with
  | nil => simp at hall
  | concat hruns hrun =>
    obtain ⟨rfl, hlast⟩ := List.append_inj' hall rfl
    obtain ⟨rfl, rfl⟩ := Prod.mk.inj (List.cons.inj hlast).1
    exact ⟨_, hruns, hrun⟩

theorem outcome_eq (m : Machine) : m.outcome = m.fault.elim (.ok m.exitCode) .error := by
  rw [outcome]
  cases m.fault <;> rfl

end

/-- After any number of runs of a new machine, it reports the fault of the latest run that ended with one,
whatever the runs since then have ended with, and the exit code if there was none. -/
theorem outcome_latestFault {p : Program} {i : Image} {stackSize : Nat}
    {runs : List (List (List Request) × Ending)} {m : Machine}
    (h : Runs p (ofImage i stackSize) runs m) :
    m.fault = latestFault runs ∧ m.outcome = (latestFault runs).elim (.ok m.exitCode) .error ∧
      ∀ earlier schedule how, runs = earlier ++ [(schedule, how)] →
        (how ≠ .exit → m.exitCode = 1) ∧ ∀ f, how = .fault f → m.outcome = .error f := by
  have hfault : m.fault = latestFault runs := h.fault.trans Option.or_none
  have houtcome : m.outcome = (latestFault runs).elim (.ok m.exitCode) .error := hfault ▸ outcome_eq m
  refine ⟨hfault, houtcome, ?_⟩
  rintro earlier schedule how rfl
  obtain ⟨m₁, -, hlast⟩ := h.last
  refine ⟨hlast.exitCode, ?_⟩
  rintro f rfl
  rw [houtcome, latestFault_concat]
  rfl

/-- Returns from no call and is stopped; when it is run again, it goes on behind the `ret` and exits. -/
def returning : Image where
  version := Version.supported
  debug := .none
  sections := []
  interrupts := []
  constants := []
  entry := 0
  instructions := [.ret, .move .result 7, .exit]

theorem runs_returning : ∃ m, Runs (Program.ofImage returning Syscall.builtin) (ofImage returning 64)
    ([([], .fault .emptyCallStack)] ++ [([], .exit)]) m ∧ m.exitCode = 7 := by
  let p := Program.ofImage returning Syscall.builtin
  let ready := (ofImage returning 64).start.prepared p []
  let again := (runWith p [] 1 (ready.advance p).start).prepared p []
  have hstopped : ready.Ends p (.fault .emptyCallStack) := by
    have hfetch : p.fetch? ready.registers.ip = some .ret := by decide +kernel
    exact .faults (.fails hfetch (.ret (by decide +kernel)))
  have hexits : again.Ends p .exit := by
    have hfetch : p.fetch? again.registers.ip = some .exit := by decide +kernel
    exact .halts hfetch .exit
  have halive : (runWith p [] 1 (ready.advance p).start).alive = true := by decide +kernel
  have hfirst : Run p (ofImage returning 64) [] (.fault .emptyCallStack) (ready.advance p) :=
    Run.ends (n := 0) rfl hstopped
  exact ⟨again.advance p, (Runs.nil.concat hfirst).concat (.ends halive hexits), by decide +kernel⟩

/-- A clean exit after a fault. -/
theorem outcome_latestFault_exit : ∃ m,
    Runs (Program.ofImage returning Syscall.builtin) (ofImage returning 64)
      ([([], .fault .emptyCallStack)] ++ [([], .exit)]) m ∧
      m.exitCode = 7 ∧ m.fault = some .emptyCallStack ∧ m.outcome = .error .emptyCallStack := by
  obtain ⟨m, hruns, hcode⟩ := runs_returning
  obtain ⟨hfault, houtcome, -⟩ := outcome_latestFault hruns
  exact ⟨m, hruns, hcode, hfault, houtcome⟩

/-- What a machine reports is not always what the last of its runs has come to. -/
theorem not_outcome_last : ¬ ∀ (i : Image) (stackSize : Nat)
    (earlier : List (List (List Request) × Ending)) (schedule : List (List Request)) (how : Ending)
    (m : Machine), Runs (Program.ofImage i Syscall.builtin) (ofImage i stackSize)
      (earlier ++ [(schedule, how)]) m →
    m.fault = how.fault? ∧ m.outcome = how.fault?.elim (.ok m.exitCode) .error := by
  intro hlast
  obtain ⟨m, hruns, -⟩ := runs_returning
  have hnone : m.fault = none := (hlast returning 64 _ [] .exit m hruns).1
  rw [hruns.fault] at hnone
  cases hnone

end Machine

end RegisterMachine

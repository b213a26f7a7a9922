import Mathlib
import RegisterMachine.Machine.Run
import RegisterMachine.Proofs.Machine.Silence

namespace RegisterMachine

/-- What the machine does with a request. -/
inductive Admission where
  /-- Interrupts are kept out. -/
  | rejected
  /-- There is no handler; the request is acknowledged. -/
  | unhandled
  /-- The handler is entered. -/
  | entered
deriving DecidableEq

/-- The answer to a request. -/
def Admission.isAdmitted : Admission → Bool
  | rejected => false
  | _ => true

namespace Machine

/-- What the machine does with a request for an interrupt. -/
def admission (p : Program) (m : Machine) (id : UInt64) : Admission :=
  if m.interruptsEnabled then
    if (p.handler? id).isSome then .entered else .unhandled
  else .rejected

variable {p : Program} {m : Machine} {r : Request}

theorem admission_eq_entered_iff : m.admission p r.id = .entered ↔
    m.interruptsEnabled = true ∧ ∃ address, p.handler? r.id = some address := by
  unfold admission
  cases m.interruptsEnabled <;> cases p.handler? r.id <;> simp

theorem admission_eq_unhandled_iff : m.admission p r.id = .unhandled ↔
    m.interruptsEnabled = true ∧ p.handler? r.id = none := by
  unfold admission
  cases m.interruptsEnabled <;> cases p.handler? r.id <;> simp

theorem admission_eq_rejected_iff : m.admission p r.id = .rejected ↔ m.interruptsEnabled = false := by
  unfold admission
  cases m.interruptsEnabled <;> cases p.handler? r.id <;> simp

theorem answer_of_entered (h : m.admission p r.id = .entered) :
    ∃ address, p.handler? r.id = some address ∧
      m.answer p r = ((m.enter address).count .accepted).emit (.answered r true) := by
  obtain ⟨henabled, address, haddress⟩ := admission_eq_entered_iff.mp h
  refine ⟨address, haddress, ?_⟩
  rw [answer, if_pos henabled, haddress]

theorem answer_of_unhandled (h : m.admission p r.id = .unhandled) : m.answer p r =
    (m.log .error ("no handler for interrupt " ++ toString r.id.toNat)).emit (.answered r true) := by
  obtain ⟨henabled, hnone⟩ := admission_eq_unhandled_iff.mp h
  rw [answer, if_pos henabled, hnone]

theorem answer_of_rejected (h : m.admission p r.id = .rejected) :
    m.answer p r = (m.count .rejected).emit (.answered r false) := by
  rw [answer, admission_eq_rejected_iff.mp h]
  rfl

/-- The second machine is the first one, but for where it goes on and comes back to, what it has counted of
requests, and what it has told. -/
def Diverted (m m' : Machine) : Prop :=
  m' = { m with
    registers := { m.registers with ip := m'.registers.ip }
    callStack := m'.callStack
    stats := { m.stats with accepted := m'.stats.accepted, rejected := m'.stats.rejected }
    events := m'.events }

theorem Diverted.trans {m₁ m' : Machine} (h : Diverted m m₁) (h' : Diverted m₁ m') : Diverted m m' := by
  unfold Diverted at h h' ⊢
  conv_lhs => rw [h', h]

theorem diverted_answer (p : Program) (m : Machine) (r : Request) : Diverted m (m.answer p r) := by
  unfold answer
  split
  next => split <;> rfl
  next => rfl

theorem diverted_answerAll (p : Program) (m : Machine) :
    Diverted { m with pending := [] } (m.answerAll p) :=
  List.foldlRecOn (motive := Diverted { m with pending := [] }) m.pending (answer p) rfl
    fun m' h r _ => h.trans (diverted_answer p m' r)

/-- Each request gets one answer, and is counted as it is answered. -/
theorem ledger_answer (p : Program) (m : Machine) (r : Request) : (m.answer p r).ledger =
    { m.ledger with
      accepted := if m.admission p r.id = .entered then Stats.saturatingAdd m.stats.accepted 1
        else m.stats.accepted
      rejected := if m.admission p r.id = .rejected then Stats.saturatingAdd m.stats.rejected 1
        else m.stats.rejected
      answers := .answered r (m.admission p r.id).isAdmitted :: m.ledger.answers } := by
  cases h : m.admission p r.id with
  | rejected => rw [answer_of_rejected h]; rfl
  | unhandled => rw [answer_of_unhandled h]; rfl
  | entered =>
    obtain ⟨address, -, hanswer⟩ := answer_of_entered h
    rw [hanswer]
    rfl

end Machine

/-- A request that is taken off the queue, with the machine before and after. -/
structure Poll where
  request : Request
  before : Machine
  after : Machine

namespace Poll

variable (p : Program) (x : Poll)

/-- The machine goes on at the handler of the interrupt, from where it is to come back to where it was. -/
def Enters : Prop :=
  p.handler? x.request.id = some x.after.registers.ip ∧
    x.after.callStack = x.before.registers.ip :: x.before.callStack

/-- The machine goes on where it was. -/
def Stays : Prop :=
  x.after.registers.ip = x.before.registers.ip ∧ x.after.callStack = x.before.callStack

/-- Interrupts are let in, but there is no handler for this one. -/
def Acknowledges : Prop :=
  x.before.interruptsEnabled = true ∧ p.handler? x.request.id = none ∧ x.Stays

/-- The request is let in. -/
def Admits : Prop :=
  x.Enters p ∨ x.Acknowledges p

instance : Decidable (x.Enters p) := inferInstanceAs (Decidable (_ ∧ _))

instance : Decidable x.Stays := inferInstanceAs (Decidable (_ ∧ _))

instance : Decidable (x.Acknowledges p) := inferInstanceAs (Decidable (_ ∧ _ ∧ _))

instance : Decidable (x.Admits p) := inferInstanceAs (Decidable (_ ∨ _))

/-- The machine enters the handler or goes on where it was. It lets the request in exactly while interrupts
are let in, and gives one answer, which says whether it did. -/
structure Serves : Prop where
  moves : x.Enters p ∨ x.Stays
  admits_iff : x.Admits p ↔ x.before.interruptsEnabled = true
  answers : x.after.events.filter Event.isAnswer =
    .answered x.request (decide (x.Admits p)) :: x.before.events.filter Event.isAnswer

/-- The machine takes the oldest request and answers it. -/
def Takes : Prop :=
  ∃ rest, x.before.pending = x.request :: rest ∧
    x.after = { x.before with pending := rest }.answer p x.request

/-- What the machine does with the request, by its state before. -/
def fate : Admission :=
  x.before.admission p x.request.id

variable {p x}

theorem not_stays_of_enters (h : x.Enters p) : ¬ x.Stays := fun hstays =>
  List.cons_ne_self _ _ (h.2.symm.trans hstays.2)

namespace Takes

theorem cases (h : x.Takes p) :
    x.fate p = .entered ∧ x.before.interruptsEnabled = true ∧ x.Enters p ∨
    x.fate p = .unhandled ∧ x.Acknowledges p ∨
    x.fate p = .rejected ∧ x.before.interruptsEnabled = false ∧ x.Stays := by
  obtain ⟨rest, -, hafter⟩ := h
  -- The fate does not depend on the queue, so it is also that on the machine without the request.
  cases hfate : x.fate p with
  | entered =>
    obtain ⟨address, haddress, hanswer⟩ :=
      Machine.answer_of_entered (m := { x.before with pending := rest }) hfate
    refine .inl ⟨rfl, (Machine.admission_eq_entered_iff.mp hfate).1, ?_⟩
    rw [Enters, hafter, hanswer]
    exact ⟨haddress, rfl⟩
  | unhandled =>
    obtain ⟨henabled, hnone⟩ := Machine.admission_eq_unhandled_iff.mp hfate
    refine .inr (.inl ⟨rfl, henabled, hnone, ?_⟩)
    rw [Stays, hafter, Machine.answer_of_unhandled (m := { x.before with pending := rest }) hfate]
    exact ⟨rfl, rfl⟩
  | rejected =>
    refine .inr (.inr ⟨rfl, Machine.admission_eq_rejected_iff.mp hfate, ?_⟩)
    rw [Stays, hafter, Machine.answer_of_rejected (m := { x.before with pending := rest }) hfate]
    exact ⟨rfl, rfl⟩

theorem enters_iff (h : x.Takes p) : x.Enters p ↔ x.fate p = .entered := by
  rcases h.cases with ⟨hfate, -, henters⟩ | ⟨hfate, -, -, hstays⟩ | ⟨hfate, -, hstays⟩
  · exact iff_of_true henters hfate
  · rw [hfate]
    exact iff_of_false (fun henters => not_stays_of_enters henters hstays) nofun
  · rw [hfate]
    exact iff_of_false (fun henters => not_stays_of_enters henters hstays) nofun

theorem admits_iff_isAdmitted (h : x.Takes p) : x.Admits p ↔ (x.fate p).isAdmitted = true := by
  rcases h.cases with ⟨hfate, -, henters⟩ | ⟨hfate, hacknowledges⟩ | ⟨hfate, hdisabled, hstays⟩
  · rw [hfate]
    exact iff_of_true (.inl henters) rfl
  · rw [hfate]
    exact iff_of_true (.inr hacknowledges) rfl
  · rw [hfate]
    refine iff_of_false ?_ Bool.false_ne_true
    rintro (henters | ⟨henabled, -⟩)
    · exact not_stays_of_enters henters hstays
    · rw [hdisabled] at henabled
      cases henabled

theorem not_admits_iff (h : x.Takes p) : ¬ x.Admits p ↔ x.fate p = .rejected := by
  rw [h.admits_iff_isAdmitted]
  cases x.fate p <;> decide

theorem decide_admits (h : x.Takes p) : decide (x.Admits p) = (x.fate p).isAdmitted :=
  Bool.eq_iff_iff.mpr (decide_eq_true_iff.trans h.admits_iff_isAdmitted)

theorem ledger (h : x.Takes p) : ∃ rest, x.before.pending = x.request :: rest ∧
    x.after.ledger = { x.before.ledger with
      accepted := if x.fate p = .entered then Stats.saturatingAdd x.before.stats.accepted 1
        else x.before.stats.accepted
      rejected := if x.fate p = .rejected then Stats.saturatingAdd x.before.stats.rejected 1
        else x.before.stats.rejected
      pending := rest
      answers := .answered x.request (x.fate p).isAdmitted :: x.before.ledger.answers } := by
  obtain ⟨rest, hpending, hafter⟩ := h
  refine ⟨rest, hpending, ?_⟩
  rw [hafter]
  exact Machine.ledger_answer p { x.before with pending := rest } x.request

theorem serves (h : x.Takes p) : x.Serves p := by
  refine ⟨?_, ?_, ?_⟩
  · rcases h.cases with ⟨-, -, henters⟩ | ⟨-, -, -, hstays⟩ | ⟨-, -, hstays⟩
    · exact .inl henters
    · exact .inr hstays
    · exact .inr hstays
  · rw [h.admits_iff_isAdmitted]
    rcases h.cases with ⟨hfate, henabled, -⟩ | ⟨hfate, henabled, -⟩ | ⟨hfate, hdisabled, -⟩
    · exact iff_of_true (by rw [hfate]; rfl) henabled
    · exact iff_of_true (by rw [hfate]; rfl) henabled
    · rw [hfate, hdisabled]
      rfl
  · rw [h.decide_admits]
    obtain ⟨_, -, hledger⟩ := h.ledger
    exact congrArg Machine.Ledger.answers hledger

end Takes

end Poll

end RegisterMachine

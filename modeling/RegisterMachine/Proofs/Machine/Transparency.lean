import Mathlib
import RegisterMachine.Proofs.Machine.Silence

namespace RegisterMachine

/-- The event tells that the handler of an interrupt was entered. -/
def Event.isEntry (p : Program) : Event → Bool
  | .answered r accepted => accepted && (p.handler? r.id).isSome
  | _ => false

/-- The event tells that an interrupt was kept out. -/
def Event.isRejection : Event → Bool
  | .answered _ accepted => !accepted
  | _ => false

/-- The handler of every interrupt returns at once. -/
def Program.ReturnsAtOnce (p : Program) : Prop :=
  ∀ id address, p.handler? id = some address → p.fetch? address = some .ret

namespace Machine

/-- The machine after so many cycles, fewer if it halts before. The requests at the front of the schedule
are made before the first cycle, and so on. -/
def runWith (p : Program) : List (List Request) → Nat → Machine → Machine
  | _, 0, m => m
  | schedule, n + 1, m =>
    if m.alive then
      runWith p schedule.tail n (((schedule.headD []).foldl request m).cycle p)
    else m

/-- The machine before its next instruction, without all that belongs to the delivery of interrupts. -/
def core (m : Machine) : Machine :=
  m.resetConstants.silence

/-- The first machine is inside of so many handlers that return at once; after as many returns it is like
the second one. -/
inductive Nested (p : Program) : Nat → Machine → Machine → Prop
  | same {m m' : Machine} : m.core = m'.core → Nested p 0 m m'
  | inside {depth : Nat} {m m₁ m' : Machine} : p.fetch? m.registers.ip = some .ret →
      m.leave = .ok m₁ → Nested p depth m₁ m' → Nested p (depth + 1) m m'

section

variable {p : Program} {m m₁ m' : Machine} {depth : Nat}

theorem core_of_silence (h : m.silence = m'.silence) : m.core = m'.core :=
  congrArg resetConstants h

theorem core_emit {e : Event} (h : e.isDelivery = true) : (m.emit e).core = m.core :=
  core_of_silence (silence_emit_delivery h)

theorem ip_of_core (h : m₁.core = m.core) : m₁.registers.ip = m.registers.ip := by
  have hip : m₁.core.registers.ip = m.core.registers.ip := by rw [h]
  exact hip

theorem leave_core {a : Machine} (h : m₁.core = m.core) (ha : m.leave = .ok a) :
    ∃ b, m₁.leave = .ok b ∧ b.core = a.core := by
  have hstack : m₁.core.callStack = m.core.callStack := by rw [h]
  change m₁.callStack = m.callStack at hstack
  rw [leave] at ha
  rw [leave, hstack]
  cases hcalls : m.callStack with
  | nil =>
    rw [hcalls] at ha
    cases ha
  | cons ip rest =>
    rw [hcalls] at ha
    obtain rfl := Except.ok.inj ha
    refine ⟨_, rfl, ?_⟩
    exact congrArg (fun s : Machine => { s with callStack := rest }.jump ip) h

namespace Nested

theorem congr (h : Nested p depth m m') (hm : m₁.core = m.core) : Nested p depth m₁ m' := by
  induction h generalizing m₁ with
  | same hcore => exact .same (hm.trans hcore)
  | inside hfetch hleave _ ih =>
    obtain ⟨b, hb, hcore⟩ := leave_core hm hleave
    exact .inside (by rw [ip_of_core hm, hfetch]) hb (ih hcore)

theorem alive (h : Nested p depth m m') : m.alive = m'.alive := by
  induction h with
  | @same m m' hcore =>
    have halive : m.core.alive = m'.core.alive := by rw [hcore]
    exact halive
  | @inside _ m m₁ _ _ hleave _ ih =>
    rw [← ih]
    rw [leave] at hleave
    split at hleave
    next =>
      obtain rfl := Except.ok.inj hleave
      rfl
    next => cases hleave

/-- A machine that enters a handler that returns at once is inside of one more. -/
theorem enter {address : UInt64} (h : Nested p depth m m') (hret : p.fetch? address = some .ret) :
    Nested p (depth + 1) (m.enter address) m' := by
  have hleave : (m.enter address).leave = .ok m := rfl
  exact .inside hret hleave h

end Nested

end

/-- What the counters and the answers of the first machine come to: those at the start, those of the
machine without interrupts, and so many entries of handlers, returns and rejections. -/
structure Accounts (p : Program) (start l own : Ledger) (entered returned refused : Nat) : Prop where
  executed : l.executed.toNat = min (own.executed.toNat + returned) (UInt64.size - 1)
  accepted : l.accepted.toNat = min (start.accepted.toNat + entered) (UInt64.size - 1)
  rejected : l.rejected.toNat = min (start.rejected.toNat + refused) (UInt64.size - 1)
  entries : l.answers.countP (Event.isEntry p) = start.answers.countP (Event.isEntry p) + entered
  rejections : l.answers.countP Event.isRejection = start.answers.countP Event.isRejection + refused
  own_accepted : own.accepted = start.accepted
  own_rejected : own.rejected = start.rejected

/-- The first machine is inside of so many handlers that return at once and otherwise like the second one,
and its accounts are right. -/
def Shadows (p : Program) (start : Ledger) (depth : Nat) (m m' : Machine) : Prop :=
  Nested p depth m m' ∧
    ∃ returned refused, Accounts p start m.ledger m'.ledger (returned + depth) returned refused

namespace Accounts

variable {p : Program} {start l own : Ledger} {entered returned refused : Nat} {r : Request}

theorem refl (hexecuted : l.executed = own.executed) (haccepted : l.accepted = own.accepted)
    (hrejected : l.rejected = own.rejected) (hanswers : l.answers = own.answers) :
    Accounts p own l own 0 0 0 where
  executed := by
    have hlt := own.executed.toNat_lt_size
    rw [hexecuted]
    omega
  accepted := by
    have hlt := own.accepted.toNat_lt_size
    rw [haccepted]
    omega
  rejected := by
    have hlt := own.rejected.toNat_lt_size
    rw [hrejected]
    omega
  entries := by rw [hanswers, Nat.add_zero]
  rejections := by rw [hanswers, Nat.add_zero]
  own_accepted := rfl
  own_rejected := rfl

theorem of_pending {pending : List Request} (h : Accounts p start l own entered returned refused) :
    Accounts p start ⟨l.executed, l.accepted, l.rejected, pending, l.answers⟩ own entered returned
      refused :=
  ⟨h.executed, h.accepted, h.rejected, h.entries, h.rejections, h.own_accepted, h.own_rejected⟩

theorem enter {pending : List Request} (h : Accounts p start l own entered returned refused)
    (hhandler : (p.handler? r.id).isSome) :
    Accounts p start ⟨l.executed, Stats.saturatingAdd l.accepted 1, l.rejected, pending,
      .answered r true :: l.answers⟩ own (entered + 1) returned refused where
  executed := h.executed
  accepted := Stats.one_more h.accepted
  rejected := h.rejected
  entries := by
    have hentry : Event.isEntry p (.answered r true) = true := hhandler
    rw [List.countP_cons_of_pos hentry, h.entries]
    omega
  rejections := by
    rw [List.countP_cons_of_neg Bool.false_ne_true, h.rejections]
  own_accepted := h.own_accepted
  own_rejected := h.own_rejected

theorem acknowledge {pending : List Request} (h : Accounts p start l own entered returned refused)
    (hhandler : p.handler? r.id = none) :
    Accounts p start ⟨l.executed, l.accepted, l.rejected, pending, .answered r true :: l.answers⟩ own
      entered returned refused where
  executed := h.executed
  accepted := h.accepted
  rejected := h.rejected
  entries := by
    have hentry : ¬ Event.isEntry p (.answered r true) = true := by
      rw [Event.isEntry, hhandler]
      exact Bool.false_ne_true
    rw [List.countP_cons_of_neg hentry, h.entries]
  rejections := by
    rw [List.countP_cons_of_neg Bool.false_ne_true, h.rejections]
  own_accepted := h.own_accepted
  own_rejected := h.own_rejected

theorem reject {pending : List Request} (h : Accounts p start l own entered returned refused) :
    Accounts p start ⟨l.executed, l.accepted, Stats.saturatingAdd l.rejected 1, pending,
      .answered r false :: l.answers⟩ own entered returned (refused + 1) where
  executed := h.executed
  accepted := h.accepted
  rejected := Stats.one_more h.rejected
  entries := by
    rw [List.countP_cons_of_neg Bool.false_ne_true, h.entries]
  rejections := by
    rw [List.countP_cons_of_pos rfl, h.rejections]
    omega
  own_accepted := h.own_accepted
  own_rejected := h.own_rejected

theorem more {pending : List Request} (h : Accounts p start l own entered returned refused) :
    Accounts p start ⟨Stats.saturatingAdd l.executed 1, l.accepted, l.rejected, pending, l.answers⟩ own
      entered (returned + 1) refused where
  executed := Stats.one_more h.executed
  accepted := h.accepted
  rejected := h.rejected
  entries := h.entries
  rejections := h.rejections
  own_accepted := h.own_accepted
  own_rejected := h.own_rejected

theorem both {pending pending' : List Request}
    (h : Accounts p start l own entered returned refused) :
    Accounts p start ⟨Stats.saturatingAdd l.executed 1, l.accepted, l.rejected, pending, l.answers⟩
      ⟨Stats.saturatingAdd own.executed 1, own.accepted, own.rejected, pending', own.answers⟩
      entered returned refused where
  executed := Stats.both_more h.executed
  accepted := h.accepted
  rejected := h.rejected
  entries := h.entries
  rejections := h.rejections
  own_accepted := h.own_accepted
  own_rejected := h.own_rejected

end Accounts

section

variable {p : Program} {m m' : Machine} {start : Ledger} {depth : Nat}

/-- An answer to a request either enters a handler or changes nothing that the program notices. -/
theorem Shadows.answer (hp : p.ReturnsAtOnce) (h : Shadows p start depth m m') (r : Request) :
    ∃ depth' ≤ depth + 1, Shadows p start depth' (m.answer p r) m' ∧
      (m.answer p r).pending = m.pending := by
  obtain ⟨hnested, returned, refused, haccounts⟩ := h
  rw [Machine.answer]
  split
  next =>
    cases hhandler : p.handler? r.id with
    | some address =>
      have hsame : ((m.count .accepted).emit (.answered r true)).core = m.core :=
        core_emit (m := m.count .accepted) rfl
      have hnext := (hnested.congr hsame).enter (hp r.id address hhandler)
      exact ⟨depth + 1, Nat.le_refl _, ⟨hnext, returned, refused,
        haccounts.enter (Option.isSome_of_eq_some hhandler)⟩, rfl⟩
    | none =>
      have hlog : Event.isDelivery (.logged ⟨.error, some "vm",
          "no handler for interrupt " ++ toString r.id.toNat⟩) = true := by
        rw [Event.isDelivery, Event.noHandler, String.toList_append]
        exact List.isPrefixOf_iff_prefix.mpr (List.prefix_append _ _)
      have hsame : ((m.log .error ("no handler for interrupt " ++ toString r.id.toNat)).emit
          (.answered r true)).core = m.core := by
        rw [core_emit rfl, log, core_emit hlog]
      exact ⟨depth, Nat.le_succ _, ⟨hnested.congr hsame, returned, refused,
        haccounts.acknowledge hhandler⟩, rfl⟩
  next =>
    have hsame : ((m.count .rejected).emit (.answered r false)).core = m.core :=
      core_emit (m := m.count .rejected) rfl
    exact ⟨depth, Nat.le_succ _, ⟨hnested.congr hsame, returned, refused + 1,
      haccounts.reject⟩, rfl⟩

theorem Shadows.answers (hp : p.ReturnsAtOnce) (h : Shadows p start depth m m')
    (requests : List Request) : ∃ depth' ≤ depth + requests.length,
      Shadows p start depth' (requests.foldl (Machine.answer p) m) m' ∧
      (requests.foldl (Machine.answer p) m).pending = m.pending := by
  induction requests generalizing m depth with
  | nil => exact ⟨depth, Nat.le_refl _, h, rfl⟩
  | cons r requests ih =>
    obtain ⟨depth₁, hle₁, hanswer, hpending₁⟩ := h.answer hp r
    obtain ⟨depth₂, hle₂, hanswers, hpending₂⟩ := ih hanswer
    refine ⟨depth₂, ?_, hanswers, hpending₂.trans hpending₁⟩
    rw [List.length_cons]
    omega

theorem foldl_request (requests : List Request) (m : Machine) :
    requests.foldl request m = { m with pending := m.pending ++ requests } := by
  induction requests generalizing m with
  | nil => rw [List.append_nil]; rfl
  | cons r requests ih =>
    rw [List.foldl_cons, ih, request, List.append_assoc]
    rfl

theorem advance_of_ret {m₁ : Machine} (hfetch : p.fetch? m.registers.ip = some .ret)
    (hleave : m.leave = .ok m₁) : m.resetConstants.advance p = m₁.resetConstants.count .executed := by
  have hip : m.resetConstants.registers.ip = m.registers.ip := rfl
  rw [leave] at hleave
  rw [advance, hip, hfetch]
  simp only [exec, leave]
  have hstack : ((m.resetConstants.jump (m.registers.ip + 1)).count .executed).callStack =
      m.callStack := rfl
  rw [hstack]
  cases hcalls : m.callStack with
  | nil =>
    rw [hcalls] at hleave
    cases hleave
  | cons ip rest =>
    rw [hcalls] at hleave
    obtain rfl := Except.ok.inj hleave
    rfl

/-- The instruction inside of a handler returns from it. -/
theorem Shadows.leave (h : Shadows p start (depth + 1) m m') :
    Shadows p start depth (m.resetConstants.advance p) m' ∧
      (m.resetConstants.advance p).pending = m.pending := by
  obtain ⟨hnested, returned, refused, haccounts⟩ := h
  cases hnested with
  | @inside _ _ m₁ _ hfetch hleave hnested =>
    have hledger : m₁.ledger = m.ledger := by
      have hexec : m.exec p m.registers.ip .ret = .ok m₁ := hleave
      exact ledger_exec_of_ne (fun id hid => by cases hid) hexec
    rw [advance_of_ret hfetch hleave]
    refine ⟨⟨hnested.congr rfl, returned + 1, refused, ?_⟩, congrArg Ledger.pending hledger⟩
    have hsum : returned + 1 + depth = returned + (depth + 1) := by omega
    rw [hsum]
    rw [← hledger] at haccounts
    exact haccounts.more

/-- The instruction outside of handlers is that of the program. -/
theorem Shadows.advance (h : Shadows p start 0 m m') :
    (m.resetConstants.advance p).silence = (m'.resetConstants.advance p.quiet).silence ∧
      Shadows p start 0 (m.resetConstants.advance p) (m'.resetConstants.advance p.quiet) ∧
      (m'.resetConstants.advance p.quiet).pending = m'.pending := by
  obtain ⟨hnested, returned, refused, haccounts⟩ := h
  cases hnested with
  | same hcore =>
    have hsilence := silence_advance (p := p) hcore
    have hip : m'.resetConstants.registers.ip = m.resetConstants.registers.ip := (ip_of_core hcore).symm
    have hledger := ledger_advance p m.resetConstants
    have hledger' := ledger_advance p.quiet m'.resetConstants
    have hfetch : p.quiet.fetch? m.resetConstants.registers.ip =
      p.fetch? m.resetConstants.registers.ip := rfl
    rw [hip, hfetch] at hledger'
    refine ⟨hsilence, ⟨.same (core_of_silence hsilence), returned, refused, ?_⟩, ?_⟩
    · rw [hledger, hledger']
      cases p.fetch? m.resetConstants.registers.ip with
      | none => exact haccounts
      | some i => exact haccounts.both
    · have hpending := congrArg Ledger.pending hledger'
      cases hi : p.fetch? m.resetConstants.registers.ip with
      | none =>
        rw [hi] at hpending
        exact hpending
      | some i =>
        rw [hi] at hpending
        simp only [Program.raised_quiet, List.append_nil] at hpending
        exact hpending

/-- A cycle with requests is an instruction of the program, or a return from a handler. Then there is one
handler less to return from, or a request less to answer. -/
theorem Shadows.cycle (hp : p.ReturnsAtOnce) (h : Shadows p start depth m m')
    (hpending : m'.pending = []) (requests : List Request) :
    ((requests.foldl request m).cycle p).silence = (m'.cycle p.quiet).silence ∧
        Shadows p start 0 ((requests.foldl request m).cycle p) (m'.cycle p.quiet) ∧
        (m'.cycle p.quiet).pending = [] ∨
      ∃ depth' < depth + m.pending.length + requests.length,
        Shadows p start depth' ((requests.foldl request m).cycle p) m' ∧
        ((requests.foldl request m).cycle p).pending = [] := by
  have hstart : Shadows p start depth { m with pending := [] } m' := by
    obtain ⟨hnested, returned, refused, haccounts⟩ := h
    exact ⟨hnested.congr rfl, returned, refused, haccounts.of_pending⟩
  obtain ⟨depth', hle, hanswers, hnone⟩ := hstart.answers hp (m.pending ++ requests)
  have hcycle : (requests.foldl request m).cycle p =
      ((m.pending ++ requests).foldl (Machine.answer p)
        { m with pending := [] }).resetConstants.advance p := by
    rw [foldl_request, Machine.cycle, answerAll]
  have hcycle' : m'.cycle p.quiet = m'.resetConstants.advance p.quiet := by
    have hsame : { m' with pending := [] } = m' := by rw [← hpending]
    rw [Machine.cycle, answerAll, hpending, List.foldl_nil, hsame]
  rw [hcycle, hcycle']
  cases depth' with
  | zero =>
    obtain ⟨hsilence, hshadows, hquiet⟩ := hanswers.advance
    exact .inl ⟨hsilence, hshadows, hquiet.trans hpending⟩
  | succ depth' =>
    obtain ⟨hshadows, hleft⟩ := hanswers.leave
    refine .inr ⟨depth', ?_, hshadows, hleft.trans hnone⟩
    rw [List.length_append] at hle
    omega

end

section

variable {p : Program} {m m' : Machine} {start : Ledger} {depth : Nat}

theorem runFor_of_halted (h : m.alive = false) (n : Nat) : runFor p n m = m := by
  cases n with
  | zero => rfl
  | succ n => rw [runFor, h, if_neg Bool.false_ne_true]

theorem runWith_of_halted (h : m.alive = false) (schedule : List (List Request)) (n : Nat) :
    runWith p schedule n m = m := by
  cases n with
  | zero => rfl
  | succ n => rw [runWith, h, if_neg Bool.false_ne_true]

/-- A machine that has halted goes through no more cycles. -/
theorem runFor_unique {n k : Nat} (hn : (runFor p n m).alive = false)
    (hk : (runFor p k m).alive = false) : runFor p n m = runFor p k m := by
  induction n generalizing m k with
  | zero => exact (runFor_of_halted hn k).symm
  | succ n ih =>
    by_cases halive : m.alive = true
    · cases k with
      | zero => exact absurd (halive.symm.trans hk) (by decide)
      | succ k =>
        rw [runFor, if_pos halive] at hn hk ⊢
        rw [runFor, if_pos halive]
        exact ih hn hk
    · have hhalted := Bool.not_eq_true _ ▸ halive
      rw [runFor_of_halted hhalted, runFor_of_halted hhalted]

/-- Each run with requests follows the run without. -/
theorem Shadows.exists_runFor (hp : p.ReturnsAtOnce) (n : Nat) (schedule : List (List Request))
    (h : Shadows p start depth m m') (halive : m.alive = true) (hpending : m'.pending = []) :
    (runWith p schedule n m).alive = true ∨ ∃ k,
      (runFor p.quiet k m').alive = false ∧
      (runWith p schedule n m).silence = (runFor p.quiet k m').silence ∧
      Shadows p start 0 (runWith p schedule n m) (runFor p.quiet k m') := by
  induction n generalizing schedule depth m m' with
  | zero => exact .inl halive
  | succ n ih =>
    have halive' : m'.alive = true := h.1.alive ▸ halive
    rw [runWith, if_pos halive]
    rcases h.cycle hp hpending (schedule.headD []) with
      ⟨hsilence, hnext, hquiet⟩ | ⟨depth', -, hnext, -⟩
    · by_cases hon : ((schedule.headD []).foldl request m |>.cycle p).alive = true
      · rcases ih schedule.tail hnext hon hquiet with hrun | ⟨k, hk⟩
        · exact .inl hrun
        · refine .inr ⟨k + 1, ?_⟩
          rw [runFor, if_pos halive']
          exact hk
      · have hhalted := Bool.not_eq_true _ ▸ hon
        have hhalted' : (m'.cycle p.quiet).alive = false := hnext.1.alive ▸ hhalted
        refine .inr ⟨1, ?_⟩
        rw [runFor, if_pos halive', runFor, runWith_of_halted hhalted]
        exact ⟨hhalted', hsilence, hnext⟩
    · have hon : ((schedule.headD []).foldl request m |>.cycle p).alive = true := by
        rw [hnext.1.alive, halive']
      exact ih schedule.tail hnext hon hpending

/-- If the run without requests halts, so does one with finitely many of them. -/
theorem Shadows.exists_halted (hp : p.ReturnsAtOnce) {k : Nat} (bound : Nat)
    (schedule : List (List Request)) (h : Shadows p start depth m m') (halive : m.alive = true)
    (hpending : m'.pending = []) (hhalts : (runFor p.quiet k m').alive = false)
    (hbound : depth + m.pending.length + schedule.flatten.length < bound) :
    ∃ n, (runWith p schedule n m).alive = false := by
  -- Returns use up the handlers that can still be entered, so after finitely many of them the program
  -- goes on, and it halts after finitely many instructions of its own.
  induction k generalizing bound schedule depth m m' with
  | zero => exact absurd (halive.symm.trans (h.1.alive.trans hhalts)) (by decide)
  | succ k ihk =>
    have halive' : m'.alive = true := h.1.alive ▸ halive
    induction bound generalizing schedule depth m with
    | zero => exact absurd hbound (Nat.not_lt_zero _)
    | succ bound ih =>
      have hstep : ∀ n, runWith p schedule (n + 1) m =
          runWith p schedule.tail n (((schedule.headD []).foldl request m).cycle p) := fun n => by
        rw [runWith, if_pos halive]
      have hflatten : schedule.flatten.length =
          (schedule.headD []).length + schedule.tail.flatten.length := by
        cases schedule with
        | nil => rfl
        | cons requests schedule => exact List.length_append
      rcases h.cycle hp hpending (schedule.headD []) with
        ⟨-, hnext, hquiet⟩ | ⟨depth', hless, hnext, hleft⟩
      · by_cases hon : ((schedule.headD []).foldl request m |>.cycle p).alive = true
        · rw [runFor, if_pos halive'] at hhalts
          obtain ⟨n, hn⟩ := ihk _ schedule.tail hnext hon hquiet hhalts (Nat.lt_succ_self _)
          exact ⟨n + 1, (hstep n).symm ▸ hn⟩
        · exact ⟨1, (hstep 0).symm ▸ Bool.not_eq_true _ ▸ hon⟩
      · have hon : ((schedule.headD []).foldl request m |>.cycle p).alive = true := by
          rw [hnext.1.alive, halive']
        have hmeasure : depth' + ((schedule.headD []).foldl request m |>.cycle p).pending.length +
            schedule.tail.flatten.length < bound := by
          rw [hleft, List.length_nil]
          omega
        obtain ⟨n, hn⟩ := ih schedule.tail hnext hon hmeasure
        exact ⟨n + 1, (hstep n).symm ▸ hn⟩

end

/-- The first machine has come to the same as the second one, except for the instructions and requests
that are counted. The handlers that were entered since the start and the requests that were rejected
account for the difference. -/
structure SameBut (p : Program) (start m m' : Machine) : Prop where
  outcome : m.outcome = m'.outcome
  registers : m.registers = m'.registers
  stack : m.stack = m'.stack
  memory : m.memory = m'.memory
  callStack : m.callStack = m'.callStack
  interruptsEnabled : m.interruptsEnabled = m'.interruptsEnabled
  fault : m.fault = m'.fault
  asked : m.asked = m'.asked
  /-- What is printed, traced and logged, the fault that is told, the alarms and the snapshots. -/
  events : m.events.filter (fun e => !e.isDelivery) = m'.events.filter fun e => !e.isDelivery
  loaded : m.stats.loaded = m'.stats.loaded
  dispatched : m.stats.dispatched = m'.stats.dispatched
  allocated : m.stats.allocated = m'.stats.allocated
  counters : ∃ entered refused,
    m.events.countP (Event.isEntry p) = start.events.countP (Event.isEntry p) + entered ∧
    m.events.countP Event.isRejection = start.events.countP Event.isRejection + refused ∧
    m.stats.executed.toNat = min (m'.stats.executed.toNat + entered) (UInt64.size - 1) ∧
    m.stats.accepted.toNat = min (start.stats.accepted.toNat + entered) (UInt64.size - 1) ∧
    m.stats.rejected.toNat = min (start.stats.rejected.toNat + refused) (UInt64.size - 1) ∧
    m'.stats.accepted = start.stats.accepted ∧ m'.stats.rejected = start.stats.rejected

theorem countP_answers {f : Event → Bool} (hf : ∀ e, f e = true → e.isAnswer = true) (m : Machine) :
    m.ledger.answers.countP f = m.events.countP f := by
  have hboth : ∀ e, (f e && e.isAnswer) = f e := fun e => by
    cases he : f e with
    | false => rfl
    | true => rw [hf e he]; rfl
  rw [ledger, List.countP_filter]
  simp only [hboth]

/-- What does not belong to the delivery of interrupts is known of the machine without it. -/
theorem eq_of_silence {α : Type} {f : Machine → α} {m m' : Machine} (hf : ∀ s : Machine, f s.silence = f s)
    (h : m.silence = m'.silence) : f m = f m' := by
  rw [← hf m, h, hf m']

theorem SameBut.of_shadows {p : Program} {start m m' : Machine}
    (h : Shadows p { start with pending := [] }.ledger 0 m m') (hsilence : m.silence = m'.silence) :
    SameBut p start m m' := by
  obtain ⟨-, returned, refused, haccounts⟩ := h
  have hentry : ∀ e, Event.isEntry p e = true → e.isAnswer = true := by
    intro e he
    cases e with
    | answered => rfl
    | _ => cases he
  have hrejection : ∀ e, Event.isRejection e = true → e.isAnswer = true := by
    intro e he
    cases e with
    | answered => rfl
    | _ => cases he
  have hregisters : m.registers = m'.registers := eq_of_silence (fun _ => rfl) hsilence
  have hfault : m.fault = m'.fault := eq_of_silence (fun _ => rfl) hsilence
  have houtcome : m.outcome = m'.outcome := by
    simp only [Machine.outcome, Machine.exitCode, hfault, hregisters]
  have hevents : m.silence.events = m'.silence.events := by rw [hsilence]
  refine ⟨houtcome, hregisters, eq_of_silence (fun _ => rfl) hsilence,
    eq_of_silence (fun _ => rfl) hsilence, eq_of_silence (fun _ => rfl) hsilence,
    eq_of_silence (fun _ => rfl) hsilence, hfault, eq_of_silence (fun _ => rfl) hsilence, hevents,
    eq_of_silence (f := fun s => s.stats.loaded) (fun _ => rfl) hsilence,
    eq_of_silence (f := fun s => s.stats.dispatched) (fun _ => rfl) hsilence,
    eq_of_silence (f := fun s => s.stats.allocated) (fun _ => rfl) hsilence, returned, refused, ?_⟩
  rw [← countP_answers hentry, ← countP_answers hrejection, ← countP_answers hentry,
    ← countP_answers hrejection]
  exact ⟨haccounts.entries, haccounts.rejections, haccounts.executed, haccounts.accepted,
    haccounts.rejected, haccounts.own_accepted, haccounts.own_rejected⟩

/-- If every handler returns at once, a run with any finite schedule of requests halts exactly if the run
without requests does, and then both come to the same. Without requests, none waits at the start, and
system functions make none. -/
theorem runWith_transparent {p : Program} (hp : p.ReturnsAtOnce) (m : Machine)
    (schedule : List (List Request)) :
    ((∃ n, (runWith p schedule n m.start).alive = false) ↔
      ∃ n, (runFor p.quiet n { m with pending := [] }.start).alive = false) ∧
    ∀ n k, (runWith p schedule n m.start).alive = false →
      (runFor p.quiet k { m with pending := [] }.start).alive = false →
      SameBut p m (runWith p schedule n m.start) (runFor p.quiet k { m with pending := [] }.start) := by
  have hstart : Shadows p { m with pending := [] }.ledger 0 m.start { m with pending := [] }.start :=
    ⟨.same rfl, 0, 0, Accounts.refl rfl rfl rfl rfl⟩
  have hrun : ∀ n, (runWith p schedule n m.start).alive = false → ∃ k,
      (runFor p.quiet k { m with pending := [] }.start).alive = false ∧
      SameBut p m (runWith p schedule n m.start)
        (runFor p.quiet k { m with pending := [] }.start) := by
    intro n hn
    rcases hstart.exists_runFor hp n schedule rfl rfl with hon | ⟨k, hk, hsilence, hshadows⟩
    · exact absurd (hon.symm.trans hn) (by decide)
    · exact ⟨k, hk, SameBut.of_shadows hshadows hsilence⟩
  refine ⟨⟨fun ⟨n, hn⟩ => ?_, fun ⟨k, hk⟩ => ?_⟩, fun n k hn hk => ?_⟩
  · obtain ⟨k, hk, -⟩ := hrun n hn
    exact ⟨k, hk⟩
  · exact hstart.exists_halted hp _ schedule rfl rfl hk (Nat.lt_succ_self _)
  · obtain ⟨k', hk', hsame⟩ := hrun n hn
    rw [runFor_unique hk hk']
    exact hsame

/-- Interrupts that are rejected, that nobody handles, and that enter a handler inside of a handler. -/
theorem runWith_transparent_nested :
    let i : Image :=
      { version := Version.supported, debug := .minimal, sections := [], interrupts := [⟨3, 4⟩],
        constants := [], entry := 0,
        instructions := [.enableInterrupts, .move (.int 0) 7, .nop, .exit, .ret] }
    let p := Program.ofImage i Syscall.builtin
    let m := ofImage i 16
    let schedule := [[⟨3, none⟩], [⟨3, none⟩, ⟨3, none⟩], [⟨9, none⟩, ⟨3, none⟩]]
    p.ReturnsAtOnce ∧ (runWith p schedule 7 m.start).alive = false ∧
      (runWith p schedule 7 m.start).stats.accepted = 3 ∧
      (runWith p schedule 7 m.start).stats.rejected = 1 ∧
      (runFor p 4 m.start).alive = false ∧
      SameBut p m (runWith p schedule 7 m.start) (runFor p 4 m.start) := by
  intro i p m schedule
  have hreturns : p.ReturnsAtOnce := by
    intro id address h
    obtain ⟨handler, hfind, rfl⟩ := Option.map_eq_some_iff.mp h
    obtain rfl := List.mem_singleton.mp (List.mem_of_find?_eq_some hfind)
    rfl
  have hquiet : p.quiet = p := Program.quiet_eq_self Syscall.quiet_builtin
  have hhalted : (runWith p schedule 7 m.start).alive = false := by decide +kernel
  have hhalted' : (runFor p 4 m.start).alive = false := by decide +kernel
  have hsame := (runWith_transparent hreturns m schedule).2 7 4 hhalted
  rw [hquiet] at hsame
  exact ⟨hreturns, hhalted, by decide +kernel, by decide +kernel, hhalted', hsame hhalted'⟩

end Machine

end RegisterMachine

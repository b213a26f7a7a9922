import Mathlib
import RegisterMachine.Proofs.Delivery.Cycles
import RegisterMachine.Proofs.Machine.Control
import RegisterMachine.Proofs.Machine.Transparency

namespace RegisterMachine

/-- A place where the flow of control is left so as to come back, or comes back. -/
inductive Transfer where
  /-- The instruction at an index is a call. -/
  | called (ip : UInt64)
  /-- A handler is entered when the machine is about to go on at an index. -/
  | interrupted (ip : UInt64)
  | returned
deriving DecidableEq

/-- The transfer that an instruction at an index makes. -/
def Instruction.transfer? (ip : UInt64) : Instruction → Option Transfer
  | call _ => some (.called ip)
  | ret => some .returned
  | _ => none

theorem Instruction.transfer?_eq_none {i : Instruction} (ip : UInt64) (hcall : ∀ target, i ≠ .call target)
    (hret : i ≠ .ret) : i.transfer? ip = none := by
  cases i with
  | call target => exact absurd rfl (hcall target)
  | ret => exact absurd rfl hret
  | _ => rfl

namespace Machine

/-- The transfer that the answer to a request makes. -/
def interruption (p : Program) (m : Machine) (r : Request) : List Transfer :=
  if m.admission p r.id = .entered then [.interrupted m.registers.ip] else []

/-- The transfer that the next instruction makes. An instruction that stops the program makes none. -/
def transfer (p : Program) (m : Machine) : List Transfer :=
  if (m.resetConstants.advance p).alive then
    ((p.fetch? m.registers.ip).bind (Instruction.transfer? m.registers.ip)).toList
  else []

/-- The transfers that the answers to some requests make. -/
def interruptions (p : Program) (m : Machine) : List Request → List Transfer
  | [] => []
  | r :: requests => m.interruption p r ++ (m.answer p r).interruptions p requests

/-- The transfers in a cycle. -/
def transfers (p : Program) (m : Machine) : List Transfer :=
  m.interruptions p m.pending ++ (m.answerAll p).transfer p

/-- The transfers in a run with a schedule of requests. -/
def transfersWith (p : Program) : List (List Request) → Nat → Machine → List Transfer
  | _, 0, _ => []
  | schedule, n + 1, m =>
    if m.alive then
      let ready := (schedule.headD []).foldl request m
      ready.transfers p ++ transfersWith p schedule.tail n (ready.cycle p)
    else []

/-- Something that happens to a machine, and the transfers in it. -/
inductive Step (p : Program) : Machine → List Transfer → Machine → Prop
  /-- A run begins. -/
  | start (m : Machine) : Step p m [] m.start
  /-- Somebody asks for an interrupt. -/
  | request (m : Machine) (r : Request) : Step p m [] (m.request r)
  /-- The oldest request is answered. -/
  | answer {m : Machine} {r : Request} {rest : List Request} : m.alive = true →
      m.pending = r :: rest → Step p m (m.interruption p r) ({ m with pending := rest }.answer p r)
  /-- The next instruction is carried out, or stops the program. -/
  | advance {m : Machine} : m.alive = true → Step p m (m.transfer p) (m.resetConstants.advance p)
  /-- The outside world takes notice of what the machine told. -/
  | notice (m : Machine) : Step p m [] { m with events := [] }

/-- The second machine is what became of the first one in a history with these transfers. -/
inductive Reaches (p : Program) (m : Machine) : List Transfer → Machine → Prop
  | refl : Reaches p m [] m
  | tail {t t' : List Transfer} {m₁ m₂ : Machine} : Reaches p m t m₁ → Step p m₁ t' m₂ →
      Reaches p m (t ++ t') m₂

section

variable {p : Program} {m m₁ m₂ : Machine} {t t' : List Transfer} {i : Instruction}

theorem transfer_of_fetch (hfetch : p.fetch? m.registers.ip = some i)
    (halive : (m.resetConstants.advance p).alive = true) :
    m.transfer p = (i.transfer? m.registers.ip).toList := by
  rw [transfer, if_pos halive, hfetch]
  rfl

theorem transfer_of_halted (halive : (m.resetConstants.advance p).alive = false) :
    m.transfer p = [] :=
  if_neg (by rw [halive]; exact Bool.false_ne_true)

theorem Reaches.single (h : Step p m t m₁) : Reaches p m t m₁ :=
  Reaches.tail .refl h

theorem Reaches.trans (h : Reaches p m t m₁) (h' : Reaches p m₁ t' m₂) :
    Reaches p m (t ++ t') m₂ := by
  induction h' with
  | refl =>
    rw [List.append_nil]
    exact h
  | tail _ hstep ih =>
    rw [← List.append_assoc]
    exact ih.tail hstep

theorem reaches_requests (requests : List Request) (m : Machine) :
    Reaches p m [] (requests.foldl request m) := by
  induction requests generalizing m with
  | nil => exact .refl
  | cons r requests ih => exact (Reaches.single (.request m r)).trans (ih (m.request r))

theorem reaches_answerAll (halive : m.alive = true) :
    Reaches p m (m.interruptions p m.pending) (m.answerAll p) := by
  have hfold : ∀ (requests : List Request) (m : Machine), m.alive = true →
      Reaches p { m with pending := requests } (m.interruptions p requests)
        (requests.foldl (answer p) { m with pending := [] }) := by
    intro requests
    induction requests with
    | nil => exact fun m _ => .refl
    | cons r requests ih =>
      intro m halive
      have hrest := ih (answer p m r) ((alive_answer p m r).trans halive)
      rw [← answer_pending, ← answer_pending] at hrest
      have hstep : Step p { m with pending := r :: requests } (m.interruption p r)
          (answer p { m with pending := requests } r) := .answer halive rfl
      exact (Reaches.single hstep).trans hrest
  exact hfold m.pending m halive

theorem reaches_cycle (halive : m.alive = true) : Reaches p m (m.transfers p) (m.cycle p) :=
  (reaches_answerAll halive).tail (.advance ((alive_answerAll p m).trans halive))

/-- A run with a schedule of requests is a history. -/
theorem reaches_runWith (p : Program) (schedule : List (List Request)) (n : Nat) (m : Machine) :
    Reaches p m (transfersWith p schedule n m) (runWith p schedule n m) := by
  induction n generalizing schedule m with
  | zero => exact .refl
  | succ n ih =>
    rw [runWith, transfersWith]
    split
    next halive =>
      have hrequests := reaches_requests (p := p) (schedule.headD []) m
      have hready : ((schedule.headD []).foldl request m).alive = true := by
        rw [foldl_request]
        exact halive
      exact (hrequests.trans (reaches_cycle hready)).trans (ih schedule.tail _)
    next => exact .refl

end

end Machine

namespace World

variable {p : Program}

theorem reaches_send (names : List Nat) (w : World) :
    Machine.Reaches p w.machine [] (names.foldl send w).machine := by
  induction names generalizing w with
  | nil => exact .refl
  | cons name names ih =>
    have hsend : Machine.Reaches p w.machine [] (w.send name).machine := by
      unfold send
      split
      next => exact .refl
      next =>
        split
        next => exact .refl
        next r _ => exact .single (.request w.machine r)
    exact hsend.trans (ih (w.send name))

/-- What a machine with its senders goes through is a history. -/
theorem reaches_runFor (p : Program) (n : Nat) (w : World) :
    ∃ t, Machine.Reaches p w.machine t (w.runFor p n).machine := by
  induction n generalizing w with
  | zero => exact ⟨[], .refl⟩
  | succ n ih =>
    rw [runFor]
    split
    next halive =>
      have hsend := reaches_send (p := p) (List.range w.senders.size) w
      have hready : w.sendAll.machine.alive = true := by
        obtain ⟨queue, hqueue⟩ := machine_send w (List.range w.senders.size)
        rw [sendAll, hqueue]
        exact halive
      have hcycle := Machine.reaches_cycle (p := p) hready
      have hnotice : Machine.Step p (w.sendAll.machine.cycle p) [] (w.cycle p).machine := by
        rw [cycle, machine_noticeAll]
        exact .notice _
      obtain ⟨t', hrest⟩ := ih (w.cycle p)
      exact ⟨_, ((hsend.trans hcycle).tail hnotice).trans hrest⟩
    next => exact ⟨[], .refl⟩

end World

end RegisterMachine

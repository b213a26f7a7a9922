import Mathlib
import RegisterMachine.Machine.Delivery
import RegisterMachine.Proofs.Delivery.Poll

namespace RegisterMachine

/-- A request as it was queued. -/
structure Ticket where
  request : Request
  /-- The number of calls that its sender had finished before. -/
  call : Nat
deriving DecidableEq

/-- The ticket belongs to a call of a sender. -/
def Ticket.isOf (name call : Nat) (t : Ticket) : Bool :=
  t.request.sender = some name ∧ t.call = call

/-- A machine with its senders, and the record of what happened. -/
structure Session where
  world : World
  /-- The machine has not been dropped. -/
  isOpen : Bool
  /-- The requests in the order in which they were queued. -/
  sent : List Ticket
  /-- The requests in the order in which they were taken off the queue. -/
  served : List Poll

namespace Session

/-- The session at its start. -/
def start (w : World) : Session := ⟨w, true, [], []⟩

/-- One step of a session: of a sender, of the machine, or of an answer on its way. -/
inductive Step (p : Program) : Session → Session → Prop
  /-- A sender queues a request. -/
  | send {w : World} {sent : List Ticket} {served : List Poll} {name : Nat}
      {s : Sender} {r : Request} : w.senders[name]? = some s → s.request? name w.now = some r →
      Step p ⟨w, true, sent, served⟩
        ⟨w.send name, true, sent ++ [⟨r, s.verdicts.length⟩], served⟩
  /-- The machine takes a request off the queue and answers it. -/
  | poll {w : World} {sent : List Ticket} {served : List Poll} {r : Request}
      {rest : List Request} : w.machine.pending = r :: rest →
      Step p ⟨w, true, sent, served⟩
        ⟨{ w with machine := { w.machine with pending := rest }.answer p r }, true, sent,
          served ++ [⟨r, w.machine, { w.machine with pending := rest }.answer p r⟩]⟩
  /-- The machine carries out an instruction, which may queue requests that nobody waits for. -/
  | advance {w : World} {sent : List Ticket} {served : List Poll} {m : Machine} :
      w.machine.alive = true → w.machine.resetConstants.advance p = m →
      Step p ⟨w, true, sent, served⟩
        ⟨{ w with machine := m }, true,
          sent ++ (m.pending.drop w.machine.pending.length).map (⟨·, 0⟩), served⟩
  /-- The machine is started. -/
  | start {w : World} {sent : List Ticket} {served : List Poll} :
      Step p ⟨w, true, sent, served⟩ ⟨{ w with machine := w.machine.start }, true, sent, served⟩
  /-- Time passes. -/
  | wait {w : World} {isOpen : Bool} {sent : List Ticket} {served : List Poll} :
      Step p ⟨w, isOpen, sent, served⟩ ⟨{ w with now := w.now + 1 }, isOpen, sent, served⟩
  /-- Something that the machine told arrives, whatever is on its way besides. -/
  | notice {w : World} {isOpen : Bool} {sent : List Ticket} {served : List Poll}
      {front back : List Event} {e : Event} : w.machine.events = front ++ e :: back →
      Step p ⟨w, isOpen, sent, served⟩
        ⟨{ w with machine := { w.machine with events := front ++ back } }.notice e, isOpen, sent,
          served⟩
  /-- The machine is dropped, and with it the queue. -/
  | drop {w : World} {sent : List Ticket} {served : List Poll} :
      Step p ⟨w, true, sent, served⟩
        ⟨{ w with machine := { w.machine with pending := [] } }, false, sent, served⟩
  /-- A sender to which no answer is on its way learns that the machine is gone. -/
  | close {w : World} {sent : List Ticket} {served : List Poll} {name : Nat}
      {s : Sender} : w.senders[name]? = some s →
      (∀ r accepted, .answered r accepted ∈ w.machine.events → r.sender ≠ some name) →
      Step p ⟨w, false, sent, served⟩
        ⟨{ w with senders := w.senders.set! name s.close }, false, sent, served⟩

/-- Any number of steps. -/
def Reaches (p : Program) : Session → Session → Prop :=
  Relation.ReflTransGen (Step p)

end Session

end RegisterMachine

import RegisterMachine.Machine.Run

namespace RegisterMachine

/-- An interrupt to be asked for. -/
structure Errand where
  id : UInt64
  /-- How often it is asked for again after a rejection. -/
  retries : Nat
deriving DecidableEq, Repr

/-- Somebody who asks for interrupts. -/
structure Sender where
  /-- The errands to do, the current one at the front. -/
  errands : List Errand
  /-- How often the interrupt of the current errand may still be asked for again. -/
  left : Nat
  /-- The time between a rejection and the next request. -/
  pause : Nat
  /-- The time at which the next request is made. -/
  wake : Nat
  /-- A request has been made and not been answered yet. -/
  waiting : Bool
  /-- Whether the interrupts of the errands done were let in. -/
  verdicts : List Bool
  /-- The sender is a timer of the program, which complains when its interrupt is not let in. -/
  isTimer : Bool := false
deriving DecidableEq, Repr

namespace Sender

/-- A sender that starts its errands at a time. -/
def ofErrands (errands : List Errand) (pause wake : Nat) : Sender where
  errands := errands
  left := (errands.head?.map (·.retries)).getD 0
  pause := pause
  wake := wake
  waiting := false
  verdicts := []

/-- The request that the sender makes at a time, if it makes one. -/
def request? (s : Sender) (name now : Nat) : Option Request :=
  if s.waiting = false ∧ s.wake ≤ now then
    s.errands.head?.map fun e => ⟨e.id, some name⟩
  else none

/-- The sender after it has made a request. -/
def wait (s : Sender) : Sender := { s with waiting := true }

/-- The sender after the end of its current errand. -/
def finish (s : Sender) (accepted : Bool) : Sender :=
  let rest := s.errands.drop 1
  { s with
    errands := rest
    left := (rest.head?.map (·.retries)).getD 0
    waiting := false
    verdicts := s.verdicts ++ [accepted] }

/-- The sender after an answer. -/
def answered (s : Sender) (now : Nat) (accepted : Bool) : Sender :=
  if accepted then s.finish true
  else if s.left = 0 then s.finish false
  else { s with left := s.left - 1, wake := now + s.pause, waiting := false }

/-- What the sender has to say about an answer. -/
def complaint? (s : Sender) (r : Request) (accepted : Bool) : Option Log.Entry :=
  if s.isTimer ∧ s.left = 0 ∧ accepted = false then
    some ⟨.warn, some "timer", "interrupt " ++ toString r.id.toNat ++ " was not delivered"⟩
  else none

/-- The sender after the machine is gone: nothing more is let in. -/
def close (s : Sender) : Sender :=
  { s with
    errands := []
    waiting := false
    verdicts := s.verdicts ++ s.errands.map fun _ => false }

end Sender

/-- A machine together with those who ask for interrupts. -/
structure World where
  machine : Machine
  senders : Array Sender
  /-- The cycles so far. -/
  now : Nat
  /-- Everything that the machine told, the latest first. -/
  history : List Event

namespace World

/-- The number of cycles that count as a millisecond. -/
def cyclesPerMillisecond : Nat := 10000

/-- How often a timer asks again. -/
def timerRetries : Nat := 10

/-- The milliseconds between two requests of a timer. -/
def timerPause : Nat := 1

/-- A machine on its own. -/
def ofMachine (m : Machine) : World := ⟨m, #[], 0, []⟩

/-- The sender of a timer that has been set just now. -/
def timerSender (now : Nat) (milliseconds id : UInt64) : Sender :=
  { Sender.ofErrands [⟨id, timerRetries⟩] (timerPause * cyclesPerMillisecond)
      (now + milliseconds.toNat * cyclesPerMillisecond) with isTimer := true }

def addSender (w : World) (s : Sender) : World :=
  { w with senders := w.senders.push s }

/-- Lets the sender with a number make its request, if it is time for one. -/
def send (w : World) (name : Nat) : World :=
  match w.senders[name]? with
  | none => w
  | some s =>
    match s.request? name w.now with
    | none => w
    | some r =>
      { w with machine := w.machine.request r, senders := w.senders.set! name s.wait }

def sendAll (w : World) : World :=
  (List.range w.senders.size).foldl send w

/-- What an event means for the senders: an answer goes to the one who waits for it, and a timer
becomes a sender. -/
def notice (w : World) (e : Event) : World :=
  let w := { w with history := e :: w.history }
  match e with
  | .answered r accepted =>
    match r.sender.bind fun name => w.senders[name]?.map (name, ·) with
    | some (name, s) =>
      let complaint := (s.complaint? r accepted).toList.map Event.logged
      { w with
        senders := w.senders.set! name (s.answered w.now accepted)
        history := complaint ++ w.history }
    | none => w
  | .alarm ms id => w.addSender (timerSender w.now ms id)
  | _ => w

/-- Takes notice of everything that the machine has told since. -/
def noticeAll (w : World) : World :=
  w.machine.events.reverse.foldl notice { w with machine := { w.machine with events := [] } }

/-- One cycle of the machine, with what goes on around it. -/
def cycle (p : Program) (w : World) : World :=
  let w := w.sendAll
  { w with machine := w.machine.cycle p, now := w.now + 1 }.noticeAll

/-- The world after so many cycles, fewer if the machine halts before. -/
def runFor (p : Program) : Nat → World → World
  | 0, w => w
  | n + 1, w => if w.machine.alive then runFor p n (w.cycle p) else w

/-- A number of cycles that no machine gets through. -/
def endless : Nat := 0x4000000000000000

/-- The world after the machine has been started and has halted. -/
def run (p : Program) (w : World) : World :=
  runFor p endless { w with machine := w.machine.start }

/-- The world after the machine is gone. -/
def close (w : World) : World :=
  { w with senders := w.senders.map Sender.close }

end World

end RegisterMachine

import RegisterMachine.Machine.Exec

namespace RegisterMachine.Machine

/-- Answers a request for an interrupt. While interrupts are kept out, it is rejected. Otherwise the
handler is entered as by a call; without a handler nothing happens, but the request counts as
accepted. -/
def answer (p : Program) (m : Machine) (r : Request) : Machine :=
  if m.interruptsEnabled then
    match p.handler? r.id with
    | some address => ((m.enter address).count .accepted).emit (.answered r true)
    | none =>
      (m.log .error ("no handler for interrupt " ++ toString r.id.toNat)).emit (.answered r true)
  else (m.count .rejected).emit (.answered r false)

/-- Answers all requests for interrupts, the oldest first. -/
def answerAll (p : Program) (m : Machine) : Machine :=
  m.pending.foldl (answer p) { m with pending := [] }

/-- Stops the program because of a fault at an instruction. -/
def kill (m : Machine) (ip : UInt64) (f : Fault) : Machine :=
  let m := m.log .error ("execution killed at ip " ++ toString ip.toNat ++ ": " ++ f.message)
  { (m.setRegister .result 1).emit (.killed f ip) with alive := false, fault := some f }

/-- The machine with the constant registers restored. -/
def resetConstants (m : Machine) : Machine :=
  { m with registers := m.registers.resetConstants }

/-- Carries out the instruction at the instruction pointer. -/
def advance (p : Program) (m : Machine) : Machine :=
  let ip := m.registers.ip
  match p.fetch? ip with
  | none => m.kill ip (.noInstruction ip p.instructions.size)
  | some i =>
    let m := (m.jump (ip + 1)).count .executed
    match m.exec p ip i with
    | .ok m => m
    | .error f => m.kill ip f

def cycle (p : Program) (m : Machine) : Machine :=
  advance p (m.answerAll p).resetConstants

/-- Lets a machine run. -/
def start (m : Machine) : Machine :=
  { m with alive := true }

/-- The machine after so many cycles, fewer if it halts before. -/
def runFor (p : Program) : Nat → Machine → Machine
  | 0, m => m
  | n + 1, m => if m.alive then runFor p n (m.cycle p) else m

end RegisterMachine.Machine

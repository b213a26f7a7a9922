import RegisterMachine.Image.Basic
import RegisterMachine.Log
import RegisterMachine.Machine.Memory
import RegisterMachine.Machine.Registers
import RegisterMachine.Machine.Stack
import RegisterMachine.Machine.Stats

namespace RegisterMachine

/-- What a program asks the outside world for. -/
inductive Demand where
  /-- So many bytes of memory. -/
  | memory (size : Nat)
  /-- A thread in which an alarm can wait. -/
  | thread
  /-- Somebody who takes the text that the program writes. -/
  | output (text : String)
deriving DecidableEq, Repr

namespace Demand

/-- What the outside world says to a demand. -/
inductive Reply where
  | granted
  /-- Nothing is granted, but so many characters of a text may have been taken. -/
  | refused (taken : Nat)
deriving DecidableEq, Repr

/-- The outside world as it is on an ordinary day: there is as much memory as can be addressed, and
everything else is granted. -/
def ordinary : Demand → Reply
  | memory size => if Slot.addressable size then .granted else .refused 0
  | _ => .granted

end Demand

/-- What the outside world says to a demand, by the number of times that the program has turned to it
before. -/
abbrev Environment := Nat → Demand → Demand.Reply

/-- What a system function sees of a machine and of the outside world. -/
structure View where
  ints : Vector UInt64 10
  floats : Vector UInt64 10
  op : UInt64
  memory : Memory
  /-- What the outside world says to a demand. -/
  replies : Demand → Demand.Reply := fun _ => .granted

/-- The contents of the integer register with a number. -/
def View.int (v : View) (n : Nat) : UInt64 :=
  v.ints[n]?.getD 0

/-- What a system function can do besides changing its view. -/
inductive Effect where
  /-- Writes text to the output of the program. -/
  | print (text : String)
  /-- Asks for an interrupt and does not wait for the answer. -/
  | raise (id : UInt64)
  /-- Lets an interrupt be asked for later. -/
  | alarm (milliseconds id : UInt64)
  /-- Shows the view to the outside world. -/
  | snapshot

/-- A system function. -/
structure Syscall where
  name : String
  /-- The view after a call, and what else the call does. -/
  call : View → View × List Effect

/-- A request for an interrupt. -/
structure Request where
  id : UInt64
  /-- Who waits for the answer, if anyone does. -/
  sender : Option Nat := none
deriving DecidableEq, Repr

/-- What the outside world learns of a run. -/
inductive Event where
  /-- The program writes to its output. -/
  | printed (text : String)
  /-- The machine tells about the run. -/
  | traced (text : String)
  | logged (entry : Log.Entry)
  /-- A request was answered. -/
  | answered (request : Request) (accepted : Bool)
  /-- An interrupt is to be asked for later. -/
  | alarm (milliseconds id : UInt64)
  | snapshot (view : View)
  /-- The program was stopped at the instruction with the index. -/
  | killed (fault : Fault) (ip : UInt64)

/-- What does not change during a run. -/
structure Program where
  instructions : Array Instruction
  handlers : List Image.Handler
  debug : DebugLevel
  /-- The system functions by number. -/
  syscalls : Array Syscall
  environment : Environment := fun _ => Demand.ordinary

namespace Program

/-- The program of an image, with the given system functions and outside world. -/
def ofImage (image : Image) (syscalls : Array Syscall)
    (environment : Environment := fun _ => Demand.ordinary) : Program where
  instructions := image.instructions.toArray
  handlers := image.interrupts
  debug := image.debug
  syscalls := syscalls
  environment := environment

/-- The instruction with an index. -/
def fetch? (p : Program) (ip : UInt64) : Option Instruction :=
  p.instructions[ip.toNat]?

/-- The index of the first instruction of the handler of an interrupt. -/
def handler? (p : Program) (id : UInt64) : Option UInt64 :=
  Image.Handler.address? p.handlers id

end Program

/-- What changes during a run. -/
structure Machine where
  registers : Registers
  stack : Stack
  memory : Memory
  /-- The indices to go back to, the one of the last call at the front. -/
  callStack : List UInt64
  interruptsEnabled : Bool
  /-- The requests that have not been answered yet, the oldest first. -/
  pending : List Request
  /-- The program is running. -/
  alive : Bool
  /-- The fault that stopped the program last; it is never forgotten. -/
  fault : Option Fault
  stats : Stats
  /-- How often the machine has turned to the outside world, to reserve a slot or in a system function. -/
  asked : Nat := 0
  /-- What the outside world has not taken notice of yet, the latest first. -/
  events : List Event

namespace Machine

/-- The number of bytes on the stack if nothing else is said. -/
def defaultStackSize : Nat := 0x100000

/-- A machine that is to run an image. The constants, if there are any, lie in the first slot. -/
def ofImage (image : Image) (stackSize : Nat) : Machine where
  registers := { Registers.initial with ip := image.entry }
  stack := Stack.empty stackSize
  memory := if image.pool = [] then Memory.empty else (Memory.empty.insert (Slot.ofBytes image.pool)).2
  callStack := []
  interruptsEnabled := false
  pending := []
  alive := false
  fault := none
  stats := Stats.add {} .loaded (UInt64.ofNat image.instructions.length)
  asked := 0
  events := []

/-- The machine after one more event. -/
def emit (m : Machine) (e : Event) : Machine :=
  { m with events := e :: m.events }

/-- The machine after a message of its own. -/
def log (m : Machine) (level : Log.Level) (message : String) : Machine :=
  m.emit (.logged ⟨level, some "vm", message⟩)

/-- The machine after a line about the run. -/
def trace (m : Machine) (line : String) : Machine :=
  m.emit (.traced (line ++ "\n"))

/-- The machine with one of its counters advanced by one. -/
def count (m : Machine) (c : Counter) : Machine :=
  { m with stats := m.stats.add c 1 }

/-- The machine with new contents of a register. -/
def setRegister (m : Machine) (r : Register) (v : UInt64) : Machine :=
  { m with registers := m.registers.set r v }

/-- The machine with the outcome of an operation that can fail. -/
def setSuccess (m : Machine) (success : Bool) : Machine :=
  m.setRegister .op (if success then 1 else 0)

/-- The machine with one more request that waits for an answer. -/
def request (m : Machine) (r : Request) : Machine :=
  { m with pending := m.pending ++ [r] }

/-- The machine after it has turned to the outside world once more. -/
def ask (m : Machine) : Machine :=
  { m with asked := m.asked + 1 }

/-- The outside world has so many bytes for the machine. -/
def reserves (p : Program) (m : Machine) (size : Nat) : Bool :=
  p.environment m.asked (.memory size) = .granted

/-- What the outside world sees of the machine. -/
def view (m : Machine) : View where
  ints := m.registers.ints
  floats := m.registers.floats
  op := m.registers.op
  memory := m.memory

/-- What system functions see of the machine and of the outside world. -/
def viewIn (p : Program) (m : Machine) : View :=
  { m.view with replies := p.environment m.asked }

/-- The machine after a system function has changed what it sees. -/
def setView (m : Machine) (v : View) : Machine :=
  { m with
    registers := { m.registers with ints := v.ints, floats := v.floats, op := v.op }
    memory := v.memory }

/-- The exit code: what the first integer register holds. -/
def exitCode (m : Machine) : UInt64 :=
  m.registers.get .result

/-- What a run comes to: the exit code, or the fault that stopped this or an earlier run. -/
def outcome (m : Machine) : Except Fault UInt64 :=
  match m.fault with
  | some f => .error f
  | none => .ok m.exitCode

end Machine

end RegisterMachine

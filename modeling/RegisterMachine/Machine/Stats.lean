namespace RegisterMachine

inductive Counter where
  /-- Instructions of the program. -/
  | loaded
  /-- Instructions begun. -/
  | executed
  /-- Requests for an interrupt that entered its handler. -/
  | accepted
  /-- Requests for an interrupt while interrupts were kept out. -/
  | rejected
  /-- Calls of system functions that are there. -/
  | dispatched
  /-- Slots handed out to the program. -/
  | allocated
deriving DecidableEq, Repr

namespace Counter

/-- All counters, in the order in which they are shown. -/
def all : List Counter := [loaded, executed, accepted, rejected, dispatched, allocated]

/-- The name shown for a counter. -/
def name : Counter → String
  | loaded => "Instructions loaded"
  | executed => "Instructions executed"
  | accepted => "Interrupts accepted"
  | rejected => "Interrupts rejected"
  | dispatched => "Syscalls dispatched"
  | allocated => "Slots allocated"

end Counter

/-- The counters of a machine. -/
structure Stats where
  loaded : UInt64 := 0
  executed : UInt64 := 0
  accepted : UInt64 := 0
  rejected : UInt64 := 0
  dispatched : UInt64 := 0
  allocated : UInt64 := 0
deriving DecidableEq, Repr

namespace Stats

/-- The sum of two counts, but at most the greatest one. -/
def saturatingAdd (a b : UInt64) : UInt64 :=
  UInt64.ofNat (min (a.toNat + b.toNat) (UInt64.size - 1))

def get (s : Stats) : Counter → UInt64
  | .loaded => s.loaded
  | .executed => s.executed
  | .accepted => s.accepted
  | .rejected => s.rejected
  | .dispatched => s.dispatched
  | .allocated => s.allocated

/-- The counters with one of them advanced. -/
def add (s : Stats) (c : Counter) (n : UInt64) : Stats :=
  match c with
  | .loaded => { s with loaded := saturatingAdd s.loaded n }
  | .executed => { s with executed := saturatingAdd s.executed n }
  | .accepted => { s with accepted := saturatingAdd s.accepted n }
  | .rejected => { s with rejected := saturatingAdd s.rejected n }
  | .dispatched => { s with dispatched := saturatingAdd s.dispatched n }
  | .allocated => { s with allocated := saturatingAdd s.allocated n }

/-- All counters by name, in the order in which they are shown. -/
def toList (s : Stats) : List (String × UInt64) :=
  Counter.all.map fun c => (c.name, s.get c)

end Stats

end RegisterMachine

namespace RegisterMachine

/-- Why a program was stopped. -/
inductive Fault where
  /-- There is no instruction at the index. -/
  | noInstruction (ip : UInt64) (count : Nat)
  | divideByZero
  /-- A return without a call. -/
  | emptyCallStack
  /-- A push that the stack has no room for. -/
  | stackFull (width capacity : Nat)
  /-- A pop of more bytes than are on the stack. -/
  | stackShort (width available : Nat)
deriving DecidableEq, Repr

namespace Fault

/-- The number of the fault for the world outside the machine. -/
def code : Fault → Nat
  | noInstruction .. => 1
  | divideByZero => 2
  | emptyCallStack => 3
  | stackFull .. => 4
  | stackShort .. => 5

/-- The text shown for the fault. -/
def message : Fault → String
  | noInstruction ip count =>
    "instruction pointer " ++ toString ip.toNat ++ " outside program of " ++ toString count
      ++ " instructions"
  | divideByZero => "division by zero"
  | emptyCallStack => "return with empty call stack"
  | stackFull width capacity =>
    "push of " ++ toString width ++ " bytes exceeds stack capacity of " ++ toString capacity
  | stackShort width available =>
    "pop of " ++ toString width ++ " bytes with " ++ toString available ++ " bytes on the stack"

end Fault

end RegisterMachine

import RegisterMachine.Opcode
import RegisterMachine.Register

namespace RegisterMachine

inductive Operand where
  | register (r : Register)
  | target (index : UInt64)
  | immediate (value : UInt64)
  | number (n : UInt64)
deriving DecidableEq, Repr

namespace Operand

/-- The kind of position that the operand fills. -/
def kind : Operand → OperandKind
  | register _ => .register
  | target _ => .target
  | immediate _ => .immediate
  | number _ => .number

/-- The text of an operand in a listing: numbers are decimal, and a value carries its mark. -/
def text : Operand → String
  | register r => r.name
  | target n | number n => toString n.toNat
  | immediate n => "@" ++ toString n.toNat

end Operand

inductive Instruction where
  /-- Does nothing. -/
  | nop
  /-- Halts; the exit code is the first integer register. -/
  | exit
  /-- Jumps if the comparison of two integer values holds. -/
  | branch (c : Comparison) (lhs rhs : Register) (target : UInt64)
  /-- Jumps. -/
  | jump (target : UInt64)
  /-- Jumps, and keeps the index of the next instruction on the call stack. -/
  | call (target : UInt64)
  /-- Jumps to the index that was kept last. -/
  | ret
  /-- Loads a value. -/
  | move (dest : Register) (value : UInt64)
  /-- Integer arithmetic. -/
  | arith (op : IntegerOp) (dest lhs rhs : Register)
  /-- Float arithmetic. -/
  | floatArith (op : FloatOp) (dest lhs rhs : Register)
  /-- Bit by bit operations and shifts. -/
  | bitwise (op : BitOp) (dest lhs rhs : Register)
  /-- Flips every bit. -/
  | complement (dest src : Register)
  /-- Jumps if the comparison of two float values holds. -/
  | floatBranch (c : Comparison) (lhs rhs : Register) (target : UInt64)
  /-- Halts with exit code one unless the registers are equal. -/
  | assertEqual (expected actual : Register)
  /-- Halts with exit code one if the registers are equal. -/
  | assertDistinct (expected actual : Register)
  /-- Pushes the low bytes of a register. -/
  | push (w : Width) (src : Register)
  /-- Pops bytes into a register. -/
  | pop (w : Width) (dest : Register)
  /-- Reserves a memory slot. -/
  | alloc (dest size : Register)
  /-- Gives a memory slot back. -/
  | free (slot : Register)
  /-- Writes the low bytes of a register to a slot. -/
  | store (w : Width) (slot offset src : Register)
  /-- Reads bytes of a slot into a register. -/
  | load (w : Width) (slot offset dest : Register)
  /-- Calls the system function with the given number. -/
  | syscall (id : UInt64)
  /-- Writes a trace of the registers, marked with a number. -/
  | debug (id : UInt64)
  /-- Lets interrupts in. -/
  | enableInterrupts
  /-- Keeps interrupts out. -/
  | disableInterrupts
deriving DecidableEq, Repr

namespace Instruction

/-- The operation of an instruction. -/
def opcode : Instruction → Opcode
  | nop => .nop
  | exit => .exit
  | branch c .. => .branch c
  | jump _ => .jump
  | call _ => .call
  | ret => .ret
  | move .. => .move
  | arith op .. => .arith op
  | floatArith op .. => .floatArith op
  | bitwise op .. => .bitwise op
  | complement .. => .complement
  | floatBranch c .. => .floatBranch c
  | assertEqual .. => .assertEqual
  | assertDistinct .. => .assertDistinct
  | push w _ => .push w
  | pop w _ => .pop w
  | alloc .. => .alloc
  | free _ => .free
  | store w .. => .store w
  | load w .. => .load w
  | syscall _ => .syscall
  | debug _ => .debug
  | enableInterrupts => .enableInterrupts
  | disableInterrupts => .disableInterrupts

/-- The operands of an instruction, in the order in which they are written. -/
def operands : Instruction → List Operand
  | nop | exit | ret | enableInterrupts | disableInterrupts => []
  | branch _ lhs rhs target | floatBranch _ lhs rhs target =>
    [.register lhs, .register rhs, .target target]
  | jump target | call target => [.target target]
  | move dest value => [.register dest, .immediate value]
  | arith _ dest lhs rhs | floatArith _ dest lhs rhs | bitwise _ dest lhs rhs =>
    [.register dest, .register lhs, .register rhs]
  | complement dest src => [.register dest, .register src]
  | assertEqual expected actual | assertDistinct expected actual =>
    [.register expected, .register actual]
  | push _ src => [.register src]
  | pop _ dest => [.register dest]
  | alloc dest size => [.register dest, .register size]
  | free slot => [.register slot]
  | store _ slot offset src => [.register slot, .register offset, .register src]
  | load _ slot offset dest => [.register slot, .register offset, .register dest]
  | syscall n | debug n => [.number n]

/-- The instruction with the given opcode and operands, if the operands are of the right kinds. -/
def ofOperands? : Opcode → List Operand → Option Instruction
  | .nop, [] => some nop
  | .exit, [] => some exit
  | .branch c, [.register lhs, .register rhs, .target t] => some (branch c lhs rhs t)
  | .jump, [.target t] => some (jump t)
  | .call, [.target t] => some (call t)
  | .ret, [] => some ret
  | .move, [.register dest, .immediate v] => some (move dest v)
  | .arith op, [.register dest, .register lhs, .register rhs] => some (arith op dest lhs rhs)
  | .floatArith op, [.register dest, .register lhs, .register rhs] =>
    some (floatArith op dest lhs rhs)
  | .bitwise op, [.register dest, .register lhs, .register rhs] => some (bitwise op dest lhs rhs)
  | .complement, [.register dest, .register src] => some (complement dest src)
  | .floatBranch c, [.register lhs, .register rhs, .target t] => some (floatBranch c lhs rhs t)
  | .assertEqual, [.register expected, .register actual] => some (assertEqual expected actual)
  | .assertDistinct, [.register expected, .register actual] =>
    some (assertDistinct expected actual)
  | .push w, [.register src] => some (push w src)
  | .pop w, [.register dest] => some (pop w dest)
  | .alloc, [.register dest, .register size] => some (alloc dest size)
  | .free, [.register slot] => some (free slot)
  | .store w, [.register slot, .register offset, .register src] => some (store w slot offset src)
  | .load w, [.register slot, .register offset, .register dest] => some (load w slot offset dest)
  | .syscall, [.number n] => some (syscall n)
  | .debug, [.number n] => some (debug n)
  | .enableInterrupts, [] => some enableInterrupts
  | .disableInterrupts, [] => some disableInterrupts
  | _, _ => none

/-- The line of a listing: the mnemonic and the operands, separated by single blanks. -/
def text (i : Instruction) : String :=
  " ".intercalate (i.opcode.mnemonic :: i.operands.map Operand.text)

/-- The number of bytes of the encoded instruction. -/
def size (i : Instruction) : Nat :=
  i.opcode.size

theorem ofOperands?_operands (i : Instruction) : ofOperands? i.opcode i.operands = some i := by
  cases i <;> rfl

theorem map_kind_operands (i : Instruction) : i.operands.map Operand.kind = i.opcode.operandKinds := by
  cases i <;> rfl

end Instruction

end RegisterMachine

import RegisterMachine.Width

namespace RegisterMachine

/-- The conditions of the conditional branches. -/
inductive Comparison where
  | less
  | greater
  | equal
deriving DecidableEq, Repr

inductive IntegerOp where
  | add
  | sub
  | div
  | mul
deriving DecidableEq, Repr

inductive FloatOp where
  | add
  | sub
  | div
  | mul
deriving DecidableEq, Repr

/-- Operations on the bits of two registers. -/
inductive BitOp where
  | shiftLeft
  | shiftRight
  | and
  | or
  | xor
deriving DecidableEq, Repr

/-- What an operand position holds. -/
inductive OperandKind where
  /-- A register. -/
  | register
  /-- The index of an instruction. -/
  | target
  /-- A 64-bit value. -/
  | immediate
  /-- The number of a system call or of a debug mark. -/
  | number
deriving DecidableEq, Repr

/-- The number of bytes of an operand in the image. -/
def OperandKind.size : OperandKind → Nat
  | .register => 1
  | .target | .immediate | .number => 8

/-- The operation of an instruction, without its operands. -/
inductive Opcode where
  | nop
  | exit
  | branch (c : Comparison)
  | jump
  | call
  | ret
  | move
  | arith (op : IntegerOp)
  | floatArith (op : FloatOp)
  | bitwise (op : BitOp)
  | complement
  | floatBranch (c : Comparison)
  | assertEqual
  | assertDistinct
  | push (w : Width)
  | pop (w : Width)
  | alloc
  | free
  | store (w : Width)
  | load (w : Width)
  | syscall
  | debug
  | enableInterrupts
  | disableInterrupts
deriving DecidableEq, Repr

namespace Opcode

/-- Every opcode, by ascending byte. -/
def all : List Opcode :=
  [nop, exit, branch .less, branch .greater, branch .equal, jump, call, ret, move,
    arith .add, arith .sub, arith .div, arith .mul,
    floatArith .add, floatArith .sub, floatArith .div, floatArith .mul,
    bitwise .shiftLeft, bitwise .shiftRight, bitwise .and, bitwise .or, bitwise .xor, complement,
    floatBranch .less, floatBranch .greater, floatBranch .equal, assertEqual, assertDistinct,
    push .word, push .double, push .quad, pop .word, pop .double, pop .quad, alloc, free,
    store .word, store .double, store .quad, load .word, load .double, load .quad,
    syscall, debug, enableInterrupts, disableInterrupts,
    push .half, pop .half, store .half, load .half]

/-- The byte in front of an encoded instruction: the position in the table. -/
def byte (op : Opcode) : UInt8 :=
  UInt8.ofNat (all.idxOf op)

/-- The opcode with the given byte. -/
def ofByte? (b : UInt8) : Option Opcode :=
  all[b.toNat]?

/-- The word that stands for the opcode in assembly text. -/
def mnemonic : Opcode → String
  | nop => "nop"
  | exit => "exit"
  | branch .less => "blt"
  | branch .greater => "bgt"
  | branch .equal => "beq"
  | jump => "jmp"
  | call => "call"
  | ret => "ret"
  | move => "mov"
  | arith .add => "add"
  | arith .sub => "sub"
  | arith .div => "div"
  | arith .mul => "mul"
  | floatArith .add => "addf"
  | floatArith .sub => "subf"
  | floatArith .div => "divf"
  | floatArith .mul => "mulf"
  | bitwise .shiftLeft => "lsh"
  | bitwise .shiftRight => "rsh"
  | bitwise .and => "and"
  | bitwise .or => "or"
  | bitwise .xor => "xor"
  | complement => "not"
  | floatBranch .less => "bltf"
  | floatBranch .greater => "bgtf"
  | floatBranch .equal => "beqf"
  | assertEqual => "aseq"
  | assertDistinct => "asne"
  | push .half => "push_hw"
  | push .word => "push_w"
  | push .double => "push_dw"
  | push .quad => "push_qw"
  | pop .half => "pop_hw"
  | pop .word => "pop_w"
  | pop .double => "pop_dw"
  | pop .quad => "pop_qw"
  | alloc => "alloc"
  | free => "free"
  | store .half => "shw"
  | store .word => "sw"
  | store .double => "sdw"
  | store .quad => "sqw"
  | load .half => "lhw"
  | load .word => "lw"
  | load .double => "ldw"
  | load .quad => "lqw"
  | syscall => "syscall"
  | debug => "debug"
  | enableInterrupts => "eirq"
  | disableInterrupts => "dirq"

/-- The opcode with the given mnemonic; case matters. -/
def ofMnemonic? (s : String) : Option Opcode :=
  all.find? (·.mnemonic == s)

/-- The kinds of the operands, in the order in which they are written. -/
def operandKinds : Opcode → List OperandKind
  | nop | exit | ret | enableInterrupts | disableInterrupts => []
  | branch _ | floatBranch _ => [.register, .register, .target]
  | jump | call => [.target]
  | move => [.register, .immediate]
  | arith _ | floatArith _ | bitwise _ => [.register, .register, .register]
  | complement | assertEqual | assertDistinct | alloc => [.register, .register]
  | push _ | pop _ | free => [.register]
  | store _ | load _ => [.register, .register, .register]
  | syscall | debug => [.number]

def arity (op : Opcode) : Nat :=
  op.operandKinds.length

/-- The number of operand bytes in the image. -/
def operandBytes (op : Opcode) : Nat :=
  op.operandKinds.foldr (fun kind n => kind.size + n) 0

/-- The number of bytes of an encoded instruction, opcode included. -/
def size (op : Opcode) : Nat :=
  1 + op.operandBytes

theorem mem_all (op : Opcode) : op ∈ all := by
  cases op with
  | branch c | floatBranch c => cases c <;> decide
  | arith o | floatArith o | bitwise o => cases o <;> decide
  | push w | pop w | store w | load w => cases w <;> decide
  | _ => decide

theorem ofByte?_byte (op : Opcode) : ofByte? op.byte = some op := by
  have h : ∀ op ∈ all, ofByte? op.byte = some op := by decide
  exact h op (mem_all op)

theorem ofMnemonic?_mnemonic (op : Opcode) : ofMnemonic? op.mnemonic = some op := by
  have h : ∀ op ∈ all, ofMnemonic? op.mnemonic = some op := by decide +kernel
  exact h op (mem_all op)

end Opcode

end RegisterMachine

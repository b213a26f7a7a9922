import RegisterMachine.Assembly.Declarations

namespace RegisterMachine.Assembly

/-- What names in operands stand for. -/
structure Scope where
  outline : Outline
  declarations : Declarations

namespace Scope

/-- The number of bytes of an address. -/
def addressSize : Nat := 8

/-- The index of the instruction behind a label. -/
def target (s : Scope) (name : String) : Except Cause UInt64 :=
  match s.outline.label? name with
  | some index => .ok (UInt64.ofNat index)
  | none => .error (.labelUnknown name)

/-- The index of a label, or the place of a constant in the pool. -/
def address (s : Scope) (name : String) : Except Cause UInt64 :=
  match s.outline.label? name, s.declarations.address? name with
  | some index, _ => .ok (UInt64.ofNat index)
  | none, some address => .ok (UInt64.ofNat address)
  | none, none => .error (.nameUnknown name)

/-- The number of bytes of an address for a label, or those of a constant. -/
def size (s : Scope) (name : String) : Except Cause UInt64 :=
  match s.outline.label? name, s.declarations.size? name with
  | some _, _ => .ok (UInt64.ofNat addressSize)
  | none, some size => .ok (UInt64.ofNat size)
  | none, none => .error (.nameUnknown name)

/-- The value of an operand behind its mark. -/
def value (s : Scope) (token : String) : Except Cause UInt64 :=
  match token.toList with
  | '@' :: digits =>
    match Numeral.quad? digits with
    | some n => .ok n
    | none => .error (.valueRange token)
  | '&' :: name => s.address (String.ofList name)
  | '#' :: name => s.size (String.ofList name)
  | _ => .error (.unmarkedValue token)

/-- The number of a system call or a debug mark. -/
def number (token : String) : Except Cause UInt64 :=
  let digits :=
    match token.toList with
    | '@' :: digits => digits
    | digits => digits
  match Numeral.index? digits with
  | some n => .ok n
  | none => .error (.numberRange token)

/-- The register of a name. -/
def register (token : String) : Except Cause Register :=
  match Register.ofName? token with
  | some r => .ok r
  | none => .error (.notRegister token)

/-- The operand that a token stands for at a position of the given kind. -/
def operand (s : Scope) (kind : OperandKind) (token : String) : Except Cause Operand :=
  match kind with
  | .register => .register <$> register token
  | .target => .target <$> s.target token
  | .immediate => .immediate <$> s.value token
  | .number => .number <$> number token

/-- The operands that tokens stand for, one after the other. -/
def operands (s : Scope) : List OperandKind → List String → Except Cause (List Operand)
  | kind :: kinds, token :: tokens => do
    let operand ← s.operand kind token
    let operands ← s.operands kinds tokens
    pure (operand :: operands)
  | _, _ => .ok []

/-- The instruction of a line of code. -/
def instruction (s : Scope) (l : CodeLine) : Except Cause Instruction :=
  let mismatch : Cause := .operandCount l.opcode.mnemonic l.opcode.arity l.operands.length
  if l.operands.length = l.opcode.arity then do
    let operands ← s.operands l.opcode.operandKinds l.operands
    match Instruction.ofOperands? l.opcode operands with
    | some i => pure i
    | none => throw mismatch
  else .error mismatch

end Scope

end RegisterMachine.Assembly

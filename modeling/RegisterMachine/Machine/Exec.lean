import RegisterMachine.Machine.State

namespace RegisterMachine

/-- The comparison of two integers. -/
def Comparison.holds (c : Comparison) (a b : UInt64) : Bool :=
  match c with
  | .less => a.toInt64 < b.toInt64
  | .greater => b.toInt64 < a.toInt64
  | .equal => a == b

/-- The comparison of two doubles. -/
def Comparison.holdsForDoubles (c : Comparison) (a b : Double) : Bool :=
  match c with
  | .less => a.lt b
  | .greater => b.lt a
  | .equal => a.numEq b

/-- The result of an integer operation, modulo `2 ^ 64`; quotients are cut off toward zero. -/
def IntegerOp.eval (op : IntegerOp) (a b : Int64) : Except Fault Int64 :=
  match op with
  | .add => .ok (a + b)
  | .sub => .ok (a - b)
  | .mul => .ok (a * b)
  | .div => if b = 0 then .error .divideByZero else .ok (a / b)

/-- The result of a float operation. -/
def FloatOp.eval (op : FloatOp) (a b : Double) : Except Fault Double :=
  match op with
  | .add => .ok (a.add b)
  | .sub => .ok (a.sub b)
  | .mul => .ok (a.mul b)
  | .div => if b.isZero then .error .divideByZero else .ok (a.div b)

/-- The result of a bit operation; shifts go by the amount modulo 64. -/
def BitOp.eval (op : BitOp) (a b : UInt64) : UInt64 :=
  match op with
  | .shiftLeft => a <<< b
  | .shiftRight => a >>> b
  | .and => a &&& b
  | .or => a ||| b
  | .xor => a ^^^ b

namespace Machine

/-- The machine about to go on at an index. -/
def jump (m : Machine) (target : UInt64) : Machine :=
  m.setRegister .ip target

/-- The machine about to go on at an index, if a condition holds. -/
def jumpIf (m : Machine) (condition : Bool) (target : UInt64) : Machine :=
  if condition then m.jump target else m

/-- The machine about to go on at an index from which it is to come back. -/
def enter (m : Machine) (target : UInt64) : Machine :=
  { m with callStack := m.registers.ip :: m.callStack }.jump target

/-- The machine about to go on where it was before the last call. -/
def leave (m : Machine) : Except Fault Machine :=
  match m.callStack with
  | ip :: rest => .ok ({ m with callStack := rest }.jump ip)
  | [] => .error .emptyCallStack

/-- Halts the machine with exit code one and a warning, unless the assertion holds. -/
def assert (m : Machine) (ip : UInt64) (op : Opcode) (holds : Bool) (expected actual : Register) :
    Machine :=
  let shown (r : Register) := r.name ++ " = " ++ toString (m.registers.get r).toNat
  if holds then m
  else
    let m := m.log .warn (op.mnemonic ++ " failed at ip " ++ toString ip.toNat ++ ": "
      ++ shown expected ++ ", " ++ shown actual)
    { m.setRegister .result 1 with alive := false }

/-- Pushes the low bytes of a register. -/
def push (m : Machine) (w : Width) (src : Register) : Except Fault Machine := do
  let stack ← m.stack.push w (m.registers.get src)
  return { m with stack }.setRegister .sp (UInt64.ofNat stack.size)

/-- Pops bytes into a register. -/
def pop (m : Machine) (w : Width) (dest : Register) : Except Fault Machine := do
  let (v, stack) ← m.stack.pop w
  return ({ m with stack }.setRegister .sp (UInt64.ofNat stack.size)).setRegister dest v

/-- Reserves a slot of the size in a register, if the outside world has the memory for it. -/
def alloc (p : Program) (m : Machine) (dest size : Register) : Machine :=
  match m.memory.alloc? (m.registers.get size) (m.reserves p) with
  | some (id, memory) => (({ m.ask with memory }.setRegister dest id).setSuccess true).count .allocated
  | none => m.ask.setSuccess false

/-- Gives back the slot in a register. -/
def free (m : Machine) (slot : Register) : Machine :=
  match m.memory.free? (m.registers.get slot) with
  | some memory => { m with memory }.setSuccess true
  | none => m.setSuccess false

/-- Writes the low bytes of a register to a slot. -/
def store (m : Machine) (w : Width) (slot offset src : Register) : Machine :=
  let rs := m.registers
  match m.memory.write? (rs.get slot) (rs.get offset) w (rs.get src) with
  | some memory => { m with memory }.setSuccess true
  | none => m.setSuccess false

/-- Reads bytes of a slot into a register. -/
def load (m : Machine) (w : Width) (slot offset dest : Register) : Machine :=
  match m.memory.read? (m.registers.get slot) (m.registers.get offset) w with
  | some v => (m.setRegister dest v).setSuccess true
  | none => m.setSuccess false

/-- The machine after an effect of a system function. -/
def perform (m : Machine) (e : Effect) : Machine :=
  match e with
  | .print text => m.emit (.printed text)
  | .raise id => m.request ⟨id, none⟩
  | .alarm ms id => m.emit (.alarm ms id)
  | .snapshot => m.emit (.snapshot m.view)

/-- The line of the trace about a call of a system function. -/
def syscallLine (id : UInt64) (name : String) (ip : UInt64) : String :=
  "SYSCALL " ++ toString id.toNat ++ " " ++ name ++ " @ ip = " ++ toString ip.toNat

/-- Calls the system function with a number, if it is there. -/
def syscall (p : Program) (ip : UInt64) (m : Machine) (id : UInt64) : Machine :=
  match p.syscalls[id.toNat]? with
  | none => m.setSuccess false
  | some f =>
    let m := if p.debug.atLeast .minimal then m.trace (syscallLine id f.name ip) else m
    let (v, effects) := f.call (m.viewIn p)
    ((effects.foldl perform (m.setView v)).count .dispatched).ask

/-- A line about a register and its contents. -/
def registerLine (name value : String) : String :=
  "  " ++ name ++ " | " ++ value

/-- The lines that a debug mark leaves in the trace. -/
def debugLines (level : DebugLevel) (ip : UInt64) (rs : Registers) (id : UInt64) : List String :=
  let unsigned (v : UInt64) := toString v.toNat
  let row := [("x0", rs.x0), ("x1", rs.x1), ("ip", ip), ("sp", rs.sp), ("fp", rs.fp), ("op", rs.op)]
  ["DEBUG INS:" ++ unsigned id]
    ++ (if level.atLeast .minimal then [registerLine "ip" (unsigned ip)] else [])
    ++ (if level.atLeast .extreme then
        (List.finRange 10).map (fun i =>
          registerLine (Register.int i).name (toString (rs.getInt (.int i)).toInt))
        ++ (List.finRange 10).map (fun i =>
          registerLine (Register.float i).name (rs.getDouble (.float i)).text)
      else [])
    ++ if level.atLeast .moderate then
        [String.join (row.map fun (name, v) => registerLine name (unsigned v))]
      else []

/-- The machine after the instruction at the index `ip`. -/
def exec (p : Program) (ip : UInt64) (m : Machine) (i : Instruction) : Except Fault Machine :=
  let rs := m.registers
  match i with
  | .nop =>
    .ok (if p.debug.atLeast .minimal then m.trace ("NOP @ ip = " ++ toString ip.toNat) else m)
  | .exit =>
    .ok { m.log .debug ("exit @ ip = " ++ toString ip.toNat ++ " with code "
      ++ toString m.exitCode.toNat) with alive := false }
  | .branch c lhs rhs target => .ok (m.jumpIf (c.holds (rs.get lhs) (rs.get rhs)) target)
  | .jump target => .ok (m.jump target)
  | .call target => .ok (m.enter target)
  | .ret => m.leave
  | .move dest v => .ok (m.setRegister dest v)
  | .arith op dest lhs rhs => do
    let v ← op.eval (rs.getInt lhs) (rs.getInt rhs)
    return m.setRegister dest v.toUInt64
  | .floatArith op dest lhs rhs => do
    let v ← op.eval (rs.getDouble lhs) (rs.getDouble rhs)
    return m.setRegister dest v.bits
  | .bitwise op dest lhs rhs => .ok (m.setRegister dest (op.eval (rs.get lhs) (rs.get rhs)))
  | .complement dest src => .ok (m.setRegister dest (~~~rs.get src))
  | .floatBranch c lhs rhs target =>
    .ok (m.jumpIf (c.holdsForDoubles (rs.getDouble lhs) (rs.getDouble rhs)) target)
  | .assertEqual expected actual =>
    .ok (m.assert ip .assertEqual (rs.get expected == rs.get actual) expected actual)
  | .assertDistinct expected actual =>
    .ok (m.assert ip .assertDistinct (rs.get expected != rs.get actual) expected actual)
  | .push w src => m.push w src
  | .pop w dest => m.pop w dest
  | .alloc dest size => .ok (m.alloc p dest size)
  | .free slot => .ok (m.free slot)
  | .store w slot offset src => .ok (m.store w slot offset src)
  | .load w slot offset dest => .ok (m.load w slot offset dest)
  | .syscall id => .ok (m.syscall p ip id)
  | .debug id => .ok ((debugLines p.debug ip rs id).foldl trace m)
  | .enableInterrupts => .ok { m with interruptsEnabled := true }
  | .disableInterrupts => .ok { m with interruptsEnabled := false }

end Machine

end RegisterMachine

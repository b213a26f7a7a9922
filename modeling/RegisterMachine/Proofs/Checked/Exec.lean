import Mathlib
import RegisterMachine.Machine.Run
import RegisterMachine.Machine.Syscall
import RegisterMachine.Proofs.Checked.Memory
import RegisterMachine.Proofs.Machine.Confinement

namespace RegisterMachine

namespace Checked

namespace Registers

/-- The position of a register in the bank of ten whose ids start with this one. -/
def index (first : Nat) (r : Register) : Option (Option Nat) :=
  let id := r.id.toNat
  if first ≤ id ∧ id < first + 10 then some <$> sub id first else some none

def get (rs : Registers) : Register → Option UInt64
  | .x0 => some rs.x0
  | .x1 => some rs.x1
  | .ip => some rs.ip
  | .sp => some rs.sp
  | .fp => some rs.fp
  | .op => some rs.op
  | other => do
    let integer ← index 0x10 other
    let float ← index 0x20 other
    match integer, float with
    | some i, _ => entry rs.ints.toList i
    | none, some i => entry rs.floats.toList i
    | none, none => return 0

/-- A bank of ten registers with new contents at a position. -/
def setEntry (bank : Vector UInt64 10) (i : Nat) (v : UInt64) : Option (Vector UInt64 10) :=
  if h : i < 10 then some (bank.set i v h) else none

/-- The registers with new contents of one of them. -/
def set (rs : Registers) (r : Register) (v : UInt64) : Option Registers :=
  match r with
  | .x0 => some { rs with x0 := v }
  | .x1 => some { rs with x1 := v }
  | .ip => some { rs with ip := v }
  | .sp => some { rs with sp := v }
  | .fp => some { rs with fp := v }
  | .op => some { rs with op := v }
  | other => do
    let integer ← index 0x10 other
    let float ← index 0x20 other
    match integer, float with
    | some i, _ => return { rs with ints := ← setEntry rs.ints i v }
    | none, some i => return { rs with floats := ← setEntry rs.floats i v }
    | none, none => return rs

def getInt (rs : Registers) (r : Register) : Option Int64 := do
  return (← get rs r).toInt64

def getDouble (rs : Registers) (r : Register) : Option Double := do
  return ⟨← get rs r⟩

end Registers

namespace Syscall

open RegisterMachine.Syscall (PrintType withSuccess write)

def int (v : View) (n : Nat) : Option UInt64 :=
  entry v.ints.toList n

def timer (v : View) : Option (View × List Effect) := do
  let delay ← int v 0
  let id ← int v 1
  if delay = 0 then return (withSuccess v false, [])
  match v.replies .thread with
  | .granted => return (withSuccess v true, [.alarm delay id])
  | .refused _ => return (withSuccess v false, [])

/-- The text of the value that is to be printed. -/
def rendered (v : View) : Option (Option String) := do
  match v.memory.slot? (← int v 0) with
  | none => return none
  | some s =>
    let offset ← int v 1
    let length ← int v 2
    match ← Slot.bytes s offset.toNat length.toNat with
    | none => return none
    | some bytes =>
      match PrintType.ofNumber? (← int v 3) with
      | none => return none
      | some t =>
        match t.width? with
        | some w => return t.render <$> (← Slot.read s offset w)
        | none => return some (Text.ofBytesLossy bytes)

def print (v : View) : Option (View × List Effect) := do
  match ← rendered v with
  | none => return (withSuccess v false, [])
  | some text =>
    let newline ← int v 4
    return write v (if newline = 0 then text else text ++ "\n")

/-- The functions that every machine has, by name. -/
def builtin : List (String × (View → Option (View × List Effect))) :=
  [("timer", timer), ("print", print)]

end Syscall

namespace Machine

def ofImage (image : Image) (stackSize : Nat) : Option Machine := do
  let memory ←
    if image.pool = [] then pure Memory.empty
    else Prod.snd <$> Memory.insert .empty (Slot.ofBytes image.pool)
  return { RegisterMachine.Machine.ofImage image stackSize with memory }

def setRegister (m : Machine) (r : Register) (v : UInt64) : Option Machine := do
  return { m with registers := ← Registers.set m.registers r v }

/-- Halts the machine with exit code one and a warning, unless the assertion holds. -/
def assert (m : Machine) (ip : UInt64) (op : Opcode) (holds : Bool) (expected actual : Register) :
    Option Machine :=
  let shown (r : Register) := do
    return r.name ++ " = " ++ toString (← Registers.get m.registers r).toNat
  if holds then some m
  else do
    let warned := m.log .warn (op.mnemonic ++ " failed at ip " ++ toString ip.toNat ++ ": "
      ++ (← shown expected) ++ ", " ++ (← shown actual))
    return { ← setRegister warned .result 1 with alive := false }

def integer (op : IntegerOp) (a b : Int64) : Option (Except Fault Int64) :=
  match op with
  | .div => if b = 0 then some (.error .divideByZero) else .ok <$> div a b
  | _ => some (op.eval a b)

def push (m : Machine) (w : Width) (src : Register) : Option (Except Fault Machine) := do
  match ← Stack.push m.stack w (← Registers.get m.registers src) with
  | .error f => return .error f
  | .ok stack => return .ok ({ m with stack }.setRegister .sp (UInt64.ofNat stack.size))

def pop (m : Machine) (w : Width) (dest : Register) : Option (Except Fault Machine) := do
  match ← Stack.pop m.stack w with
  | .error f => return .error f
  | .ok (v, stack) =>
    return .ok (← setRegister ({ m with stack }.setRegister .sp (UInt64.ofNat stack.size)) dest v)

/-- Reserves a slot of the size in a register. -/
def alloc (p : Program) (m : Machine) (dest size : Register) : Option Machine := do
  match ← Memory.alloc m.memory (← Registers.get m.registers size) (m.reserves p) with
  | some (id, memory) =>
    return ((← setRegister { m.ask with memory } dest id).setSuccess true).count .allocated
  | none => return m.ask.setSuccess false

def free (m : Machine) (slot : Register) : Option Machine := do
  match m.memory.free? (← Registers.get m.registers slot) with
  | some memory => return { m with memory }.setSuccess true
  | none => return m.setSuccess false

/-- Writes the low bytes of a register to a slot. -/
def store (m : Machine) (w : Width) (slot offset src : Register) : Option Machine := do
  let place ← Registers.get m.registers offset
  let v ← Registers.get m.registers src
  match ← Memory.write m.memory (← Registers.get m.registers slot) place w v with
  | some memory => return { m with memory }.setSuccess true
  | none => return m.setSuccess false

def load (m : Machine) (w : Width) (slot offset dest : Register) : Option Machine := do
  let place ← Registers.get m.registers offset
  match ← Memory.read m.memory (← Registers.get m.registers slot) place w with
  | some v => return (← setRegister m dest v).setSuccess true
  | none => return m.setSuccess false

/-- Calls the system function with a number, if it is there. -/
def syscall (p : Program) (ip : UInt64) (m : Machine) (id : UInt64) : Option Machine :=
  match Syscall.builtin[id.toNat]? with
  | none => some (m.setSuccess false)
  | some (name, call) => do
    let m := if p.debug.atLeast .minimal then m.trace (Machine.syscallLine id name ip) else m
    let (v, effects) ← call (m.viewIn p)
    return ((effects.foldl Machine.perform (m.setView v)).count .dispatched).ask

/-- The machine after the instruction at the index `ip`. -/
def exec (p : Program) (ip : UInt64) (m : Machine) (i : Instruction) : Option (Except Fault Machine) := do
  let rs := m.registers
  match i with
  | .branch c lhs rhs target =>
    return .ok (m.jumpIf (c.holds (← Registers.get rs lhs) (← Registers.get rs rhs)) target)
  | .move dest v => return .ok (← setRegister m dest v)
  | .arith op dest lhs rhs =>
    match ← integer op (← Registers.getInt rs lhs) (← Registers.getInt rs rhs) with
    | .error f => return .error f
    | .ok v => return .ok (← setRegister m dest v.toUInt64)
  | .floatArith op dest lhs rhs =>
    match op.eval (← Registers.getDouble rs lhs) (← Registers.getDouble rs rhs) with
    | .error f => return .error f
    | .ok v => return .ok (← setRegister m dest v.bits)
  | .bitwise op dest lhs rhs =>
    return .ok (← setRegister m dest (op.eval (← Registers.get rs lhs) (← Registers.get rs rhs)))
  | .complement dest src => return .ok (← setRegister m dest (~~~(← Registers.get rs src)))
  | .floatBranch c lhs rhs target =>
    let holds := c.holdsForDoubles (← Registers.getDouble rs lhs) (← Registers.getDouble rs rhs)
    return .ok (m.jumpIf holds target)
  | .assertEqual expected actual =>
    let holds := (← Registers.get rs expected) == (← Registers.get rs actual)
    return .ok (← assert m ip .assertEqual holds expected actual)
  | .assertDistinct expected actual =>
    let holds := (← Registers.get rs expected) != (← Registers.get rs actual)
    return .ok (← assert m ip .assertDistinct holds expected actual)
  | .push w src => push m w src
  | .pop w dest => pop m w dest
  | .alloc dest size => return .ok (← alloc p m dest size)
  | .free slot => return .ok (← free m slot)
  | .store w slot offset src => return .ok (← store m w slot offset src)
  | .load w slot offset dest => return .ok (← load m w slot offset dest)
  | .syscall id => return .ok (← syscall p ip m id)
  -- The others have no operation that may be undefined.
  | .nop | .exit | .jump _ | .call _ | .ret | .debug _ | .enableInterrupts | .disableInterrupts =>
    return m.exec p ip i

def advance (p : Program) (m : Machine) : Option Machine := do
  let ip := m.registers.ip
  match p.fetch? ip with
  | none => return m.kill ip (.noInstruction ip p.instructions.size)
  | some i =>
    let next ← add ip.toNat 1
    let behind := (m.jump (UInt64.ofNat next)).count .executed
    match ← exec p ip behind i with
    | .ok m => return m
    | .error f => return behind.kill ip f

end Machine

namespace Registers

theorem index_eq (r : Register) : index 0x10 r = some (r.integerIndex?.map Fin.val) ∧
    index 0x20 r = some (r.floatIndex?.map Fin.val) := by
  cases r with
  | int i | float i => revert i; decide
  | _ => decide

theorem get_eq (rs : Registers) (r : Register) : get rs r = some (rs.get r) := by
  cases r with
  | int i | float i =>
    simp only [get, index_eq, Register.integerIndex?, Register.floatIndex?, Option.map_some,
      Option.map_none, Option.bind_eq_bind, Option.bind_some]
    rw [entry, List.getElem?_eq_getElem (by simp)]
    simp [RegisterMachine.Registers.get]
  | _ => rfl

theorem set_eq (rs : Registers) (r : Register) (v : UInt64) : set rs r v = some (rs.set r v) := by
  cases r with
  | int i | float i =>
    simp only [set, index_eq, Register.integerIndex?, Register.floatIndex?, Option.map_some,
      Option.map_none, Option.bind_eq_bind, Option.bind_some, setEntry, dif_pos i.isLt]
    rfl
  | _ => rfl

theorem getInt_eq (rs : Registers) (r : Register) : getInt rs r = some (rs.getInt r) := by
  rw [getInt, get_eq]
  rfl

theorem getDouble_eq (rs : Registers) (r : Register) : getDouble rs r = some (rs.getDouble r) := by
  rw [getDouble, get_eq]
  rfl

end Registers

namespace Syscall

variable {v : View}

theorem int_eq {n : Nat} (h : n < 10) : int v n = some (v.int n) := by
  rw [int, entry, View.int, Vector.getElem?_toList, Vector.getElem?_eq_getElem h]
  rfl

theorem timer_eq (v : View) : timer v = some (RegisterMachine.Syscall.timer.call v) := by
  have hdelay := int_eq (v := v) (n := 0) (by decide)
  have hid := int_eq (v := v) (n := 1) (by decide)
  simp only [timer, hdelay, hid, Option.bind_eq_bind, Option.bind_some, RegisterMachine.Syscall.timer]
  split
  next => rfl
  next => cases v.replies .thread <;> rfl

theorem rendered_eq (h : v.memory.Intact) : rendered v =
    some (RegisterMachine.Syscall.rendered? v.memory (v.int 0) (v.int 1) (v.int 2) (v.int 3)) := by
  have hslot := int_eq (v := v) (n := 0) (by decide)
  have hoffset := int_eq (v := v) (n := 1) (by decide)
  have hlength := int_eq (v := v) (n := 2) (by decide)
  have htype := int_eq (v := v) (n := 3) (by decide)
  rw [rendered, RegisterMachine.Syscall.rendered?]
  simp only [hslot, hoffset, hlength, htype, Option.bind_eq_bind, Option.bind_some]
  cases hs : v.memory.slot? (v.int 0) with
  | none => rfl
  | some s =>
    have hfits := h.size_slot? hs
    simp only [Slot.bytes_eq hfits, Slot.read_eq hfits, Option.bind_some]
    cases s.slice? (v.int 1).toNat (v.int 2).toNat with
    | none => rfl
    | some bytes =>
      cases RegisterMachine.Syscall.PrintType.ofNumber? (v.int 3) with
      | none => rfl
      | some t => cases ht : t.width? <;> simp only [Option.bind_some, ht] <;> rfl

theorem print_eq (h : v.memory.Intact) : print v = some (RegisterMachine.Syscall.print.call v) := by
  have hnewline := int_eq (v := v) (n := 4) (by decide)
  simp only [print, rendered_eq h, hnewline, Option.bind_eq_bind, Option.bind_some,
    RegisterMachine.Syscall.print]
  cases RegisterMachine.Syscall.rendered? v.memory (v.int 0) (v.int 1) (v.int 2) (v.int 3) <;> rfl

/-- A number is that of a function here as well as there, or of none. -/
theorem builtin_cases (n : Nat) :
    RegisterMachine.Syscall.builtin[n]? = none ∧ builtin[n]? = none ∨
    ∃ f call, RegisterMachine.Syscall.builtin[n]? = some f ∧ builtin[n]? = some (f.name, call) ∧
      ∀ v : View, v.memory.Intact → call v = some (f.call v) := by
  rcases n with _ | _ | n
  · exact .inr ⟨_, timer, rfl, rfl, fun v _ => timer_eq v⟩
  · exact .inr ⟨_, print, rfl, rfl, fun v h => print_eq h⟩
  · exact .inl ⟨rfl, rfl⟩

end Syscall

namespace Machine

variable {p : Program} {m : Machine}

theorem ofImage_eq (image : Image) (stackSize : Nat) :
    ofImage image stackSize = some (RegisterMachine.Machine.ofImage image stackSize) := by
  rw [ofImage, RegisterMachine.Machine.ofImage]
  split
  next => rfl
  next => rw [Memory.insert_eq RegisterMachine.Memory.Intact.empty.accounted]; rfl

theorem setRegister_eq (m : Machine) (r : Register) (v : UInt64) :
    setRegister m r v = some (m.setRegister r v) := by
  rw [setRegister, Registers.set_eq]
  rfl

theorem assert_eq (m : Machine) (ip : UInt64) (op : Opcode) (holds : Bool) (expected actual : Register) :
    assert m ip op holds expected actual = some (m.assert ip op holds expected actual) := by
  cases holds with
  | true => rfl
  | false =>
    simp only [assert, Registers.get_eq, setRegister_eq, Option.bind_eq_bind, Option.bind_some,
      Option.pure_def, Bool.false_eq_true, if_false]
    rfl

theorem integer_eq (op : IntegerOp) (a b : Int64) : integer op a b = some (op.eval a b) := by
  cases op with
  | div =>
    rw [integer, IntegerOp.eval, div]
    split <;> rfl
  | _ => rfl

theorem push_eq (h : m.stack.size < Slot.limit) (w : Width) (src : Register) :
    push m w src = some (m.push w src) := by
  simp only [push, Registers.get_eq, Stack.push_eq h, Option.bind_eq_bind, Option.bind_some,
    RegisterMachine.Machine.push]
  cases m.stack.push w (m.registers.get src) <;> rfl

theorem pop_eq (m : Machine) (w : Width) (dest : Register) : pop m w dest = some (m.pop w dest) := by
  simp only [pop, Stack.pop_eq, setRegister_eq, Option.bind_eq_bind, Option.bind_some,
    RegisterMachine.Machine.pop]
  cases m.stack.pop w <;> rfl

theorem alloc_eq (p : Program) (h : m.memory.Intact) (dest size : Register) :
    alloc p m dest size = some (m.alloc p dest size) := by
  simp only [alloc, Registers.get_eq, Memory.alloc_eq h.accounted, setRegister_eq, Option.bind_eq_bind,
    Option.bind_some, RegisterMachine.Machine.alloc]
  cases m.memory.alloc? (m.registers.get size) (m.reserves p) <;> rfl

theorem free_eq (m : Machine) (slot : Register) : free m slot = some (m.free slot) := by
  simp only [free, Registers.get_eq, Option.bind_eq_bind, Option.bind_some, RegisterMachine.Machine.free]
  cases m.memory.free? (m.registers.get slot) <;> rfl

theorem store_eq (h : m.memory.Intact) (w : Width) (slot offset src : Register) :
    store m w slot offset src = some (m.store w slot offset src) := by
  simp only [store, Registers.get_eq, Memory.write_eq h, Option.bind_eq_bind, Option.bind_some,
    RegisterMachine.Machine.store]
  cases m.memory.write? (m.registers.get slot) (m.registers.get offset) w (m.registers.get src) <;> rfl

theorem load_eq (h : m.memory.Intact) (w : Width) (slot offset dest : Register) :
    load m w slot offset dest = some (m.load w slot offset dest) := by
  simp only [load, Registers.get_eq, Memory.read_eq h, setRegister_eq, Option.bind_eq_bind,
    Option.bind_some, RegisterMachine.Machine.load]
  cases m.memory.read? (m.registers.get slot) (m.registers.get offset) w <;> rfl

theorem syscall_eq (hp : p.syscalls = RegisterMachine.Syscall.builtin) (h : m.memory.Intact)
    (ip id : UInt64) : syscall p ip m id = some (m.syscall p ip id) := by
  rw [syscall, RegisterMachine.Machine.syscall, hp]
  rcases Syscall.builtin_cases id.toNat with ⟨hnone, hnone'⟩ | ⟨f, call, hsome, hsome', hcall⟩
  · rw [hnone, hnone']
  · rw [hsome, hsome']
    dsimp only
    split
    next =>
      rw [hcall _ h]
      rfl
    next =>
      rw [hcall _ h]
      rfl

theorem exec_eq (hp : p.syscalls = RegisterMachine.Syscall.builtin) (hstack : m.stack.size < Slot.limit)
    (hmemory : m.memory.Intact) (ip : UInt64) (i : Instruction) :
    exec p ip m i = some (m.exec p ip i) := by
  cases i with
  | push w src => exact push_eq hstack w src
  | pop w dest => exact pop_eq m w dest
  | branch | bitwise | complement | move | floatBranch =>
    simp only [exec, Registers.get_eq, Registers.getDouble_eq, setRegister_eq, Option.bind_eq_bind,
      Option.bind_some, Option.pure_def]
    rfl
  | arith op dest lhs rhs =>
    simp only [exec, Registers.getInt_eq, setRegister_eq, integer_eq, Option.bind_eq_bind,
      Option.bind_some, RegisterMachine.Machine.exec]
    cases op.eval (m.registers.getInt lhs) (m.registers.getInt rhs) <;> rfl
  | floatArith op dest lhs rhs =>
    simp only [exec, Registers.getDouble_eq, setRegister_eq, Option.bind_eq_bind,
      Option.bind_some, RegisterMachine.Machine.exec]
    cases op.eval (m.registers.getDouble lhs) (m.registers.getDouble rhs) <;> rfl
  | assertEqual | assertDistinct =>
    simp only [exec, Registers.get_eq, assert_eq, Option.bind_eq_bind, Option.bind_some, Option.pure_def]
    rfl
  | alloc | free | store | load =>
    simp only [exec, alloc_eq p hmemory, free_eq, store_eq hmemory, load_eq hmemory,
      Option.bind_eq_bind, Option.bind_some, Option.pure_def]
    rfl
  | syscall id =>
    simp only [exec, syscall_eq hp hmemory, Option.bind_eq_bind, Option.bind_some, Option.pure_def]
    rfl
  | _ => rfl

theorem advance_eq (hp : p.syscalls = RegisterMachine.Syscall.builtin)
    (hsize : p.instructions.size < Slot.limit) (hstack : m.stack.size < Slot.limit)
    (hmemory : m.memory.Intact) : advance p m = some (m.advance p) := by
  have hwords : Slot.limit < UInt64.size := by decide
  rw [advance, RegisterMachine.Machine.advance]
  cases hfetch : p.fetch? m.registers.ip with
  | none => rfl
  | some i =>
    have hlt := Program.lt_of_fetch? hfetch
    have hnext : UInt64.ofNat (m.registers.ip.toNat + 1) = m.registers.ip + 1 := by
      rw [UInt64.ofNat_add, UInt64.ofNat_toNat]
      rfl
    dsimp only
    rw [add_of_lt (by omega)]
    simp only [Option.bind_eq_bind, Option.bind_some, hnext]
    have hexec := exec_eq (m := (m.jump (m.registers.ip + 1)).count .executed) hp hstack hmemory
      m.registers.ip i
    rw [hexec, Option.bind_some]
    cases ((m.jump (m.registers.ip + 1)).count .executed).exec p m.registers.ip i <;> rfl

end Machine

end Checked

end RegisterMachine

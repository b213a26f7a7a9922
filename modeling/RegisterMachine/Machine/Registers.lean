import RegisterMachine.Double
import RegisterMachine.Register

namespace RegisterMachine

structure Registers where
  x0 : UInt64
  x1 : UInt64
  ip : UInt64
  sp : UInt64
  fp : UInt64
  ints : Vector UInt64 10
  floats : Vector UInt64 10
  op : UInt64
deriving DecidableEq

namespace Registers

def get (rs : Registers) : Register → UInt64
  | .x0 => rs.x0
  | .x1 => rs.x1
  | .ip => rs.ip
  | .sp => rs.sp
  | .fp => rs.fp
  | .int i => getElem rs.ints i.val i.isLt
  | .float i => getElem rs.floats i.val i.isLt
  | .op => rs.op

/-- The registers with new contents of one of them. -/
def set (rs : Registers) (r : Register) (v : UInt64) : Registers :=
  match r with
  | .x0 => { rs with x0 := v }
  | .x1 => { rs with x1 := v }
  | .ip => { rs with ip := v }
  | .sp => { rs with sp := v }
  | .fp => { rs with fp := v }
  | .int i => { rs with ints := rs.ints.set i v i.isLt }
  | .float i => { rs with floats := rs.floats.set i v i.isLt }
  | .op => { rs with op := v }

def getInt (rs : Registers) (r : Register) : Int64 := (rs.get r).toInt64

/-- The registers with a new integer in one of them. -/
def setInt (rs : Registers) (r : Register) (v : Int64) : Registers := rs.set r v.toUInt64

def getDouble (rs : Registers) (r : Register) : Double := ⟨rs.get r⟩

/-- The registers with a new double in one of them. -/
def setDouble (rs : Registers) (r : Register) (v : Double) : Registers := rs.set r v.bits

/-- The two constant registers are restored. -/
def resetConstants (rs : Registers) : Registers := { rs with x0 := 0, x1 := 1 }

/-- The registers before anything has been done: all zero, but for the constant one. -/
def initial : Registers where
  x0 := 0
  x1 := 1
  ip := 0
  sp := 0
  fp := 0
  ints := Vector.replicate 10 0
  floats := Vector.replicate 10 0
  op := 0

@[simp] theorem get_set_self (rs : Registers) (r : Register) (v : UInt64) :
    (rs.set r v).get r = v := by
  cases r <;> simp [get, set]

@[simp] theorem get_set_of_ne (rs : Registers) {r r' : Register} (v : UInt64) (h : r' ≠ r) :
    (rs.set r v).get r' = rs.get r' := by
  cases r <;> cases r' <;> simp_all [get, set, Fin.ext_iff, eq_comm]

end Registers

end RegisterMachine

import RegisterMachine.Double.Shortest
import RegisterMachine.Machine.State
import RegisterMachine.Text.Lossy

namespace RegisterMachine.Syscall

/-- A view with the outcome of a call. -/
def withSuccess (v : View) (success : Bool) : View :=
  { v with op := if success then 1 else 0 }

/-- Raises the interrupt in `i1` after as many milliseconds as `i0` says; not without a delay, and not
without a thread to wait in. -/
def timer : Syscall where
  name := "timer"
  call v :=
    if v.int 0 = 0 then (withSuccess v false, [])
    else
      match v.replies .thread with
      | .granted => (withSuccess v true, [.alarm (v.int 0) (v.int 1)])
      | .refused _ => (withSuccess v false, [])

/-- What a printed value is taken for. -/
inductive PrintType where
  | u8
  | i8
  | u16
  | i16
  | u32
  | i32
  | u64
  | i64
  | float
  | text
deriving DecidableEq, Repr

namespace PrintType

/-- All types, in the order of their numbers. -/
def all : List PrintType := [u8, i8, u16, i16, u32, i32, u64, i64, float, text]

/-- The type with a number. -/
def ofNumber? (n : UInt64) : Option PrintType :=
  all[n.toNat]?

/-- The number of a type. -/
def number (t : PrintType) : UInt64 :=
  UInt64.ofNat (all.idxOf t)

/-- The width in which a value of the type lies in memory, except for text, which has any length.
Values of eight bits take a word. -/
def width? : PrintType → Option Width
  | u8 | i8 | u16 | i16 => some .word
  | u32 | i32 => some .double
  | u64 | i64 | float => some .quad
  | text => none

/-- The text of a value that has been read. -/
def render (t : PrintType) (v : UInt64) : String :=
  match t with
  | u8 => toString v.toUInt8.toNat
  | i8 => toString v.toUInt8.toInt8.toInt
  | u16 => toString v.toUInt16.toNat
  | i16 => toString v.toUInt16.toInt16.toInt
  | u32 => toString v.toUInt32.toNat
  | i32 => toString v.toUInt32.toInt32.toInt
  | u64 | text => toString v.toNat
  | i64 => toString v.toInt64.toInt
  | float => (Double.mk v).text

end PrintType

/-- The text of the value at an offset of a slot. The given length has to fit into the slot, also
where the type has a width of its own. -/
def rendered? (m : Memory) (slot offset length type : UInt64) : Option String := do
  let s ← m.slot? slot
  let bytes ← s.slice? offset.toNat length.toNat
  let t ← PrintType.ofNumber? type
  match t.width? with
  | some w => t.render <$> s.read? offset w
  | none => pure (Text.ofBytesLossy bytes)

/-- A view after a text was to be written, and what was written of it. -/
def write (v : View) (text : String) : View × List Effect :=
  match v.replies (.output text) with
  | .granted => (withSuccess v true, [.print text])
  | .refused taken => (withSuccess v false, [.print (String.ofList (text.toList.take taken))])

/-- Prints the value in slot `i0` at offset `i1`, of length `i2` and of type `i3`, and ends the line
unless `i4` is zero. -/
def print : Syscall where
  name := "print"
  call v :=
    match rendered? v.memory (v.int 0) (v.int 1) (v.int 2) (v.int 3) with
    | some text => write v (if v.int 4 = 0 then text else text ++ "\n")
    | none => (withSuccess v false, [])

/-- The functions that every machine has, by number. -/
def builtin : Array Syscall := #[timer, print]

end RegisterMachine.Syscall

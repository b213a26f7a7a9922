namespace RegisterMachine

/-- The size of one access to the stack or to a memory slot. -/
inductive Width where
  | half
  | word
  | double
  | quad
deriving DecidableEq, Repr

namespace Width

/-- The number of bytes moved. -/
def bytes : Width → Nat
  | half => 1
  | word => 2
  | double => 4
  | quad => 8

/-- The width that moves the given number of bytes. -/
def ofBytes? : Nat → Option Width
  | 1 => some half
  | 2 => some word
  | 4 => some double
  | 8 => some quad
  | _ => none

theorem bytes_pos (w : Width) : 0 < w.bytes := by cases w <;> decide

theorem bytes_le (w : Width) : w.bytes ≤ 8 := by cases w <;> decide

theorem ofBytes?_bytes (w : Width) : ofBytes? w.bytes = some w := by cases w <;> rfl

end Width

end RegisterMachine

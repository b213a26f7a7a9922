import RegisterMachine.Bytes
import RegisterMachine.Machine.Fault
import RegisterMachine.Width

namespace RegisterMachine

/-- The bytes on the stack. -/
structure Stack where
  capacity : Nat
  /-- The bytes, the top one first. -/
  fromTop : List UInt8
  /-- The number of bytes on the stack. -/
  size : Nat
  size_eq : fromTop.length = size
  /-- The stack never holds more than it has room for. -/
  size_le : size ≤ capacity

namespace Stack

/-- An empty stack with room for the given number of bytes. -/
def empty (capacity : Nat) : Stack := ⟨capacity, [], 0, rfl, Nat.zero_le _⟩

/-- The bytes from the bottom to the top. -/
def toList (s : Stack) : Bytes := s.fromTop.reverse

def isEmpty (s : Stack) : Bool := s.size == 0

/-- The stack with the low bytes of a value on top. -/
def push (s : Stack) (w : Width) (v : UInt64) : Except Fault Stack :=
  if h : s.size + w.bytes ≤ s.capacity then
    .ok
      { capacity := s.capacity
        fromTop := (Bytes.ofNat w.bytes v.toNat).reverse ++ s.fromTop
        size := s.size + w.bytes
        size_eq := by simp [s.size_eq, Nat.add_comm]
        size_le := h }
  else .error (.stackFull w.bytes s.capacity)

/-- The value of the bytes on top, and the stack below them. -/
def pop (s : Stack) (w : Width) : Except Fault (UInt64 × Stack) :=
  if w.bytes ≤ s.size then
    .ok (UInt64.ofNat (Bytes.toNat (s.fromTop.take w.bytes).reverse),
      { capacity := s.capacity
        fromTop := s.fromTop.drop w.bytes
        size := s.size - w.bytes
        size_eq := by simp [s.size_eq]
        size_le := Nat.le_trans (Nat.sub_le _ _) s.size_le })
  else .error (.stackShort w.bytes s.size)

@[simp] theorem toList_empty (capacity : Nat) : (empty capacity).toList = [] := rfl

theorem length_toList (s : Stack) : s.toList.length = s.size := by
  simp [toList, s.size_eq]

theorem toList_push {s t : Stack} {w : Width} {v : UInt64} (h : s.push w v = .ok t) :
    t.toList = s.toList ++ Bytes.ofNat w.bytes v.toNat := by
  unfold push at h
  split at h
  · cases h
    simp [toList]
  · cases h

theorem toList_pop {s t : Stack} {w : Width} {v : UInt64} (h : s.pop w = .ok (v, t)) :
    t.toList = s.toList.take (s.size - w.bytes) := by
  unfold pop at h
  split at h
  · cases h
    simp [toList, List.take_reverse, s.size_eq, Nat.sub_sub_self ‹w.bytes ≤ s.size›]
  · cases h

end Stack

end RegisterMachine

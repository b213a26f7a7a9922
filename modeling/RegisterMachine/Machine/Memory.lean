import RegisterMachine.Bytes
import RegisterMachine.Width

namespace RegisterMachine

/-- The bytes of a slot. -/
structure Slot where
  bytes : Array UInt8
deriving DecidableEq

namespace Slot

/-- The number of bytes from which on no slot can be had, whoever has the memory. -/
def limit : Nat := 0x8000000000000000

/-- The next even number. -/
def roundUp (size : Nat) : Nat := size + size % 2

/-- There are so many bytes on an ordinary day: addresses of 47 bits tell them apart. -/
def addressable (size : Nat) : Bool := size < 0x800000000000

/-- The memory for a slot of the given size can be had from somebody who tells of every number of bytes
whether it can be reserved. A slot without bytes needs none. -/
def obtainable (reserves : Nat → Bool) (size : Nat) : Bool :=
  roundUp size = 0 || roundUp size < limit && reserves (roundUp size)

/-- A slot of zeros with at least the given number of bytes, if the memory for it can be had. -/
def zeros? (reserves : Nat → Bool) (size : Nat) : Option Slot :=
  if obtainable reserves size then some ⟨Array.replicate (roundUp size) 0⟩ else none

/-- A slot with the given bytes at its front. -/
def ofBytes (bs : Bytes) : Slot :=
  ⟨(bs ++ List.replicate (bs.length % 2) 0).toArray⟩

/-- The number of bytes of a slot. -/
def size (s : Slot) : Nat := s.bytes.size

/-- The bytes from an offset on, if there are as many in the slot. -/
def slice? (s : Slot) (offset length : Nat) : Option Bytes :=
  if offset + length ≤ s.size then some (s.bytes.extract offset (offset + length)).toList else none

/-- The value of the bytes at an offset. -/
def read? (s : Slot) (offset : UInt64) (w : Width) : Option UInt64 :=
  (s.slice? offset.toNat w.bytes).map fun bs => UInt64.ofNat (Bytes.toNat bs)

/-- Some bytes in the place of those from an offset on. -/
def overwrite (bytes : Array UInt8) (offset : Nat) : Bytes → Array UInt8
  | [] => bytes
  | b :: bs => overwrite (bytes.set! offset b) (offset + 1) bs

/-- The slot with the low bytes of a value at an offset. -/
def write? (s : Slot) (offset : UInt64) (w : Width) (v : UInt64) : Option Slot :=
  if offset.toNat + w.bytes ≤ s.size then
    some ⟨overwrite s.bytes offset.toNat (Bytes.ofNat w.bytes v.toNat)⟩
  else none

end Slot

/-- All slots that were ever handed out. -/
structure Memory where
  /-- The slots by handle; a handle that has been given back has none. -/
  slots : Array (Option Slot)
  /-- The handles that have been given back, the first one first. -/
  free : List Nat

namespace Memory

/-- No slot has been handed out. -/
def empty : Memory := ⟨#[], []⟩

def slot? (m : Memory) (id : UInt64) : Option Slot :=
  m.slots[id.toNat]?.join

/-- The number of slots in use. -/
def live (m : Memory) : Nat := m.slots.size - m.free.length

/-- The memory with one more slot, and the slot's handle. -/
def insert (m : Memory) (s : Slot) : UInt64 × Memory :=
  match m.free with
  | id :: rest => (UInt64.ofNat id, ⟨m.slots.set! id (some s), rest⟩)
  | [] => (UInt64.ofNat m.slots.size, ⟨m.slots.push (some s), []⟩)

/-- The memory with one more slot of zeros, and the slot's handle, if the bytes can be reserved. -/
def alloc? (m : Memory) (size : UInt64) (reserves : Nat → Bool := Slot.addressable) :
    Option (UInt64 × Memory) :=
  (Slot.zeros? reserves size.toNat).map m.insert

/-- The memory without the slot of a handle, if it has one. -/
def free? (m : Memory) (id : UInt64) : Option Memory :=
  if (m.slot? id).isSome then some ⟨m.slots.set! id.toNat none, m.free ++ [id.toNat]⟩ else none

/-- The value at an offset of a slot. -/
def read? (m : Memory) (id offset : UInt64) (w : Width) : Option UInt64 :=
  (m.slot? id).bind fun s => s.read? offset w

/-- The memory with the low bytes of a value at an offset of a slot. -/
def write? (m : Memory) (id offset : UInt64) (w : Width) (v : UInt64) : Option Memory :=
  (m.slot? id).bind fun s =>
    (s.write? offset w v).map fun s => { m with slots := m.slots.set! id.toNat (some s) }

end Memory

end RegisterMachine

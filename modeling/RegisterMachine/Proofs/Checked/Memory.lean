import Mathlib
import RegisterMachine.Proofs.Checked.Operation
import RegisterMachine.Proofs.Machine.Handles
import RegisterMachine.Proofs.Machine.Stack

namespace RegisterMachine

namespace Slot

/-- Bytes that are written take the place of as many bytes. -/
theorem toList_overwrite {bytes : Array UInt8} {offset : Nat} {bs : Bytes}
    (h : offset + bs.length ≤ bytes.size) : (overwrite bytes offset bs).toList =
      bytes.toList.take offset ++ bs ++ bytes.toList.drop (offset + bs.length) := by
  induction bs generalizing bytes offset with
  | nil => rw [overwrite, List.append_nil, List.length_nil, Nat.add_zero, List.take_append_drop]
  | cons b bs ih =>
    rw [List.length_cons] at h
    have hlt : offset < bytes.toList.length := by
      rw [Array.length_toList]
      omega
    have hset : (bytes.set! offset b).toList = bytes.toList.set offset b := by
      rw [Array.set!_eq_setIfInBounds, Array.toList_setIfInBounds]
    have hfront : (bytes.toList.set offset b).take (offset + 1) = bytes.toList.take offset ++ [b] := by
      rw [List.set_eq_take_append_cons_drop, if_pos hlt, List.append_cons]
      exact List.take_left' (by rw [List.length_append, List.length_take_of_le hlt.le]; rfl)
    have hback : (bytes.toList.set offset b).drop (offset + 1 + bs.length) =
        bytes.toList.drop (offset + 1 + bs.length) := List.drop_set_of_lt (by omega)
    rw [overwrite, ih (by rw [Array.size_set!]; omega), hset, hfront, hback, List.append_assoc _ [b]]
    rw [List.length_cons, Nat.add_right_comm, Nat.add_assoc]
    rfl

theorem size_of_zeros? {reserves : Nat → Bool} {s : Slot} {size : Nat} (h : zeros? reserves size = some s) :
    s.size < limit := by
  obtain ⟨hobtainable, hs⟩ := Option.ite_none_right_eq_some.mp h
  obtain rfl := Option.some.inj hs
  rw [obtainable, Bool.or_eq_true, Bool.and_eq_true, decide_eq_true_eq, decide_eq_true_eq] at hobtainable
  rw [Slot.size, Array.size_replicate]
  rcases hobtainable with hnone | ⟨hlt, -⟩
  · rw [hnone]
    decide
  · exact hlt

theorem size_of_write? {s s' : Slot} {offset v : UInt64} {w : Width}
    (h : s.write? offset w v = some s') : s'.size = s.size := by
  obtain ⟨-, hs⟩ := Option.ite_none_right_eq_some.mp h
  obtain rfl := Option.some.inj hs
  exact size_overwrite _ _ _

end Slot

namespace Memory

/-- The memory keeps account of its handles, and no slot has a size that cannot be had. -/
structure Intact (m : Memory) : Prop where
  accounted : m.Accounted
  size_lt : ∀ (k : Nat) (s : Slot), m.slots[k]? = some (some s) → s.size < Slot.limit

namespace Intact

variable {m m' : Memory} {s : Slot} {id : UInt64}

theorem size_slot? (h : m.Intact) (hs : m.slot? id = some s) : s.size < Slot.limit :=
  h.size_lt id.toNat s (Option.join_eq_some_iff.mp hs)

theorem empty : Memory.empty.Intact where
  accounted := Managed.empty.accounted
  size_lt := fun k s h => by simp [Memory.empty] at h

/-- An entry in the place of another one. -/
theorem set {k : Nat} {entry : Option Slot} (h : m.Intact) (hk : k < m.slots.size)
    (hentry : ∀ s, entry = some s → s.size < Slot.limit) (j : Nat) (s : Slot)
    (hs : (m.slots.set! k entry)[j]? = some (some s)) : s.size < Slot.limit := by
  rw [getElem?_set hk] at hs
  split at hs
  next => exact hentry s (Option.some.inj hs)
  next => exact h.size_lt j s hs

theorem insert (h : m.Intact) (hs : s.size < Slot.limit) : (m.insert s).2.Intact := by
  refine ⟨h.accounted.insert s, fun j s' hj => ?_⟩
  have hentry : ∀ s', some s = some s' → s'.size < Slot.limit := fun s' heq => Option.some.inj heq ▸ hs
  rcases insert_cases m s with ⟨k, rest, hfree, hinsert⟩ | ⟨-, hinsert⟩
  · rw [hinsert] at hj
    exact h.set (h.accounted.lt_size (hfree ▸ List.mem_cons_self)) hentry j s' hj
  · rw [hinsert, Array.getElem?_push] at hj
    split at hj
    next => exact hentry s' (Option.some.inj hj)
    next => exact h.size_lt j s' hj

theorem alloc {size : UInt64} {reserves : Nat → Bool} (h : m.Intact)
    (halloc : m.alloc? size reserves = some (id, m')) : m'.Intact := by
  obtain ⟨s, hzeros, hinsert⟩ := Option.map_eq_some_iff.mp halloc
  have hs := h.insert (Slot.size_of_zeros? hzeros)
  rwa [hinsert] at hs

theorem free (h : m.Intact) (hfree : m.free? id = some m') : m'.Intact := by
  refine ⟨h.accounted.free hfree, fun j s hj => ?_⟩
  obtain ⟨hlive, rfl⟩ := free?_eq_some_iff.mp hfree
  obtain ⟨s', hs'⟩ := Option.isSome_iff_exists.mp hlive
  exact h.set (lt_of_slot? hs') (fun _ heq => absurd heq (by simp)) j s hj

theorem write {offset v : UInt64} {w : Width} (h : m.Intact)
    (hwrite : m.write? id offset w v = some m') : m'.Intact := by
  refine ⟨h.accounted.write hwrite, fun j s hj => ?_⟩
  obtain ⟨s₁, s₂, hs, hs', rfl⟩ := write?_cases hwrite
  refine h.set (lt_of_slot? hs) (fun s heq => ?_) j s hj
  rw [← Option.some.inj heq, Slot.size_of_write? hs']
  exact h.size_slot? hs

end Intact

end Memory

namespace Checked

/-- The low bytes of a value, copied to a place. -/
def writeBe (place : Bytes) (w : Width) (v : UInt64) : Option Bytes := do
  let bytes := Bytes.ofNat 8 v.toNat
  copy place (← slice bytes (← sub 8 w.bytes) bytes.length)

/-- The value of some bytes, copied to the end of eight zeros. -/
def readBe (bs : Bytes) (w : Width) : Option UInt64 := do
  let zeros : Bytes := List.replicate 8 0
  let first ← sub 8 w.bytes
  let copied ← copy (← slice zeros first zeros.length) bs
  return UInt64.ofNat (Bytes.toNat ((← slice zeros 0 first) ++ copied))

namespace Stack

/-- The stack that holds these bytes, from the bottom to the top. -/
def ofBytes (capacity : Nat) (bytes : Bytes) : Option Stack :=
  if h : bytes.length ≤ capacity then
    some
      { capacity := capacity
        fromTop := bytes.reverse
        size := bytes.length
        size_eq := List.length_reverse
        size_le := h }
  else none

/-- The stack with the low bytes of a value on top. -/
def push (s : Stack) (w : Width) (v : UInt64) : Option (Except Fault Stack) := do
  let bytes := s.toList
  let stop ← add bytes.length w.bytes
  if s.capacity < stop then return .error (.stackFull w.bytes s.capacity)
  else
    let grown := bytes ++ List.replicate w.bytes 0
    let written ← writeBe (← slice grown bytes.length grown.length) w v
    let stack ← ofBytes s.capacity ((← slice grown 0 bytes.length) ++ written)
    return .ok stack

/-- The value of the bytes on top, and the stack below them. -/
def pop (s : Stack) (w : Width) : Option (Except Fault (UInt64 × Stack)) := do
  let bytes := s.toList
  if bytes.length < w.bytes then return .error (.stackShort w.bytes bytes.length)
  else
    let start ← sub bytes.length w.bytes
    let v ← readBe (← slice bytes start bytes.length) w
    let stack ← ofBytes s.capacity (← slice bytes 0 start)
    return .ok (v, stack)

end Stack

namespace Slot

/-- The offsets at which an access starts and stops, if it stops inside the slot. -/
def range (s : Slot) (offset length : Nat) : Option (Nat × Nat) :=
  match add offset length with
  | none => none
  | some stop => if stop ≤ s.size then some (offset, stop) else none

/-- The bytes from an offset on, if there are as many in the slot. -/
def bytes (s : Slot) (offset length : Nat) : Option (Option Bytes) :=
  match range s offset length with
  | none => some none
  | some (start, stop) => some <$> slice s.bytes.toList start stop

def read (s : Slot) (offset : UInt64) (w : Width) : Option (Option UInt64) :=
  match range s offset.toNat w.bytes with
  | none => some none
  | some (start, stop) => do
    let v ← readBe (← slice s.bytes.toList start stop) w
    return some v

/-- The slot with the low bytes of a value at an offset. -/
def write (s : Slot) (offset : UInt64) (w : Width) (v : UInt64) : Option (Option Slot) :=
  match range s offset.toNat w.bytes with
  | none => some none
  | some (start, stop) => do
    let bytes := s.bytes.toList
    let written ← writeBe (← slice bytes start stop) w v
    let front ← slice bytes 0 start
    let back ← slice bytes stop bytes.length
    return some ⟨(front ++ written ++ back).toArray⟩

end Slot

namespace Memory

/-- The memory with one more slot, and the slot's handle. -/
def insert (m : Memory) (s : Slot) : Option (UInt64 × Memory) :=
  match m.free with
  | id :: rest => do
    let slots ← update m.slots id (some s)
    return (UInt64.ofNat id, ⟨slots, rest⟩)
  | [] => do
    let slots := m.slots.push (some s)
    let id ← sub slots.size 1
    return (UInt64.ofNat id, ⟨slots, []⟩)

/-- The memory with one more slot of zeros, and the slot's handle. -/
def alloc (m : Memory) (size : UInt64) (reserves : Nat → Bool) : Option (Option (UInt64 × Memory)) :=
  match Slot.zeros? reserves size.toNat with
  | none => some none
  | some s => some <$> insert m s

def live (m : Memory) : Option Nat :=
  sub m.slots.size m.free.length

def read (m : Memory) (id offset : UInt64) (w : Width) : Option (Option UInt64) :=
  match m.slot? id with
  | none => some none
  | some s => Slot.read s offset w

/-- The memory with the low bytes of a value at an offset of a slot. -/
def write (m : Memory) (id offset : UInt64) (w : Width) (v : UInt64) : Option (Option Memory) :=
  match m.slot? id with
  | none => some none
  | some s => do
    match ← Slot.write s offset w v with
    | none => return none
    | some s => return some { m with slots := m.slots.set! id.toNat (some s) }

end Memory

section

variable {bs : Bytes} {w : Width} {v : UInt64}

theorem writeBe_eq (h : bs.length = w.bytes) :
    writeBe bs w v = some (Bytes.ofNat w.bytes v.toNat) := by
  have hle := w.bytes_le
  have hlow : (Bytes.ofNat 8 v.toNat).drop (8 - w.bytes) = Bytes.ofNat w.bytes v.toNat := by
    have hdrop := Bytes.drop_ofNat (8 - w.bytes) w.bytes v.toNat
    rwa [Nat.sub_add_cancel hle] at hdrop
  have hslice : slice (Bytes.ofNat 8 v.toNat) (8 - w.bytes) (Bytes.ofNat 8 v.toNat).length =
      some (Bytes.ofNat w.bytes v.toNat) := by
    rw [slice_back (by rw [Bytes.length_ofNat]; omega), hlow]
  rw [writeBe, sub_of_le hle]
  simp only [Option.bind_eq_bind, Option.bind_some, hslice]
  exact copy_of_length (by rw [h, Bytes.length_ofNat])

theorem readBe_eq (h : bs.length = w.bytes) :
    readBe bs w = some (UInt64.ofNat (Bytes.toNat bs)) := by
  have hle := w.bytes_le
  have hplace : slice (List.replicate 8 (0 : UInt8)) (8 - w.bytes) (List.replicate 8 (0 : UInt8)).length =
      some (List.replicate w.bytes 0) := by
    rw [slice_back (by rw [List.length_replicate]; omega), List.drop_replicate, Nat.sub_sub_self hle]
  have hzeros : slice (List.replicate 8 (0 : UInt8)) 0 (8 - w.bytes) =
      some (List.replicate (8 - w.bytes) 0) := by
    rw [slice_front (by rw [List.length_replicate]; omega), List.take_replicate, Nat.min_eq_left (by omega)]
  have hcopy : copy (List.replicate w.bytes 0) bs = some bs :=
    copy_of_length (by rw [List.length_replicate, h])
  rw [readBe, sub_of_le hle]
  simp only [Option.bind_eq_bind, Option.bind_some, hplace, hcopy, hzeros, Option.pure_def]
  rw [Bytes.toNat_append, Bytes.toNat_replicate_zero, Nat.zero_mul, Nat.zero_add]

end

namespace Stack

variable {s : Stack} {w : Width}

theorem ofBytes_eq {t : Stack} {bytes : Bytes} (h : t.toList = bytes) :
    ofBytes t.capacity bytes = some t := by
  obtain rfl := h
  have hle : t.toList.length ≤ t.capacity := t.length_toList ▸ t.size_le
  rw [ofBytes, dif_pos hle]
  cases t
  simp_all [RegisterMachine.Stack.toList]

theorem push_eq (h : s.size < Slot.limit) (w : Width) (v : UInt64) :
    push s w v = some (s.push w v) := by
  have hwords : Slot.limit + 8 < UInt64.size := by decide
  have hle := w.bytes_le
  have hlength := s.length_toList
  have hstop : add s.toList.length w.bytes = some (s.size + w.bytes) := by
    rw [hlength]
    exact add_of_lt (by omega)
  rw [push, hstop, Option.bind_eq_bind, Option.bind_some]
  by_cases hfull : s.capacity < s.size + w.bytes
  · have hpush : s.push w v = .error (.stackFull w.bytes s.capacity) := dif_neg (by omega)
    rw [if_pos hfull, hpush]
    rfl
  · obtain ⟨t, hpush⟩ : ∃ t, s.push w v = .ok t := ⟨_, dif_pos (by omega)⟩
    have hplace : slice (s.toList ++ List.replicate w.bytes 0) s.toList.length
        (s.toList ++ List.replicate w.bytes 0).length = some (List.replicate w.bytes 0) :=
      slice_append_right _ _
    have hwrite : writeBe (List.replicate w.bytes 0) w v = some (Bytes.ofNat w.bytes v.toNat) :=
      writeBe_eq List.length_replicate
    have hstack := ofBytes_eq (RegisterMachine.Stack.toList_push hpush)
    rw [RegisterMachine.Stack.capacity_push hpush] at hstack
    rw [if_neg hfull, hpush]
    simp only [Option.bind_eq_bind, Option.bind_some, hplace, hwrite, slice_append_left, hstack]
    rfl

theorem pop_eq (s : Stack) (w : Width) : pop s w = some (s.pop w) := by
  have hlength := s.length_toList
  rw [pop, hlength]
  by_cases hshort : s.size < w.bytes
  · have hpop : s.pop w = .error (.stackShort w.bytes s.size) := if_neg (by omega)
    rw [if_pos hshort, hpop]
    rfl
  · obtain ⟨v, t, hpop⟩ : ∃ v t, s.pop w = .ok (v, t) := ⟨_, _, if_pos (by omega)⟩
    have hstack := ofBytes_eq (RegisterMachine.Stack.toList_pop hpop)
    rw [RegisterMachine.Stack.capacity_pop hpop] at hstack
    have htop : slice s.toList (s.size - w.bytes) s.size = some (s.toList.drop (s.size - w.bytes)) := by
      rw [← hlength]
      exact slice_back (by omega)
    have hwidth : (s.toList.drop (s.size - w.bytes)).length = w.bytes := by
      rw [List.length_drop]
      omega
    rw [if_neg hshort, hpop, sub_of_le (by omega)]
    simp only [Option.bind_eq_bind, Option.bind_some, htop, readBe_eq hwidth,
      ← RegisterMachine.Stack.value_pop hpop,
      slice_front (l := s.toList) (a := s.size - w.bytes) (by omega), hstack]
    rfl

end Stack

namespace Slot

variable {s : Slot}

/-- An access stops inside the slot or not at all. -/
theorem range_eq (h : s.size < Slot.limit) (offset length : Nat) : range s offset length =
    if offset + length ≤ s.size then some (offset, offset + length) else none := by
  have hwords : Slot.limit < UInt64.size := by decide
  rw [range]
  by_cases hfits : offset + length ≤ s.size
  · rw [add_of_lt (by omega)]
  · rw [if_neg hfits]
    cases hadd : add offset length with
    | none => rfl
    | some stop =>
      obtain rfl := eq_of_add hadd
      exact if_neg hfits

theorem slice_toList {start stop : Nat} (h : start ≤ stop) (h' : stop ≤ s.size) :
    slice s.bytes.toList start stop = some (s.bytes.extract start stop).toList := by
  rw [slice_of_le h (by rwa [Array.length_toList]), Array.toList_extract, List.extract_eq_take_drop,
    List.drop_take]

theorem length_extract {start length : Nat} (h : start + length ≤ s.size) :
    (s.bytes.extract start (start + length)).toList.length = length := by
  have hsize : s.bytes.size = s.size := rfl
  rw [Array.length_toList, Array.size_extract, hsize, Nat.min_eq_left h, Nat.add_sub_cancel_left]

theorem bytes_eq (h : s.size < Slot.limit) (offset length : Nat) :
    bytes s offset length = some (s.slice? offset length) := by
  rw [bytes, range_eq h, RegisterMachine.Slot.slice?]
  split
  next hnone =>
    rw [if_neg (by simpa using hnone)]
  next start stop hsome =>
    obtain ⟨hfits, hpair⟩ := Option.ite_none_right_eq_some.mp hsome
    obtain ⟨rfl, rfl⟩ := Prod.mk.inj (Option.some.inj hpair)
    rw [if_pos hfits, slice_toList (Nat.le_add_right _ _) hfits]
    rfl

theorem read_eq (h : s.size < Slot.limit) (offset : UInt64) (w : Width) :
    read s offset w = some (s.read? offset w) := by
  rw [read, range_eq h, RegisterMachine.Slot.read?, RegisterMachine.Slot.slice?]
  by_cases hfits : offset.toNat + w.bytes ≤ s.size
  · rw [if_pos hfits, if_pos hfits]
    simp only [slice_toList (Nat.le_add_right _ _) hfits, Option.bind_eq_bind, Option.bind_some,
      readBe_eq (length_extract hfits)]
    rfl
  · rw [if_neg hfits, if_neg hfits]
    rfl

theorem write_eq (h : s.size < Slot.limit) (offset : UInt64) (w : Width) (v : UInt64) :
    write s offset w v = some (s.write? offset w v) := by
  rw [write, range_eq h, RegisterMachine.Slot.write?]
  by_cases hfits : offset.toNat + w.bytes ≤ s.size
  · have hle : offset.toNat + w.bytes ≤ s.bytes.toList.length := by rwa [Array.length_toList]
    have hover : (s.bytes.toList.take offset.toNat ++ Bytes.ofNat w.bytes v.toNat ++
        s.bytes.toList.drop (offset.toNat + w.bytes)).toArray =
          RegisterMachine.Slot.overwrite s.bytes offset.toNat (Bytes.ofNat w.bytes v.toNat) := by
      rw [← Array.toList_inj, RegisterMachine.Slot.toList_overwrite (by rwa [Bytes.length_ofNat]),
        Bytes.length_ofNat]
    rw [if_pos hfits, if_pos hfits]
    simp only [slice_toList (Nat.le_add_right _ _) hfits, Option.bind_eq_bind, Option.bind_some,
      writeBe_eq (length_extract hfits), slice_front (Nat.le_trans (Nat.le_add_right _ _) hle),
      slice_back hle, hover]
    rfl
  · rw [if_neg hfits, if_neg hfits]

end Slot

namespace Memory

variable {m : Memory}

theorem insert_eq (h : m.Accounted) (s : Slot) : insert m s = some (m.insert s) := by
  rw [insert, RegisterMachine.Memory.insert]
  cases hfree : m.free with
  | nil =>
    dsimp only
    rw [Array.size_push, sub_of_le (Nat.le_add_left 1 _), Nat.add_sub_cancel]
    rfl
  | cons id rest =>
    have hid : id < m.slots.size := h.lt_size (hfree ▸ List.mem_cons_self)
    dsimp only
    rw [update_of_lt hid]
    rfl

theorem alloc_eq (h : m.Accounted) (size : UInt64) (reserves : Nat → Bool) :
    alloc m size reserves = some (m.alloc? size reserves) := by
  rw [alloc, RegisterMachine.Memory.alloc?]
  cases Slot.zeros? reserves size.toNat with
  | none => rfl
  | some s =>
    dsimp only
    rw [insert_eq h]
    rfl

/-- There are not more handles to be issued again than slots. -/
theorem live_eq (h : m.Accounted) : live m = some m.live := by
  have hlength : m.free.length ≤ (List.range m.slots.size).length :=
    (h.nodup.subperm fun k hk => List.mem_range.mpr (h.lt_size hk)).length_le
  rw [List.length_range] at hlength
  exact sub_of_le hlength

theorem read_eq (h : m.Intact) (id offset : UInt64) (w : Width) :
    read m id offset w = some (m.read? id offset w) := by
  rw [read, RegisterMachine.Memory.read?]
  cases hs : m.slot? id with
  | none => rfl
  | some s => exact Slot.read_eq (h.size_slot? hs) offset w

theorem write_eq (h : m.Intact) (id offset : UInt64) (w : Width) (v : UInt64) :
    write m id offset w v = some (m.write? id offset w v) := by
  rw [write, RegisterMachine.Memory.write?]
  cases hs : m.slot? id with
  | none => rfl
  | some s =>
    dsimp only
    rw [Slot.write_eq (h.size_slot? hs), Option.bind_some]
    cases s.write? offset w v <;> rfl

end Memory

end Checked

end RegisterMachine

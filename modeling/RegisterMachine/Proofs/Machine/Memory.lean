import Mathlib
import RegisterMachine.Machine.Exec
import RegisterMachine.Proofs.Bytes

namespace RegisterMachine

namespace Slot

theorem toList_ofBytes (bs : Bytes) :
    (ofBytes bs).bytes.toList = bs ++ List.replicate (bs.length % 2) 0 := by
  rw [ofBytes, List.toList_toArray]

variable {s : Slot} {front bs back : Bytes}

theorem slice?_eq_some (h : s.bytes.toList = front ++ bs ++ back) :
    s.slice? front.length bs.length = some bs := by
  have hsize : s.size = front.length + bs.length + back.length := by
    rw [size, ← Array.length_toList, h, List.length_append, List.length_append]
  have hbytes : (s.bytes.extract front.length (front.length + bs.length)).toList = bs := by
    rw [Array.toList_extract, h, List.extract_eq_take_drop, List.append_assoc, List.drop_left,
      Nat.add_sub_cancel_left, List.take_left]
  rw [slice?, if_pos (by omega), hbytes]

theorem read?_eq_some {offset : UInt64} {w : Width} (h : s.bytes.toList = front ++ bs ++ back)
    (hoffset : offset.toNat = front.length) (hw : w.bytes = bs.length) :
    s.read? offset w = some (UInt64.ofNat bs.toNat) := by
  rw [read?, hoffset, hw, slice?_eq_some h, Option.map_some]

theorem size_overwrite (bytes : Array UInt8) (offset : Nat) (bs : Bytes) :
    (overwrite bytes offset bs).size = bytes.size := by
  induction bs generalizing bytes offset with
  | nil => rfl
  | cons b bs ih => rw [overwrite, ih, Array.size_set!]

theorem getElem?_overwrite {bytes : Array UInt8} {offset : Nat} (h : offset + bs.length ≤ bytes.size)
    (k : Nat) : (overwrite bytes offset bs)[k]? =
      if offset ≤ k ∧ k < offset + bs.length then bs[k - offset]? else bytes[k]? := by
  induction bs generalizing bytes offset with
  | nil => rw [overwrite, if_neg (by rw [List.length_nil]; omega)]
  | cons b bs ih =>
    rw [List.length_cons] at h ⊢
    rw [overwrite, ih (by rw [Array.size_set!]; omega), Array.set!_eq_setIfInBounds,
      Array.getElem?_setIfInBounds]
    rcases Nat.lt_trichotomy k offset with hlt | rfl | hgt
    · rw [if_neg (by omega), if_neg (by omega), if_neg (by omega)]
    · rw [if_neg (by omega), if_pos rfl, if_pos (by omega), if_pos (by omega), Nat.sub_self,
        List.getElem?_cons_zero]
    · have hnext : k - offset = k - (offset + 1) + 1 := by omega
      have hiff : offset + 1 ≤ k ∧ k < offset + 1 + bs.length ↔ offset ≤ k ∧ k < offset + (bs.length + 1) := by
        omega
      rw [if_neg hgt.ne, hnext, List.getElem?_cons_succ]
      exact if_congr hiff rfl rfl

/-- The bytes of a place after a write to it are the digits of the value, and all others stay. -/
theorem bytes_of_write? {s' : Slot} {offset v : UInt64} {w : Width} (h : s.write? offset w v = some s') :
    s'.size = s.size ∧ ∀ k, s'.bytes[k]? =
      if offset.toNat ≤ k ∧ k < offset.toNat + w.bytes then some (w.digit v (k - offset.toNat))
      else s.bytes[k]? := by
  rw [write?, Option.ite_none_right_eq_some] at h
  obtain ⟨hfits, h⟩ := h
  obtain rfl := Option.some.inj h
  refine ⟨size_overwrite s.bytes _ _, fun k => ?_⟩
  rw [getElem?_overwrite (by rw [Bytes.length_ofNat]; exact hfits), Bytes.length_ofNat]
  split
  next hinside => rw [Width.ofNat_eq_digits, Width.getElem?_digits v (by omega)]
  next => rfl

theorem slice?_eq_some_iff {offset length : Nat} : s.slice? offset length = some bs ↔
    offset + length ≤ s.size ∧ bs.length = length ∧ ∀ k < length, bs[k]? = s.bytes[offset + k]? := by
  have hsize : s.bytes.size = s.size := rfl
  rw [slice?, Option.ite_none_right_eq_some, Option.some_inj]
  refine and_congr_right fun hfits => ?_
  have hlength : (s.bytes.extract offset (offset + length)).toList.length = length := by
    rw [Array.length_toList, Array.size_extract]
    omega
  have hbytes : ∀ k < length, (s.bytes.extract offset (offset + length)).toList[k]? =
      s.bytes[offset + k]? := fun k hk => by
    rw [Array.getElem?_toList, Array.getElem?_extract, if_pos (by omega)]
  constructor
  · rintro rfl
    exact ⟨hlength, hbytes⟩
  · rintro ⟨hlength', hbytes'⟩
    refine List.ext_getElem? fun k => ?_
    by_cases hk : k < length
    · rw [hbytes k hk, hbytes' k hk]
    · rw [List.getElem?_eq_none (by omega), List.getElem?_eq_none (by omega)]

/-- A value is read exactly if the bytes at its place are its digits and it has no others. -/
theorem read?_eq_some_iff {offset v : UInt64} {w : Width} : s.read? offset w = some v ↔
    v.toNat < 256 ^ w.bytes ∧ ∀ k < w.bytes, s.bytes[offset.toNat + k]? = some (w.digit v k) := by
  rw [read?, Option.map_eq_some_iff]
  constructor
  · rintro ⟨bs, hslice, hread⟩
    obtain ⟨-, hlength, hbytes⟩ := slice?_eq_some_iff.mp hslice
    obtain ⟨hv, rfl⟩ := (Width.ofNat_toNat_eq_iff hlength).mp hread
    exact ⟨hv, fun k hk => (hbytes k hk).symm.trans (Width.getElem?_digits v hk)⟩
  · rintro ⟨hv, hbytes⟩
    have hfits : offset.toNat + w.bytes ≤ s.size := by
      have hpos := w.bytes_pos
      have hlast := (Array.getElem?_eq_some_iff.mp (hbytes (w.bytes - 1) (by omega))).1
      have hsize : s.bytes.size = s.size := rfl
      omega
    have hdigits : ∀ k < w.bytes, (w.digits v)[k]? = s.bytes[offset.toNat + k]? := fun k hk =>
      (Width.getElem?_digits v hk).trans (hbytes k hk).symm
    have hlength := w.length_digits v
    exact ⟨w.digits v, slice?_eq_some_iff.mpr ⟨hfits, hlength, hdigits⟩,
      (Width.ofNat_toNat_eq_iff hlength).mpr ⟨hv, rfl⟩⟩

end Slot

namespace Machine

theorem slot?_ofImage {i : Image} (stackSize : Nat) (h : i.pool ≠ []) :
    (ofImage i stackSize).memory.slot? 0 = some (Slot.ofBytes i.pool) := by
  have hmemory : (ofImage i stackSize).memory = (Memory.empty.insert (Slot.ofBytes i.pool)).2 := by
    rw [ofImage]
    exact if_neg h
  rw [hmemory]
  rfl

/-- A load of a value that can be read puts it into a register and reports success. -/
theorem exec_load {m : Machine} {p : Program} {ip v : UInt64} {w : Width} {slot offset dest : Register}
    (h : m.memory.read? (m.registers.get slot) (m.registers.get offset) w = some v) :
    m.exec p ip (.load w slot offset dest) = .ok ((m.setRegister dest v).setSuccess true) := by
  show Except.ok (m.load w slot offset dest) = _
  rw [load, h]

/-- A load from the place in the first slot, with the width of these bytes, gives the number that they
stand for and reports success. -/
def Loads (m : Machine) (place : UInt64) (bs : Bytes) : Prop :=
  ∀ (p : Program) (ip : UInt64) (w : Width) (slot offset dest : Register), w.bytes = bs.length →
    m.registers.get slot = 0 → m.registers.get offset = place →
    ∃ m', m.exec p ip (.load w slot offset dest) = .ok m' ∧ m'.registers.get .op = 1 ∧
      (dest ≠ .op → m'.registers.get dest = UInt64.ofNat bs.toNat)

theorem loads_of_slot {m : Machine} {s : Slot} {place : UInt64} {front bs back : Bytes}
    (hslot : m.memory.slot? 0 = some s) (h : s.bytes.toList = front ++ bs ++ back)
    (hplace : place.toNat = front.length) : m.Loads place bs := by
  intro p ip w slot offset dest hw hs ho
  have hread : m.memory.read? (m.registers.get slot) (m.registers.get offset) w =
      some (UInt64.ofNat bs.toNat) := by
    rw [hs, ho, Memory.read?, hslot]
    exact Slot.read?_eq_some h hplace hw
  have hregisters : ((m.setRegister dest (UInt64.ofNat bs.toNat)).setSuccess true).registers =
      (m.registers.set dest (UInt64.ofNat bs.toNat)).set .op 1 := rfl
  refine ⟨_, exec_load hread, ?_, ?_⟩
  · rw [hregisters, Registers.get_set_self]
  · intro hdest
    rw [hregisters, Registers.get_set_of_ne _ _ hdest, Registers.get_set_self]

end Machine

end RegisterMachine

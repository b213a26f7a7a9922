import Mathlib
import RegisterMachine.Bytes
import RegisterMachine.Width

namespace RegisterMachine

namespace Bytes

/-- A number below the bound of a width is written as the bytes that are read as it. -/
theorem ofNat_eq_iff {width n : Nat} {bs : Bytes} (hn : n < count width) :
    ofNat width n = bs ↔ bs.length = width ∧ bs.toNat = n := by
  constructor
  · rintro rfl
    exact ⟨length_ofNat width n, by rw [toNat_ofNat, Nat.mod_eq_of_lt hn]⟩
  · rintro ⟨rfl, rfl⟩
    exact ofNat_toNat bs

theorem toNat_singleton (b : UInt8) : toNat [b] = b.toNat := by
  simp [toNat]

theorem toNat_replicate_zero (n : Nat) : toNat (List.replicate n 0) = 0 := by
  induction n with
  | zero => rfl
  | succ n ih => rw [List.replicate_succ, toNat_cons, ih, UInt8.toNat_zero, Nat.zero_mul]

/-- The low bytes of a number are the last ones. -/
theorem drop_ofNat (k width n : Nat) : (ofNat (k + width) n).drop k = ofNat width n := by
  induction k with
  | zero => rw [Nat.zero_add, List.drop_zero]
  | succ k ih =>
    rw [Nat.succ_add, ofNat, List.drop_succ_cons]
    exact ih

theorem getElem?_ofNat {width k : Nat} (n : Nat) (h : k < width) :
    (ofNat width n)[k]? = some (UInt8.ofNat (n / 256 ^ (width - 1 - k))) := by
  have hdrop := drop_ofNat k (width - k) n
  rw [Nat.add_sub_cancel' h.le, show width - k = width - 1 - k + 1 by omega, ofNat] at hdrop
  rw [← List.head?_drop, hdrop, List.head?_cons]
  rfl

end Bytes

namespace Width

variable {w : Width} {v : UInt64} {k : Nat} {bs : Bytes}

/-- The byte at a place of a value in a width; at place zero is the most significant one. -/
def digit (w : Width) (v : UInt64) (k : Nat) : UInt8 :=
  UInt8.ofNat (v.toNat / 256 ^ (w.bytes - 1 - k))

/-- The low bytes of a value. -/
def digits (w : Width) (v : UInt64) : Bytes :=
  (List.range w.bytes).map (w.digit v)

@[simp] theorem length_digits (w : Width) (v : UInt64) : (w.digits v).length = w.bytes := by
  rw [digits, List.length_map, List.length_range]

theorem getElem?_digits (v : UInt64) (h : k < w.bytes) : (w.digits v)[k]? = some (w.digit v k) := by
  rw [digits, List.getElem?_map, List.getElem?_range h, Option.map_some]

theorem ofNat_eq_digits (w : Width) (v : UInt64) : Bytes.ofNat w.bytes v.toNat = w.digits v := by
  refine List.ext_getElem? fun k => ?_
  by_cases hk : k < w.bytes
  · rw [Bytes.getElem?_ofNat _ hk, getElem?_digits v hk, digit]
  · rw [List.getElem?_eq_none (by rw [Bytes.length_ofNat]; omega),
      List.getElem?_eq_none (by rw [length_digits]; omega)]

theorem count_le (w : Width) : Bytes.count w.bytes ≤ UInt64.size := by
  cases w <;> decide

/-- A value is read from as many bytes as the width has exactly if they are its digits and it has no
others. -/
theorem ofNat_toNat_eq_iff (h : bs.length = w.bytes) :
    UInt64.ofNat bs.toNat = v ↔ v.toNat < 256 ^ w.bytes ∧ bs = w.digits v := by
  have hbound : bs.toNat < Bytes.count w.bytes := h ▸ bs.toNat_lt
  rw [← UInt64.toNat_inj, UInt64.toNat_ofNat_of_lt' (hbound.trans_le w.count_le), ← ofNat_eq_digits]
  constructor
  · intro hread
    rw [← hread]
    exact ⟨hbound, h ▸ (Bytes.ofNat_toNat bs).symm⟩
  · rintro ⟨hv, rfl⟩
    rw [Bytes.toNat_ofNat]
    exact Nat.mod_eq_of_lt hv

theorem toNat_digits (w : Width) (v : UInt64) : (w.digits v).toNat = v.toNat % 256 ^ w.bytes := by
  rw [← ofNat_eq_digits, Bytes.toNat_ofNat]
  rfl

end Width

end RegisterMachine

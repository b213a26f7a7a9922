import Mathlib
import RegisterMachine.Image.Error
import RegisterMachine.Proofs.Image.Reader

namespace RegisterMachine

open Reader

namespace Binary

/-- A value with this property has one spelling, its encoding, and no other value has any. -/
def Canonical (α : Type) [Binary α] (P : α → Prop) : Prop :=
  (decode (α := α)).Reads (fun bs a => bs = encode a ∧ P a) (· = .endOfInput)

/-- Numbers of a fixed width are canonical if all numbers of the width, and only those, are told
apart. -/
theorem canonical_of_fixedWidth {α : Type} [inst : Binary α] {width : Nat} (toNat : α → Nat)
    (ofNat : Nat → α) (hinst : inst = fixedWidth width toNat ofNat)
    (hlt : ∀ a, toNat a < Bytes.count width) (hofNat : ∀ a, ofNat (toNat a) = a)
    (htoNat : ∀ n < Bytes.count width, toNat (ofNat n) = n) : Canonical α fun _ => True := by
  subst hinst
  have htake := Reads.take DecodeError.endOfInput width
  refine (htake.map fun bs => ofNat bs.toNat).congr fun bs a => ?_
  constructor
  · rintro ⟨raw, ⟨hraw, hlen⟩, rfl⟩
    have hbound : raw.toNat < Bytes.count width := hlen ▸ Bytes.toNat_lt raw
    have hsame : Bytes.ofNat width raw.toNat = raw := hlen ▸ Bytes.ofNat_toNat raw
    refine ⟨?_, trivial⟩
    change bs = Bytes.ofNat width (toNat (ofNat raw.toNat))
    rw [htoNat _ hbound, hsame, hraw]
  · rintro ⟨rfl, -⟩
    have hlen := Bytes.length_ofNat width (toNat a)
    refine ⟨Bytes.ofNat width (toNat a), ⟨rfl, hlen⟩, ?_⟩
    rw [Bytes.toNat_ofNat, Nat.mod_eq_of_lt (hlt a), hofNat]

theorem canonical_uint8 : Canonical UInt8 fun _ => True :=
  canonical_of_fixedWidth UInt8.toNat UInt8.ofNat rfl UInt8.toNat_lt (fun _ => UInt8.ofNat_toNat)
    fun _ h => UInt8.toNat_ofNat_of_lt' h

theorem canonical_uint16 : Canonical UInt16 fun _ => True :=
  canonical_of_fixedWidth UInt16.toNat UInt16.ofNat rfl UInt16.toNat_lt (fun _ => UInt16.ofNat_toNat)
    fun _ h => UInt16.toNat_ofNat_of_lt' h

theorem canonical_uint32 : Canonical UInt32 fun _ => True :=
  canonical_of_fixedWidth UInt32.toNat UInt32.ofNat rfl UInt32.toNat_lt (fun _ => UInt32.ofNat_toNat)
    fun _ h => UInt32.toNat_ofNat_of_lt' h

theorem canonical_uint64 : Canonical UInt64 fun _ => True :=
  canonical_of_fixedWidth UInt64.toNat UInt64.ofNat rfl UInt64.toNat_lt (fun _ => UInt64.ofNat_toNat)
    fun _ h => UInt64.toNat_ofNat_of_lt' h

theorem canonical_int8 : Canonical Int8 fun _ => True :=
  canonical_of_fixedWidth (·.toUInt8.toNat) (UInt8.ofNat · |>.toInt8) rfl
    (fun v => v.toUInt8.toNat_lt) (by simp) fun _ h => UInt8.toNat_ofNat_of_lt' h

theorem canonical_int16 : Canonical Int16 fun _ => True :=
  canonical_of_fixedWidth (·.toUInt16.toNat) (UInt16.ofNat · |>.toInt16) rfl
    (fun v => v.toUInt16.toNat_lt) (by simp) fun _ h => UInt16.toNat_ofNat_of_lt' h

theorem canonical_int32 : Canonical Int32 fun _ => True :=
  canonical_of_fixedWidth (·.toUInt32.toNat) (UInt32.ofNat · |>.toInt32) rfl
    (fun v => v.toUInt32.toNat_lt) (by simp) fun _ h => UInt32.toNat_ofNat_of_lt' h

theorem canonical_int64 : Canonical Int64 fun _ => True :=
  canonical_of_fixedWidth (·.toUInt64.toNat) (UInt64.ofNat · |>.toInt64) rfl
    (fun v => v.toUInt64.toNat_lt) (by simp) fun _ h => UInt64.toNat_ofNat_of_lt' h

theorem canonical_double : Canonical Double fun _ => True :=
  canonical_of_fixedWidth (fun d : Double => d.bits.toNat) (fun n => (⟨UInt64.ofNat n⟩ : Double)) rfl
    (fun d => d.bits.toNat_lt) (by simp) fun _ h => UInt64.toNat_ofNat_of_lt' h

theorem canonical_bytes : Canonical Bytes fun bs => bs.length < UInt64.size := by
  refine (canonical_uint64.bind fun length => Reads.take _ length.toNat).congr fun bs value => ?_
  constructor
  · rintro ⟨length, _, _, rfl, ⟨rfl, -⟩, rfl, hlen⟩
    have hlength : length = UInt64.ofNat _ := (UInt64.ofNat_toNat (x := length)).symm
    rw [← hlen] at hlength
    refine ⟨?_, hlen.trans_lt length.toNat_lt⟩
    rw [hlength]
    rfl
  · rintro ⟨rfl, hlt⟩
    have hlen := UInt64.toNat_ofNat_of_lt' hlt
    exact ⟨UInt64.ofNat value.length, encode (UInt64.ofNat value.length), value, rfl, ⟨rfl, trivial⟩,
      rfl, hlen.symm⟩

theorem length_toUTF8 (s : String) : s.toUTF8.data.toList.length = s.utf8ByteSize := by
  rw [Array.length_toList]
  exact String.size_toByteArray

/-- Bytes are a text exactly if they are the text's bytes. -/
theorem fromUTF8?_eq_some_iff {bs : Bytes} {s : String} :
    String.fromUTF8? ⟨bs.toArray⟩ = some s ↔ bs = s.toUTF8.data.toList := by
  constructor
  · intro h
    rw [String.fromUTF8?] at h
    split at h
    next hvalid =>
      obtain rfl := Option.some.inj h
      rfl
    next => cases h
  · rintro rfl
    rw [Array.toArray_toList]
    change String.fromUTF8? s.toByteArray = some s
    rw [String.fromUTF8?, dif_pos s.isValidUTF8]
    rfl

theorem canonical_string : Canonical String fun s => s.utf8ByteSize < UInt64.size := by
  refine (canonical_bytes.bind (T := fun raw bs s => bs = [] ∧ raw = s.toUTF8.data.toList)
    fun raw => ?_).congr fun bs s => ?_
  · simp only [← fromUTF8?_eq_some_iff]
    cases String.fromUTF8? ⟨raw.toArray⟩ with
    | some s => exact (Reads.pure s).congr fun bs t => by simp [eq_comm]
    | none => exact (Reads.throw _).congr fun bs t => by simp
  constructor
  · rintro ⟨_, _, _, rfl, ⟨rfl, hlt⟩, rfl, rfl⟩
    rw [length_toUTF8] at hlt
    rw [List.append_nil]
    exact ⟨rfl, hlt⟩
  · rintro ⟨rfl, hlt⟩
    rw [← length_toUTF8] at hlt
    exact ⟨s.toUTF8.data.toList, encode s, [], (List.append_nil _).symm, ⟨rfl, hlt⟩, rfl, rfl⟩

/-- The bytes of an array are spelled as they are. -/
theorem canonical_vector {n : Nat} : Canonical (Vector UInt8 n) fun _ => True := by
  refine ((Reads.take DecodeError.endOfInput n).bind
    (T := fun raw bs (v : Vector UInt8 n) => bs = [] ∧ raw = v.toList) fun raw => ?_).congr
    fun bs v => ?_
  · by_cases hlen : raw.length = n
    · rw [dif_pos hlen]
      refine (Reads.pure _).congr fun bs v => and_congr_right fun _ => ?_
      rw [← Vector.toList_inj]
      exact eq_comm
    · rw [dif_neg hlen]
      refine (Reads.throw _).congr fun bs v => ?_
      rw [false_iff]
      rintro ⟨-, rfl⟩
      exact hlen v.length_toList
  constructor
  · rintro ⟨_, _, _, rfl, ⟨rfl, -⟩, rfl, rfl⟩
    rw [List.append_nil]
    exact ⟨rfl, trivial⟩
  · rintro ⟨rfl, -⟩
    exact ⟨v.toList, v.toList, [], (List.append_nil _).symm, ⟨rfl, v.length_toList⟩, rfl, rfl⟩

end Binary
end RegisterMachine

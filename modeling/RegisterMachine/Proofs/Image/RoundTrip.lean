import Mathlib
import RegisterMachine.Proofs.Image.Spelling

namespace RegisterMachine

open Reader

namespace Constant

/-- What is written for a constant stands for it. -/
theorem spells_encode {c : Constant} (h : ∀ s, c = .string s → s.utf8ByteSize < UInt64.size) :
    Spells c.encode c := by
  refine ⟨c.encode.tail, rfl, ?_⟩
  cases c with
  | u8 v =>
    exact Binary.exists_encode_uint16_iff.mp ⟨v.toUInt16, rfl, UInt8.toUInt8_toUInt16 v⟩
  | i8 v =>
    have hlow : v.toInt16.toUInt16.toUInt8 = v.toUInt8 := by
      have h := Binary.toInt8_toInt16 v.toInt16.toUInt16
      exact (congrArg Int8.toUInt8 h).symm.trans (congrArg Int8.toUInt8 (Int8.toInt8_toInt16 v))
    exact Binary.exists_encode_uint16_iff.mp ⟨v.toInt16.toUInt16, rfl, hlow⟩
  | string s => exact ⟨rfl, h s rfl⟩
  | _ => rfl

theorem length_poolBytes_le (c : Constant) : c.poolBytes.length ≤ c.encode.length := by
  cases c with
  | string s =>
    change _ ≤ (_ :: (Binary.encode (UInt64.ofNat s.utf8ByteSize) ++ s.toUTF8.data.toList)).length
    rw [List.length_cons, List.length_append, poolBytes]
    omega
  | _ => exact Nat.le_succ _

end Constant

namespace Image

variable {α κ : Type}

theorem length_le_of_mem_flatMap {l : List α} {f : α → Bytes} {a : α} (ha : a ∈ l) :
    (f a).length ≤ (l.flatMap f).length := by
  have hsub := List.sublist_flatten_of_mem (List.mem_map_of_mem (f := f) ha)
  exact hsub.length_le

theorem length_le_length_flatMap {l : List α} {f : α → Bytes} (h : ∀ a, f a ≠ []) :
    l.length ≤ (l.flatMap f).length := by
  rw [List.length_flatMap]
  have hone : ∀ n ∈ l.map (fun a => (f a).length), 1 ≤ n := by
    simp only [List.mem_map, forall_exists_index, and_imp, forall_apply_eq_imp_iff₂]
    exact fun a _ => List.length_pos_iff.mpr (h a)
  simpa using List.length_le_sum_of_one_le _ hone

theorem length_encode (image : Image) : image.encode.length =
    45 + (image.sections.flatMap Binary.encode).length
      + (image.interrupts.flatMap Binary.encode).length
      + (image.constants.flatMap Constant.encode).length + image.code.length := by
  have hquad : ∀ n : UInt64, (Binary.encode n).length = 8 := fun n => Bytes.length_ofNat 8 n.toNat
  have hversion : (Binary.encode image.version).length = 4 := rfl
  have hdebug : (Binary.encode image.debug).length = 1 := rfl
  have hcode : (Binary.encode image.code).length = 8 + image.code.length := by
    change (Binary.encode (UInt64.ofNat image.code.length) ++ image.code).length = _
    rw [List.length_append, hquad]
  simp only [encode, encodeTable, List.length_append, hquad, hversion, hdebug, hcode]
  omega

/-- The pool is shorter than the image, which has all other parts as well. -/
theorem length_pool_add_le (image : Image) : image.pool.length + 45 ≤ image.encode.length := by
  have hencode := length_encode image
  have hpool : image.pool.length ≤ (image.constants.flatMap Constant.encode).length := by
    rw [pool, List.length_flatMap, List.length_flatMap]
    exact List.sum_le_sum fun c _ => c.length_poolBytes_le
  omega

/-- An image of fewer bytes than 64 bits can count has no length that they cannot hold. -/
theorem fits_of_length {image : Image} (h : image.encode.length < UInt64.size) : image.Fits := by
  have hlen := length_encode image
  have hsections : image.sections.length ≤ (image.sections.flatMap Binary.encode).length :=
    length_le_length_flatMap fun s => List.cons_ne_nil _ _
  have hinterrupts : image.interrupts.length ≤ (image.interrupts.flatMap Binary.encode).length :=
    length_le_length_flatMap fun h => List.cons_ne_nil _ _
  have hconstants : image.constants.length ≤ (image.constants.flatMap Constant.encode).length :=
    length_le_length_flatMap fun c => List.cons_ne_nil _ _
  refine ⟨by omega, ?_, by omega, by omega, ?_, by omega⟩
  · intro s hs
    have hle := length_le_of_mem_flatMap (f := Binary.encode) hs
    have hname : s.name.utf8ByteSize ≤ (Binary.encode s).length := by
      change _ ≤ (Binary.encode s.address
        ++ (Binary.encode (UInt64.ofNat _) ++ s.name.toUTF8.data.toList)).length
      rw [List.length_append, List.length_append, Binary.length_toUTF8]
      omega
    omega
  · intro s hs
    have hle := length_le_of_mem_flatMap (f := Constant.encode) hs
    have htext : s.utf8ByteSize ≤ (Constant.string s).encode.length := by
      change _ ≤ (_ :: (Binary.encode (UInt64.ofNat _) ++ s.toUTF8.data.toList)).length
      rw [List.length_cons, List.length_append, Binary.length_toUTF8]
      omega
    omega

theorem spells_encode {image : Image} (h : image.Valid) (hfits : image.Fits) :
    Spells image.encode image := by
  have hconstants : ∀ c ∈ image.constants, Constant.Spells c.encode c :=
    fun c hc => Constant.spells_encode fun s hs => hfits.strings s (hs ▸ hc)
  exact ⟨h, hfits, _, encode_eq image, SpellsAll.flatMap hconstants⟩

/-- An image that a machine takes and whose bytes can be counted. -/
structure Loadable (image : Image) : Prop extends Valid image where
  size : image.encode.length < UInt64.size

/-- An image is loaded from its bytes as it was. -/
theorem load_encode {image : Image} (h : image.Loadable) : load image.encode = .ok image :=
  load_eq_ok_iff.mpr (spells_encode h.toValid (fits_of_length h.size))

end Image

end RegisterMachine

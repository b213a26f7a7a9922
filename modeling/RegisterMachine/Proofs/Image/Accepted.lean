import Mathlib
import RegisterMachine.Proofs.Image.RoundTrip

namespace RegisterMachine

open Reader

namespace Binary

theorem toInt_int16 (v : Int16) : v.toInt =
    if v.toUInt16.toNat < 2 ^ 15 then (v.toUInt16.toNat : Int) else v.toUInt16.toNat - 2 ^ 16 := by
  have hcond := BitVec.toInt_eq_toNat_cond v.toBitVec
  change v.toBitVec.toInt = if v.toBitVec.toNat < 2 ^ 15 then (v.toBitVec.toNat : Int)
    else v.toBitVec.toNat - 2 ^ 16
  rw [hcond]
  split <;> split <;> omega

end Binary

namespace Constant

/-- A value of eight bits, which takes two bytes. -/
def IsNarrow : Constant → Prop
  | u8 _ | i8 _ => True
  | _ => False

/-- The byte in front of the low one that makes sixteen bits of a narrow value. -/
def extension : Constant → UInt8 → UInt8
  | i8 _, low => if low < 0x80 then 0x00 else 0xFF
  | _, _ => 0x00

/-- The number of sixteen bits that stands for a narrow value is one of eight bits. -/
def InRange : Constant → Bytes → Prop
  | u8 _, bs => ∃ v : UInt16, bs = Binary.encode v ∧ v.toNat < 2 ^ 8
  | i8 _, bs => ∃ v : Int16, bs = Binary.encode v ∧ -2 ^ 7 ≤ v.toInt ∧ v.toInt < 2 ^ 7
  | _, _ => True

theorem inRange_iff {c : Constant} (hc : c.IsNarrow) {high low : UInt8} :
    c.InRange [high, low] ↔ high = c.extension low := by
  have hhigh := high.toNat_lt
  have hlow := low.toNat_lt
  cases c with
  | u8 _ =>
    constructor
    · rintro ⟨v, hv, hlt⟩
      have hn := Binary.encode_uint16_eq_iff.mp hv.symm
      apply UInt8.toNat_inj.mp
      change high.toNat = 0
      omega
    · intro h
      have hzero : high.toNat = 0 := congrArg UInt8.toNat h
      refine ⟨low.toUInt16, (Binary.encode_uint16_eq_iff.mpr ?_).symm, hlow⟩
      rw [UInt8.toNat_toUInt16]
      omega
  | i8 _ =>
    have hsign : high = (i8 0).extension low ↔
        (low.toNat < 128 ∧ high.toNat = 0) ∨ (128 ≤ low.toNat ∧ high.toNat = 255) := by
      rw [extension, ← UInt8.toNat_inj]
      by_cases hlt : low < 0x80
      · have h128 : low.toNat < 128 := UInt8.lt_iff_toNat_lt.mp hlt
        rw [if_pos hlt]
        change high.toNat = 0 ↔ _
        omega
      · have h128 : ¬ low.toNat < 128 := fun h => hlt (UInt8.lt_iff_toNat_lt.mpr h)
        rw [if_neg hlt]
        change high.toNat = 255 ↔ _
        omega
    refine Iff.trans ?_ hsign.symm
    constructor
    · rintro ⟨v, hv, hmin, hmax⟩
      have hn : v.toUInt16.toNat = _ := Binary.encode_uint16_eq_iff.mp hv.symm
      rw [Binary.toInt_int16, hn] at hmin hmax
      split at hmin <;> omega
    · intro h
      obtain ⟨v, hv, -⟩ := Binary.exists_encode_uint16_iff.mpr ⟨high, rfl⟩
      have hn := Binary.encode_uint16_eq_iff.mp hv.symm
      have hvalue : v.toInt16.toUInt16.toNat = _ := hn
      refine ⟨v.toInt16, hv, ?_⟩
      rw [Binary.toInt_int16, hvalue]
      split <;> omega
  | _ => exact hc.elim

theorem inRange_poolBytes (c : Constant) : c.InRange c.poolBytes := by
  cases c with
  | u8 v => exact ⟨v.toUInt16, rfl, by simpa using v.toNat_lt⟩
  | i8 v =>
    refine ⟨v.toInt16, rfl, ?_⟩
    rw [Int8.toInt_toInt16]
    exact ⟨v.le_toInt, v.toInt_lt⟩
  | _ => trivial

theorem payload_iff_of_isNarrow {c : Constant} (hc : c.IsNarrow) :
    ∃ low, ∀ bs, c.Payload bs ↔ ∃ high, bs = [high, low] := by
  cases c with
  | u8 v => exact ⟨v, fun bs => Iff.rfl⟩
  | i8 v => exact ⟨v.toUInt8, fun bs => Iff.rfl⟩
  | _ => exact hc.elim

namespace Spells

variable {bs : Bytes} {c : Constant}

theorem narrow (h : Spells bs c) (hc : c.IsNarrow) :
    ∃ high low, bs = [c.tag, high, low] ∧ c.encode = [c.tag, c.extension low, low] := by
  obtain ⟨low, hlow⟩ := payload_iff_of_isNarrow hc
  obtain ⟨payload, rfl, hpayload⟩ := h
  obtain ⟨high, rfl⟩ := (hlow payload).mp hpayload
  have hbytes : c.encode = c.tag :: c.poolBytes := by
    cases c with
    | u8 _ | i8 _ => rfl
    | _ => exact hc.elim
  have hpool : c.Payload c.poolBytes := by
    have hstring : ∀ s, c = .string s → s.utf8ByteSize < UInt64.size := by
      rintro s rfl
      exact hc.elim
    obtain ⟨payload, he, hpayload⟩ := spells_encode hstring
    obtain ⟨-, rfl⟩ := List.cons.inj (hbytes.symm.trans he)
    exact hpayload
  obtain ⟨extended, hextended⟩ := (hlow c.poolBytes).mp hpool
  have hrange := inRange_poolBytes c
  rw [hextended, inRange_iff hc] at hrange
  refine ⟨high, low, rfl, ?_⟩
  rw [hbytes, hextended, hrange]

theorem eq_encode (h : Spells bs c) (hc : ¬ c.IsNarrow) : bs = c.encode := by
  obtain ⟨payload, rfl, hpayload⟩ := h
  cases c with
  | u8 _ | i8 _ => exact absurd trivial hc
  | string s => rw [hpayload.1]; rfl
  | _ => rw [hpayload]; rfl

theorem length_eq (h : Spells bs c) : bs.length = c.encode.length := by
  by_cases hc : c.IsNarrow
  · obtain ⟨high, low, rfl, he⟩ := h.narrow hc
    rw [he]
    rfl
  · rw [h.eq_encode hc]

theorem getElem?_eq (h : Spells bs c) {i : Nat} (hi : c.IsNarrow → i ≠ 1) :
    bs[i]? = c.encode[i]? := by
  by_cases hc : c.IsNarrow
  · obtain ⟨high, low, rfl, he⟩ := h.narrow hc
    rw [he]
    match i, hi hc with
    | 0, _ => rfl
    | i + 2, _ => rfl
  · rw [h.eq_encode hc]

end Spells

variable {bs : Bytes} {cs : List Constant}

theorem length_of_spellsAll (h : SpellsAll Spells bs cs) :
    bs.length = (cs.flatMap encode).length := by
  induction h with
  | nil => rfl
  | cons hc _ ih => rw [List.flatMap_cons, List.length_append, List.length_append, hc.length_eq, ih]

/-- Constants are told by their bytes up to the first payload bytes of narrow ones. -/
theorem getElem?_of_spellsAll (h : SpellsAll Spells bs cs) {i : Nat}
    (hi : ∀ before c after, cs = before ++ c :: after → c.IsNarrow →
      i ≠ (before.flatMap encode).length + 1) :
    bs[i]? = (cs.flatMap encode)[i]? := by
  induction h generalizing i with
  | nil => rfl
  | @cons piece rest c cs hpiece _ ih =>
    have hlen := hpiece.length_eq
    -- As the spelling is as long as the encoding, the place is in both or behind both.
    rw [List.flatMap_cons]
    by_cases hlt : i < piece.length
    · rw [List.getElem?_append_left hlt, List.getElem?_append_left (hlen ▸ hlt)]
      exact hpiece.getElem?_eq (hi [] c cs rfl)
    · rw [List.getElem?_append_right (by omega), List.getElem?_append_right (by omega), hlen]
      apply ih
      intro before d after hsplit hd heq
      apply hi (c :: before) d after (by rw [hsplit]; rfl) hd
      rw [List.flatMap_cons, List.length_append]
      omega

end Constant

namespace Image

/-- The bytes of this constant of the image begin at this place. -/
def ConstantAt (image : Image) (place : Nat) (c : Constant) : Prop :=
  ∃ before after, image.constants = before ++ c :: after ∧
    place = image.front.length + (before.flatMap Constant.encode).length

/-- The first payload byte of a narrow constant has this place. -/
def Free (image : Image) (i : Nat) : Prop :=
  ∃ place c, image.ConstantAt place c ∧ c.IsNarrow ∧ i = place + 1

section Spells

variable {bs : Bytes} {image : Image} {place : Nat} {c : Constant}

theorem Spells.length_eq (h : Spells bs image) : image.encode.length = bs.length := by
  obtain ⟨-, -, entries, rfl, hentries⟩ := h
  have hlen := Constant.length_of_spellsAll hentries
  simp only [encode_eq, List.length_append, hlen]

theorem Spells.getElem?_eq (h : Spells bs image) {i : Nat} (hi : ¬ image.Free i) :
    image.encode[i]? = bs[i]? := by
  obtain ⟨-, -, entries, rfl, hentries⟩ := h
  have hlen := Constant.length_of_spellsAll hentries
  -- Only among the constants the bytes can differ: what is in front and behind is the same.
  rw [encode_eq, List.append_assoc, List.append_assoc]
  by_cases hfront : i < image.front.length
  · rw [List.getElem?_append_left hfront, List.getElem?_append_left hfront]
  have hge : image.front.length ≤ i := Nat.not_lt.mp hfront
  rw [List.getElem?_append_right hge, List.getElem?_append_right hge]
  by_cases hconstants : i - image.front.length < entries.length
  · rw [List.getElem?_append_left (hlen ▸ hconstants), List.getElem?_append_left hconstants]
    refine (Constant.getElem?_of_spellsAll hentries ?_).symm
    intro before c after hsplit hc heq
    exact hi ⟨_, c, ⟨before, after, hsplit, rfl⟩, hc, by omega⟩
  · have hback : entries.length ≤ i - image.front.length := Nat.not_lt.mp hconstants
    rw [List.getElem?_append_right (hlen ▸ hback), List.getElem?_append_right hback, hlen]

/-- At the place of a narrow constant are its tag and the two bytes of its payload, of which the image
keeps the second one. -/
theorem Spells.narrow (h : Spells bs image) (hat : image.ConstantAt place c) (hc : c.IsNarrow) :
    ∃ high low, (bs.drop place).take 3 = [c.tag, high, low] ∧
      (image.encode.drop place).take 3 = [c.tag, c.extension low, low] := by
  obtain ⟨before, after, hsplit, rfl⟩ := hat
  obtain ⟨-, -, entries, rfl, hentries⟩ := h
  rw [hsplit] at hentries
  obtain ⟨first, piece, last, rfl, hfirst, hpiece, -⟩ := hentries.split
  obtain ⟨high, low, rfl, he⟩ := hpiece.narrow hc
  have hlen := Constant.length_of_spellsAll hfirst
  refine ⟨high, low, ?_, ?_⟩
  · rw [← hlen, ← List.drop_drop, List.append_assoc, List.drop_left, List.append_assoc,
      List.append_assoc, List.drop_left]
    rfl
  · rw [encode_eq, hsplit, List.flatMap_append, List.flatMap_cons, he, ← List.drop_drop,
      List.append_assoc, List.drop_left, List.append_assoc, List.drop_left]
    rfl

/-- The bytes are those of the image if the payloads of all narrow constants in them are in range. -/
theorem Spells.encode_eq_iff (h : Spells bs image) : image.encode = bs ↔
    ∀ place c, image.ConstantAt place c → c.InRange ((bs.drop (place + 1)).take 2) := by
  have hpayload : ∀ place, (bs.drop (place + 1)).take 2 = ((bs.drop place).take 3).drop 1 := by
    intro place
    rw [List.drop_take, List.drop_drop]
  constructor
  · intro he place c hat
    by_cases hc : c.IsNarrow
    · obtain ⟨high, low, hbytes, hencode⟩ := h.narrow hat hc
      rw [he, hbytes] at hencode
      rw [hpayload, hbytes]
      exact (Constant.inRange_iff hc).mpr (by simpa using hencode)
    · cases c with
      | u8 _ | i8 _ => exact absurd trivial hc
      | _ => trivial
  · intro hrange
    apply List.ext_getElem?
    intro i
    by_cases hfree : image.Free i
    · obtain ⟨place, c, hat, hc, rfl⟩ := hfree
      obtain ⟨high, low, hbytes, hencode⟩ := h.narrow hat hc
      have hhigh := hrange place c hat
      rw [hpayload, hbytes] at hhigh
      rw [← (Constant.inRange_iff hc).mp hhigh, ← hbytes] at hencode
      have hbyte : ∀ l : Bytes, l[place + 1]? = ((l.drop place).take 3)[1]? := by
        intro l
        rw [List.getElem?_take_of_lt (by decide), List.getElem?_drop]
      rw [hbyte, hbyte, hencode]
    · exact h.getElem?_eq hfree

end Spells

/-- The image keeps everything of the bytes that it was loaded from but the first payload bytes of
its narrow constants, where the sign or zeros are written. -/
theorem encode_of_load {bs : Bytes} {image : Image} (h : load bs = .ok image) :
    image.encode.length = bs.length ∧ load image.encode = .ok image ∧
    (∀ i, ¬ image.Free i → image.encode[i]? = bs[i]?) ∧
    (∀ place c, image.ConstantAt place c → c.IsNarrow → ∃ high low,
      (bs.drop place).take 3 = [c.tag, high, low] ∧
        (image.encode.drop place).take 3 = [c.tag, c.extension low, low]) ∧
    (image.encode = bs ↔
      ∀ place c, image.ConstantAt place c → c.InRange ((bs.drop (place + 1)).take 2)) ∧
    ∀ other, load other = .ok image →
      other.length = bs.length ∧ ∀ i, ¬ image.Free i → other[i]? = bs[i]? := by
  have hspells := load_eq_ok_iff.mp h
  have hload : load image.encode = .ok image :=
    load_eq_ok_iff.mpr (spells_encode hspells.1 hspells.2.1)
  refine ⟨hspells.length_eq, hload, fun i => hspells.getElem?_eq, fun place c => hspells.narrow,
    hspells.encode_eq_iff, ?_⟩
  intro other hother
  have hspells' := load_eq_ok_iff.mp hother
  refine ⟨hspells'.length_eq.symm.trans hspells.length_eq, fun i hi => ?_⟩
  exact (hspells'.getElem?_eq hi).symm.trans (hspells.getElem?_eq hi)

/-- Two narrow constants with other bytes in front of them than would be written. -/
theorem encode_of_load_narrow :
    let image : Image := ⟨.supported, .none, [], [], [.u8 5, .i8 (-2)], 0, [.ret]⟩
    let bs := image.front ++ [0x00, 7, 5, 0x10, 0, 0xFE] ++ image.back
    load bs = .ok image ∧ image.encode.length = bs.length ∧ image.encode ≠ bs := by
  intro image bs
  have hload : load bs = .ok image := by decide +kernel
  obtain ⟨hlen, -, -, -, hiff, -⟩ := encode_of_load hload
  refine ⟨hload, hlen, fun he => ?_⟩
  have hrange := hiff.mp he image.front.length (.u8 5) ⟨[], [.i8 (-2)], rfl, rfl⟩
  have hhigh := (Constant.inRange_iff (c := .u8 5) trivial).mp hrange
  exact absurd hhigh (by decide)

/-- Of bytes that are loaded no proper part from the front is, because a part of the image is missing,
and none with more behind them. -/
theorem load_truncated_trailing {bs : Bytes} {image : Image} (h : load bs = .ok image) :
    (∀ part, part <+: bs → part ≠ bs → ∃ field, load part = .error (.truncated field)) ∧
      ∀ rest, rest ≠ [] → load (bs ++ rest) = .error (.trailing rest.length) := by
  have hspells := load_eq_ok_iff.mp h
  exact ⟨fun part => load_part hspells, fun rest => load_append hspells⟩

theorem load_truncated_trailing_string :
    let image : Image := ⟨.supported, .none, [⟨0, "a"⟩], [], [.string "xy"], 0, [.ret]⟩
    load image.encode = .ok image ∧
      (∃ field, load (image.encode.take 46) = .error (.truncated field)) ∧
      load (image.encode ++ [0]) = .error (.trailing 1) := by
  intro image
  have hload : load image.encode = .ok image := by decide +kernel
  obtain ⟨hpart, hmore⟩ := load_truncated_trailing hload
  exact ⟨hload, hpart _ (List.take_prefix 46 _) (by decide +kernel), hmore [0] (by decide)⟩

end Image

end RegisterMachine

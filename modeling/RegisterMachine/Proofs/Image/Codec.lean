import Mathlib
import RegisterMachine.Proofs.Image.Spelling

namespace RegisterMachine

open Reader

namespace Binary

/-- The formats of the values in an image. -/
inductive Format where
  | u8
  | u16
  | u32
  /-- Also the format of lengths and sizes. -/
  | u64
  | i8
  | i16
  | i32
  | i64
  | double
  | bytes
  | string
  | array (length : Nat)
  | version
  | debugLevel
  | sectionEntry
  | interruptEntry

namespace Format

/-- The values of a format. -/
abbrev Value : Format → Type
  | u8 => UInt8
  | u16 => UInt16
  | u32 => UInt32
  | u64 => UInt64
  | i8 => Int8
  | i16 => Int16
  | i32 => Int32
  | i64 => Int64
  | double => Double
  | bytes => Bytes
  | string => String
  | array length => Vector UInt8 length
  | version => Version
  | debugLevel => DebugLevel
  | sectionEntry => Image.Section
  | interruptEntry => Image.Handler

instance : (f : Format) → Binary f.Value
  | u8 => inferInstanceAs (Binary UInt8)
  | u16 => inferInstanceAs (Binary UInt16)
  | u32 => inferInstanceAs (Binary UInt32)
  | u64 => inferInstanceAs (Binary UInt64)
  | i8 => inferInstanceAs (Binary Int8)
  | i16 => inferInstanceAs (Binary Int16)
  | i32 => inferInstanceAs (Binary Int32)
  | i64 => inferInstanceAs (Binary Int64)
  | double => inferInstanceAs (Binary Double)
  | bytes => inferInstanceAs (Binary Bytes)
  | string => inferInstanceAs (Binary String)
  | array length => inferInstanceAs (Binary (Vector UInt8 length))
  | version => inferInstanceAs (Binary Version)
  | debugLevel => inferInstanceAs (Binary DebugLevel)
  | sectionEntry => inferInstanceAs (Binary Image.Section)
  | interruptEntry => inferInstanceAs (Binary Image.Handler)

/-- A length that is written for the value fits its 64 bits, as the length of anything in memory
does. -/
def Fits : (f : Format) → f.Value → Prop
  | bytes, bs => bs.length < UInt64.size
  | string, s => s.utf8ByteSize < UInt64.size
  | sectionEntry, s => s.name.utf8ByteSize < UInt64.size
  | _, _ => True

/-- Every format spells its values in one way. -/
theorem canonical (f : Format) : Canonical f.Value f.Fits := by
  cases f with
  | u8 => exact canonical_uint8
  | u16 => exact canonical_uint16
  | u32 => exact canonical_uint32
  | u64 => exact canonical_uint64
  | i8 => exact canonical_int8
  | i16 => exact canonical_int16
  | i32 => exact canonical_int32
  | i64 => exact canonical_int64
  | double => exact canonical_double
  | bytes => exact canonical_bytes
  | string => exact canonical_string
  | array length => exact canonical_vector
  | version => exact canonical_version
  | debugLevel => exact canonical_debugLevel
  | sectionEntry => exact canonical_section
  | interruptEntry => exact canonical_handler

theorem length_encode_bytes (bs : Bytes) : (encode bs).length = 8 + bs.length :=
  List.length_append.trans
    (congrArg (· + bs.length) (Bytes.length_ofNat 8 _))

theorem length_encode_string (s : String) : (encode s).length = 8 + s.utf8ByteSize := by
  rw [← length_toUTF8]
  exact length_encode_bytes _

/-- The size that is counted for a value is the number of its bytes. -/
theorem size_eq_length_encode (f : Format) (v : f.Value) : size v = (encode v).length := by
  cases f with
  | u8 | u16 | u32 | u64 | i8 | i16 | i32 | i64 | double => exact (Bytes.length_ofNat _ _).symm
  | bytes => exact (length_encode_bytes v).symm
  | string => exact (length_encode_string v).symm
  | array length => exact v.length_toList.symm
  | version | debugLevel => rfl
  | sectionEntry =>
    have hparts : (encode v).length = (encode v.address ++ encode v.name).length := rfl
    have haddress : (encode v.address).length = 8 := Bytes.length_ofNat _ _
    rw [hparts, List.length_append, haddress, length_encode_string]
    rfl
  | interruptEntry =>
    have hparts : (encode v).length = (encode v.id ++ encode v.address).length := rfl
    have hid : (encode v.id).length = 8 := Bytes.length_ofNat _ _
    have haddress : (encode v.address).length = 8 := Bytes.length_ofNat _ _
    rw [hparts, List.length_append, hid, haddress]
    rfl

end Format

/-- A value with its format. -/
structure Item where
  format : Format
  value : format.Value

/-- The bytes of a value with its format. -/
def Item.encode (i : Item) : Bytes :=
  Binary.encode i.value

/-- Reads values of these formats, one behind the other. -/
def readAll : List Format → Reader DecodeError (List Item)
  | [] => pure []
  | f :: formats => do
    let value ← decode (α := f.Value)
    let items ← readAll formats
    pure (⟨f, value⟩ :: items)

theorem reads_all (formats : List Format) : (readAll formats).Reads (fun bs items =>
    items.map Item.format = formats ∧ (∀ i ∈ items, i.format.Fits i.value) ∧
      bs = items.flatMap Item.encode) (· = .endOfInput) := by
  induction formats with
  | nil =>
    refine (Reads.pure []).congr fun bs items => ?_
    constructor
    · rintro ⟨rfl, rfl⟩
      exact ⟨rfl, fun i hi => absurd hi List.not_mem_nil, rfl⟩
    · rintro ⟨hformats, -, rfl⟩
      obtain rfl := List.map_eq_nil_iff.mp hformats
      exact ⟨rfl, rfl⟩
  | cons f formats ih =>
    refine (f.canonical.bind fun value => ih.bind fun items =>
      Reads.pure ((⟨f, value⟩ : Item) :: items)).congr fun bs items => ?_
    constructor
    · rintro ⟨value, _, _, rfl, ⟨rfl, hvalue⟩, items, _, _, rfl, ⟨rfl, hitems, rfl⟩, rfl, rfl⟩
      rw [List.append_nil]
      exact ⟨rfl, List.forall_mem_cons.mpr ⟨hvalue, hitems⟩, rfl⟩
    · rintro ⟨hformats, hfits, rfl⟩
      obtain ⟨⟨_, value⟩, items, rfl, rfl, rfl⟩ := List.map_eq_cons_iff.mp hformats
      obtain ⟨hvalue, hitems⟩ := List.forall_mem_cons.mp hfits
      exact ⟨value, encode value, items.flatMap Item.encode, rfl, ⟨rfl, hvalue⟩, items,
        items.flatMap Item.encode, [], (List.append_nil _).symm, ⟨rfl, hitems, rfl⟩, rfl, rfl⟩

theorem ofBytes_eq_ok_iff_run {α : Type} [Binary α] {input : Bytes} {v : α} :
    ofBytes input = .ok v ↔ (decode (α := α)).run input = (.ok v, []) := by
  unfold ofBytes
  rcases (decode (α := α)).run input with ⟨_ | a, _ | ⟨b, rest⟩⟩ <;> simp

/-- In every format the bytes of a value, and no others, are read as the value, whatever follows them;
a whole input is read as a value exactly if it is the bytes of the value; and the size counted for a
value is the number of its bytes. Values of any formats are read from their bytes one behind the
other, and from no others. -/
theorem decode_eq_ok_iff_encode :
    (∀ (f : Format) (input rest : Bytes) (v : f.Value),
      ((decode (α := f.Value)).run input = (.ok v, rest) ↔ f.Fits v ∧ input = encode v ++ rest) ∧
      (ofBytes input = .ok v ↔ f.Fits v ∧ input = encode v) ∧
      size v = (encode v).length) ∧
    ∀ (formats : List Format) (input rest : Bytes) (items : List Item),
      (readAll formats).run input = (.ok items, rest) ↔
        items.map Item.format = formats ∧ (∀ i ∈ items, i.format.Fits i.value) ∧
          input = items.flatMap Item.encode ++ rest := by
  have hone : ∀ (f : Format) (input rest : Bytes) (v : f.Value),
      (decode (α := f.Value)).run input = (.ok v, rest) ↔
        f.Fits v ∧ input = encode v ++ rest := by
    intro f input rest v
    rw [f.canonical.run_eq_ok_iff]
    constructor
    · rintro ⟨_, rfl, rfl, hfits⟩
      exact ⟨hfits, rfl⟩
    · rintro ⟨hfits, rfl⟩
      exact ⟨encode v, rfl, rfl, hfits⟩
  refine ⟨fun f input rest v => ⟨hone f input rest v, ?_, f.size_eq_length_encode v⟩, ?_⟩
  · rw [ofBytes_eq_ok_iff_run, hone, List.append_nil]
  · intro formats input rest items
    rw [(reads_all formats).run_eq_ok_iff]
    constructor
    · rintro ⟨_, rfl, hformats, hfits, rfl⟩
      exact ⟨hformats, hfits, rfl⟩
    · rintro ⟨hformats, hfits, rfl⟩
      exact ⟨_, rfl, hformats, hfits, rfl⟩

end Binary

end RegisterMachine

import Mathlib
import RegisterMachine.Image.Loader
import RegisterMachine.Proofs.Code.Stream
import RegisterMachine.Proofs.Image.Binary

namespace RegisterMachine

open Reader

/-- The bytes ended inside a part of the image. -/
def LoadError.IsTruncated (e : LoadError) : Prop :=
  ∃ field, e = .truncated field

namespace Binary

theorem Canonical.field {α : Type} [Binary α] {P : α → Prop} (h : Canonical α P)
    (part : Image.Field) :
    (Image.field (α := α) part).Reads (fun bs a => bs = encode a ∧ P a) LoadError.IsTruncated := by
  apply h.mapError
  rintro e rfl
  exact ⟨part, rfl⟩

theorem encode_uint8 (b : UInt8) : encode b = [b] := by
  have h : encode b = Bytes.ofNat 1 (Bytes.toNat [b]) := by rw [Bytes.toNat_singleton]; rfl
  rw [h]
  exact Bytes.ofNat_toNat [b]

theorem encode_uint16_eq_iff {v : UInt16} {high low : UInt8} :
    encode v = [high, low] ↔ v.toNat = high.toNat * 256 + low.toNat := by
  have hv : v.toNat < Bytes.count 2 := v.toNat_lt
  have hbytes : Bytes.toNat [high, low] = high.toNat * 256 + low.toNat := by
    rw [Bytes.toNat_cons, Bytes.toNat_singleton]
    rfl
  have hiff : encode v = [high, low] ↔ _ := Bytes.ofNat_eq_iff hv
  rw [hbytes] at hiff
  exact hiff.trans ⟨fun h => h.2.symm, fun h => ⟨rfl, h.symm⟩⟩

/-- Two bytes are a number of sixteen bits, and the second one its low half. -/
theorem exists_encode_uint16_iff {bs : Bytes} {low : UInt8} :
    (∃ v : UInt16, bs = encode v ∧ v.toUInt8 = low) ↔ ∃ high, bs = [high, low] := by
  constructor
  · rintro ⟨v, rfl, rfl⟩
    have hv := v.toNat_lt
    refine ⟨UInt8.ofNat (v.toNat / 256), encode_uint16_eq_iff.mpr ?_⟩
    rw [UInt8.toNat_ofNat', UInt16.toNat_toUInt8]
    omega
  · rintro ⟨high, rfl⟩
    have hhigh := high.toNat_lt
    have hlow := low.toNat_lt
    have hv : (UInt16.ofNat (high.toNat * 256 + low.toNat)).toNat = high.toNat * 256 + low.toNat :=
      UInt16.toNat_ofNat_of_lt' (show _ < 65536 by omega)
    refine ⟨_, (encode_uint16_eq_iff.mpr hv).symm, ?_⟩
    apply UInt8.toNat_inj.mp
    rw [UInt16.toNat_toUInt8, hv]
    omega

/-- Cutting a number of sixteen bits to eight leaves its low half, signed or not. -/
theorem toInt8_toInt16 (v : UInt16) : v.toInt16.toInt8 = v.toUInt8.toInt8 := by
  apply Int8.toBitVec_inj.mp
  ext i hi
  have hlt : i < 16 := by omega
  simp [BitVec.getElem_signExtend, hlt]

theorem canonical_version : Canonical Version fun _ => True := by
  refine (canonical_uint8.bind fun flags => canonical_uint8.bind fun major =>
    canonical_uint8.bind fun minor => canonical_uint8.bind fun patch =>
      Reads.pure (⟨flags, major, minor, patch⟩ : Version)).congr fun bs v => ?_
  simp only [encode_uint8]
  constructor
  · rintro ⟨flags, _, _, rfl, ⟨rfl, -⟩, major, _, _, rfl, ⟨rfl, -⟩, minor, _, _, rfl, ⟨rfl, -⟩,
      patch, _, _, rfl, ⟨rfl, -⟩, rfl, rfl⟩
    exact ⟨rfl, trivial⟩
  · rintro ⟨rfl, -⟩
    exact ⟨v.flags, [v.flags], _, rfl, ⟨rfl, trivial⟩, v.major, [v.major], _, rfl, ⟨rfl, trivial⟩,
      v.minor, [v.minor], _, rfl, ⟨rfl, trivial⟩, v.patch, [v.patch], [], rfl, ⟨rfl, trivial⟩, rfl, rfl⟩

theorem ofNat?_toNat_eq_some_iff {b : UInt8} {level : DebugLevel} :
    DebugLevel.ofNat? b.toNat = some level ↔ b = UInt8.ofNat level.toNat := by
  constructor
  · intro h
    have hnat := UInt8.ofNat_toNat (x := b)
    unfold DebugLevel.ofNat? at h
    generalize b.toNat = n at h hnat
    rw [← hnat]
    split at h <;> cases h <;> rfl
  · rintro rfl
    cases level <;> rfl

theorem canonical_debugLevel : Canonical DebugLevel fun _ => True := by
  refine (canonical_uint8.bind (T := fun b bs level => bs = [] ∧ b = UInt8.ofNat level.toNat)
    fun b => ?_).congr fun bs level => ?_
  · simp only [← ofNat?_toNat_eq_some_iff]
    cases DebugLevel.ofNat? b.toNat with
    | some level => exact (Reads.pure level).congr fun bs l => by simp [eq_comm]
    | none => exact (Reads.throw _).congr fun bs l => by simp
  simp only [encode_uint8]
  constructor
  · rintro ⟨_, _, _, rfl, ⟨rfl, -⟩, rfl, rfl⟩
    exact ⟨rfl, trivial⟩
  · rintro ⟨rfl, -⟩
    exact ⟨_, _, [], rfl, ⟨rfl, trivial⟩, rfl, rfl⟩

theorem canonical_section : Canonical Image.Section fun s => s.name.utf8ByteSize < UInt64.size := by
  refine (canonical_uint64.bind fun address => canonical_string.bind fun name =>
    Reads.pure (⟨address, name⟩ : Image.Section)).congr fun bs s => ?_
  constructor
  · rintro ⟨address, _, _, rfl, ⟨rfl, -⟩, name, _, _, rfl, ⟨rfl, hname⟩, rfl, rfl⟩
    rw [List.append_nil]
    exact ⟨rfl, hname⟩
  · rintro ⟨rfl, hname⟩
    exact ⟨s.address, encode s.address, encode s.name, rfl, ⟨rfl, trivial⟩, s.name, encode s.name, [],
      (List.append_nil _).symm, ⟨rfl, hname⟩, rfl, rfl⟩

theorem canonical_handler : Canonical Image.Handler fun _ => True := by
  refine (canonical_uint64.bind fun id => canonical_uint64.bind fun address =>
    Reads.pure (⟨id, address⟩ : Image.Handler)).congr fun bs h => ?_
  constructor
  · rintro ⟨id, _, _, rfl, ⟨rfl, -⟩, address, _, _, rfl, ⟨rfl, -⟩, rfl, rfl⟩
    rw [List.append_nil]
    exact ⟨rfl, trivial⟩
  · rintro ⟨rfl, -⟩
    exact ⟨h.id, encode h.id, encode h.address, rfl, ⟨rfl, trivial⟩, h.address, encode h.address, [],
      (List.append_nil _).symm, ⟨rfl, trivial⟩, rfl, rfl⟩

end Binary

namespace Constant

/-- Bytes that stand for a constant behind its tag. Of the two bytes of an eight-bit value only the
second one counts. -/
def Payload : Constant → Bytes → Prop
  | u8 v, bs => ∃ high, bs = [high, v]
  | i8 v, bs => ∃ high, bs = [high, v.toUInt8]
  | string s, bs => bs = Binary.encode s ∧ s.utf8ByteSize < UInt64.size
  | c, bs => bs = c.poolBytes

/-- Bytes that stand for a constant. -/
def Spells (bs : Bytes) (c : Constant) : Prop :=
  ∃ payload, bs = c.tag :: payload ∧ c.Payload payload

theorem reads_payload {α : Type} [Binary α] {P : α → Prop} (h : Binary.Canonical α P)
    (part : Image.Field) (make : α → Constant) {tag : UInt8} (hmake : ∀ bs c,
      (∃ v, (bs = Binary.encode v ∧ P v) ∧ c = make v) ↔ c.tag = tag ∧ c.Payload bs) :
    (make <$> Image.field part).Reads (fun bs c => c.tag = tag ∧ c.Payload bs)
      LoadError.IsTruncated :=
  ((h.field part).map make).congr hmake

theorem u8_payload (bs : Bytes) (c : Constant) :
    (∃ v : UInt16, (bs = Binary.encode v ∧ True) ∧ c = u8 v.toUInt8) ↔
      c.tag = 0x00 ∧ c.Payload bs := by
  cases c with
  | u8 low =>
    simp only [tag, Payload, u8.injEq, and_true, true_and, ← Binary.exists_encode_uint16_iff,
      eq_comm (a := low)]
  | _ => simp [tag]

theorem i8_payload (bs : Bytes) (c : Constant) :
    (∃ v : Int16, (bs = Binary.encode v ∧ True) ∧ c = i8 v.toInt8) ↔
      c.tag = 0x10 ∧ c.Payload bs := by
  cases c with
  | i8 low =>
    simp only [tag, Payload, i8.injEq, and_true, true_and, ← Binary.exists_encode_uint16_iff]
    constructor
    · rintro ⟨v, rfl, rfl⟩
      have hlow := congrArg Int8.toUInt8 (Binary.toInt8_toInt16 v.toUInt16)
      exact ⟨v.toUInt16, rfl, hlow.symm⟩
    · rintro ⟨v, rfl, hv⟩
      refine ⟨v.toInt16, rfl, ?_⟩
      rw [Binary.toInt8_toInt16, hv]
      rfl
  | _ => simp [tag]

/-- The constants are read from their spellings. -/
theorem reads : read.Reads Spells LoadError.IsTruncated := by
  have htag := Binary.canonical_uint8.field .constantTag
  refine (htag.bind (T := fun tag bs c => c.tag = tag ∧ c.Payload bs) fun tag => ?_).congr
    fun bs c => ?_
  · -- The tags are gone through, each with the constants that have it.
    split
    case h_1 => exact reads_payload Binary.canonical_uint16 _ _ u8_payload
    case h_2 =>
      refine reads_payload Binary.canonical_uint16 _ u16 fun bs c => ?_
      cases c <;> simp [Constant.tag, Payload, poolBytes]
    case h_3 =>
      refine reads_payload Binary.canonical_uint32 _ u32 fun bs c => ?_
      cases c <;> simp [Constant.tag, Payload, poolBytes]
    case h_4 =>
      refine reads_payload Binary.canonical_uint64 _ u64 fun bs c => ?_
      cases c <;> simp [Constant.tag, Payload, poolBytes]
    case h_5 => exact reads_payload Binary.canonical_int16 _ _ i8_payload
    case h_6 =>
      refine reads_payload Binary.canonical_int16 _ i16 fun bs c => ?_
      cases c <;> simp [Constant.tag, Payload, poolBytes]
    case h_7 =>
      refine reads_payload Binary.canonical_int32 _ i32 fun bs c => ?_
      cases c <;> simp [Constant.tag, Payload, poolBytes]
    case h_8 =>
      refine reads_payload Binary.canonical_int64 _ i64 fun bs c => ?_
      cases c <;> simp [Constant.tag, Payload, poolBytes]
    case h_9 =>
      refine reads_payload Binary.canonical_double _ float fun bs c => ?_
      cases c <;> simp [Constant.tag, Payload, poolBytes]
    case h_10 =>
      refine reads_payload Binary.canonical_string _ string fun bs c => ?_
      cases c <;> simp [Constant.tag, Payload]
    case h_11 =>
      refine (Reads.throw _).congr fun bs c => ?_
      cases c <;> simp_all [Constant.tag, eq_comm]
  constructor
  · rintro ⟨_, _, payload, rfl, ⟨rfl, -⟩, rfl, hpayload⟩
    rw [Binary.encode_uint8]
    exact ⟨payload, rfl, hpayload⟩
  · rintro ⟨payload, rfl, hpayload⟩
    exact ⟨c.tag, [c.tag], payload, rfl, ⟨(Binary.encode_uint8 _).symm, trivial⟩, rfl, hpayload⟩

end Constant

namespace Image

variable {α κ : Type}

/-- As many entries are read as a count of 64 bits in front of them tells. -/
theorem reads_table {read : Nat → Reader LoadError (List α)} {Spells : Bytes → List α → Prop}
    (part : Field)
    (h : ∀ n, (read n).Reads (fun bs as => as.length = n ∧ Spells bs as) LoadError.IsTruncated) :
    (do
      let count ← field (α := UInt64) part
      read count.toNat).Reads (fun bs as => as.length < UInt64.size ∧ ∃ entries,
        bs = Binary.encode (UInt64.ofNat as.length) ++ entries ∧ Spells entries as)
        LoadError.IsTruncated := by
  have hcount := Binary.canonical_uint64.field part
  refine (hcount.bind fun count => h count.toNat).congr fun bs as => ?_
  constructor
  · rintro ⟨count, _, entries, rfl, ⟨rfl, -⟩, hlen, hentries⟩
    have hcount : UInt64.ofNat as.length = count := by rw [hlen, UInt64.ofNat_toNat]
    refine ⟨hlen.trans_lt count.toNat_lt, entries, ?_, hentries⟩
    rw [hcount]
  · rintro ⟨hlt, entries, rfl, hentries⟩
    have hlen := UInt64.toNat_ofNat_of_lt' hlt
    exact ⟨UInt64.ofNat as.length, _, entries, rfl, ⟨rfl, trivial⟩, hlen.symm, hentries⟩

/-- Entries are read if their keys differ from each other and from those seen before. -/
theorem reads_distinct [BEq κ] [LawfulBEq κ] {read : Reader LoadError α}
    {Spells : Bytes → α → Prop} (hread : read.Reads Spells LoadError.IsTruncated) (key : α → κ)
    (duplicate : κ → LoadError) (seen : List κ) (n : Nat) :
    (readDistinct read key duplicate seen n).Reads (fun bs as => as.length = n ∧
      SpellsAll Spells bs as ∧ (as.map key).Nodup ∧ ∀ a ∈ as, key a ∉ seen)
      LoadError.IsTruncated := by
  -- With every entry that is read its key joins those that the rest must not have.
  induction n generalizing seen with
  | zero =>
    refine (Reads.pure []).congr fun bs as => ?_
    constructor
    · rintro ⟨rfl, rfl⟩
      exact ⟨rfl, .nil, List.nodup_nil, fun a ha => absurd ha List.not_mem_nil⟩
    · rintro ⟨hlen, hall, -⟩
      cases hall with
      | nil => exact ⟨rfl, rfl⟩
      | cons _ _ => cases hlen
  | succ n ih =>
    have hrest : ∀ entry, (do
        if seen.contains (key entry) then throw (duplicate (key entry))
        let entries ← readDistinct read key duplicate (key entry :: seen) n
        pure (entry :: entries)).Reads (fun bs as => key entry ∉ seen ∧ ∃ entries,
          as = entry :: entries ∧ entries.length = n ∧ SpellsAll Spells bs entries ∧
          (entries.map key).Nodup ∧ ∀ a ∈ entries, key a ∉ key entry :: seen)
          LoadError.IsTruncated := by
      intro entry
      by_cases hseen : key entry ∈ seen
      · rw [if_pos (List.contains_iff_mem.mpr hseen)]
        refine (Reads.throw _).congr fun bs as => ?_
        simp [hseen]
      · rw [if_neg (fun h => hseen (List.contains_iff_mem.mp h))]
        refine ((ih (key entry :: seen)).bind fun entries => Reads.pure (entry :: entries)).congr
          fun bs as => ?_
        constructor
        · rintro ⟨entries, cs, _, rfl, ⟨hlen, hall, hnodup, hnew⟩, rfl, rfl⟩
          rw [List.append_nil]
          exact ⟨hseen, entries, rfl, hlen, hall, hnodup, hnew⟩
        · rintro ⟨-, entries, rfl, hlen, hall, hnodup, hnew⟩
          exact ⟨entries, bs, [], (List.append_nil bs).symm, ⟨hlen, hall, hnodup, hnew⟩, rfl, rfl⟩
    refine (hread.bind hrest).congr fun bs as => ?_
    constructor
    · rintro ⟨entry, cs, ds, rfl, hentry, hseen, entries, rfl, hlen, hall, hnodup, hnew⟩
      have hkey : key entry ∉ entries.map key := by
        intro hmem
        obtain ⟨a, ha, he⟩ := List.mem_map.mp hmem
        exact hnew a ha (he ▸ List.mem_cons_self)
      refine ⟨congrArg Nat.succ hlen, .cons hentry hall, List.nodup_cons.mpr ⟨hkey, hnodup⟩, ?_⟩
      rw [List.forall_mem_cons]
      exact ⟨hseen, fun a ha hmem => hnew a ha (List.mem_cons_of_mem _ hmem)⟩
    · rintro ⟨hlen, hall, hnodup, hnew⟩
      cases hall with
      | nil => cases hlen
      | @cons cs ds entry entries hentry hall =>
        obtain ⟨hkey, hnodup⟩ := List.nodup_cons.mp hnodup
        obtain ⟨hseen, hnew⟩ := List.forall_mem_cons.mp hnew
        refine ⟨entry, cs, ds, rfl, hentry, hseen, entries, rfl, Nat.succ.inj hlen, hall, hnodup, ?_⟩
        intro a ha hmem
        rcases List.mem_cons.mp hmem with he | hmem
        · exact hkey (he ▸ List.mem_map_of_mem ha)
        · exact hnew a ha hmem

theorem reads_version : readVersion.Reads
    (fun bs v => bs = Binary.encode v ∧ v.major ≤ Version.supported.major)
    LoadError.IsTruncated := by
  have hversion := Binary.canonical_version.field .versionWord
  refine (hversion.bind (T := fun v bs w => bs = [] ∧ w = v ∧ v.major ≤ Version.supported.major)
    fun v => ?_).congr fun bs v => ?_
  · by_cases hmajor : Version.supported.major < v.major
    · rw [Version.check, if_pos hmajor]
      refine (Reads.throw _).congr fun bs w => ?_
      simp [UInt8.not_le.mpr hmajor]
    · rw [Version.check, if_neg hmajor]
      refine (Reads.pure v).congr fun bs w => ?_
      simp [UInt8.not_lt.mp hmajor]
  constructor
  · rintro ⟨v, _, _, rfl, ⟨rfl, -⟩, rfl, rfl, hmajor⟩
    rw [List.append_nil]
    exact ⟨rfl, hmajor⟩
  · rintro ⟨rfl, hmajor⟩
    exact ⟨v, Binary.encode v, [], (List.append_nil _).symm, ⟨rfl, trivial⟩, rfl, rfl, hmajor⟩

theorem ofByte_eq_ok_iff {b : UInt8} {level : DebugLevel} :
    DebugLevel.ofByte b = .ok level ↔ b = UInt8.ofNat level.toNat := by
  rw [← Binary.ofNat?_toNat_eq_some_iff, DebugLevel.ofByte]
  cases DebugLevel.ofNat? b.toNat <;> simp

theorem reads_debugLevel : readDebugLevel.Reads (fun bs level => bs = Binary.encode level)
    LoadError.IsTruncated := by
  have hbyte := Binary.canonical_uint8.field .debugLevel
  refine (hbyte.bind (T := fun b bs (level : DebugLevel) => bs = [] ∧ b = UInt8.ofNat level.toNat)
    fun b => ?_).congr fun bs level => ?_
  · simp only [← ofByte_eq_ok_iff]
    cases DebugLevel.ofByte b with
    | ok level => exact (Reads.pure level).congr fun bs l => by simp [eq_comm]
    | error e => exact (Reads.throw e).congr fun bs l => by simp
  constructor
  · rintro ⟨_, _, _, rfl, ⟨rfl, -⟩, rfl, rfl⟩
    rw [List.append_nil, Binary.encode_uint8]
    rfl
  · rintro rfl
    exact ⟨_, _, [], rfl, ⟨(Binary.encode_uint8 _).symm, trivial⟩, rfl, rfl⟩

theorem reads_sections : readSections.Reads (fun bs ss => bs = encodeTable Binary.encode ss ∧
    ss.length < UInt64.size ∧ (∀ s ∈ ss, s.name.utf8ByteSize < UInt64.size) ∧
    (ss.map Section.name).Nodup) LoadError.IsTruncated := by
  have hread := Binary.canonical_section.field .sectionEntry
  refine (reads_table .sectionCount (reads_distinct hread Section.name .duplicateSection [])).congr
    fun bs ss => ?_
  simp only [SpellsAll.encode_iff]
  constructor
  · rintro ⟨hlen, _, rfl, ⟨rfl, hnames⟩, hnodup, -⟩
    exact ⟨rfl, hlen, hnames, hnodup⟩
  · rintro ⟨rfl, hlen, hnames, hnodup⟩
    exact ⟨hlen, _, rfl, ⟨rfl, hnames⟩, hnodup, fun s _ => List.not_mem_nil⟩

theorem reads_interrupts : readInterrupts.Reads (fun bs hs => bs = encodeTable Binary.encode hs ∧
    hs.length < UInt64.size ∧ (hs.map Handler.id).Nodup) LoadError.IsTruncated := by
  have hread := Binary.canonical_handler.field .interruptEntry
  refine (reads_table .interruptCount (reads_distinct hread Handler.id .duplicateInterrupt [])).congr
    fun bs hs => ?_
  simp only [SpellsAll.encode_iff]
  constructor
  · rintro ⟨hlen, _, rfl, ⟨rfl, -⟩, hnodup, -⟩
    exact ⟨rfl, hlen, hnodup⟩
  · rintro ⟨rfl, hlen, hnodup⟩
    exact ⟨hlen, _, rfl, ⟨rfl, fun h _ => trivial⟩, hnodup, fun h _ => List.not_mem_nil⟩

theorem reads_constants : readConstants.Reads (fun bs cs => cs.length < UInt64.size ∧ ∃ entries,
    bs = Binary.encode (UInt64.ofNat cs.length) ++ entries ∧
      SpellsAll Constant.Spells entries cs) LoadError.IsTruncated :=
  reads_table .constantCount Constant.reads.replicate

theorem reads_code : readCode.Reads (fun bs is => bs = Binary.encode (Code.encode is) ∧
    (Code.encode is).length < UInt64.size) LoadError.IsTruncated := by
  have htake : ∀ n, (Reader.take (LoadError.truncated .code) n).Reads
      (fun bs code => bs = code ∧ code.length = n) LoadError.IsTruncated :=
    fun n => (Reads.take _ n).mono fun e he => ⟨.code, he⟩
  have hlength := Binary.canonical_uint64.field .codeLength
  refine (hlength.bind fun length => (htake length.toNat).bind
    (T := fun code bs is => bs = [] ∧ code = Code.encode is) fun code => ?_).congr fun bs is => ?_
  · simp only [← Code.decode_eq_ok_iff]
    cases Code.decode code with
    | ok is => exact (Reads.pure is).congr fun bs js => by simp [eq_comm]
    | error e => exact (Reads.throw _).congr fun bs js => by simp
  constructor
  · rintro ⟨length, _, _, rfl, ⟨rfl, -⟩, _, _, _, rfl, ⟨rfl, hlen⟩, rfl, rfl⟩
    have hlength : UInt64.ofNat (Code.encode is).length = length := by rw [hlen, UInt64.ofNat_toNat]
    refine ⟨?_, hlen.trans_lt length.toNat_lt⟩
    rw [List.append_nil, ← hlength]
    rfl
  · rintro ⟨rfl, hlt⟩
    have hlen := UInt64.toNat_ofNat_of_lt' hlt
    exact ⟨UInt64.ofNat (Code.encode is).length, _, Code.encode is, rfl, ⟨rfl, trivial⟩,
      Code.encode is, Code.encode is, [], (List.append_nil _).symm, ⟨rfl, hlen.symm⟩, rfl, rfl⟩

/-- What a machine asks of an image. -/
structure Valid (image : Image) : Prop where
  major : image.version.major ≤ Version.supported.major
  sections : (image.sections.map Section.name).Nodup
  interrupts : (image.interrupts.map Handler.id).Nodup

/-- Every length in the image fits the 64 bits that are written for it, as the length of anything in
memory does. -/
structure Fits (image : Image) : Prop where
  sections : image.sections.length < UInt64.size
  names : ∀ s ∈ image.sections, s.name.utf8ByteSize < UInt64.size
  interrupts : image.interrupts.length < UInt64.size
  constants : image.constants.length < UInt64.size
  strings : ∀ s, .string s ∈ image.constants → s.utf8ByteSize < UInt64.size
  code : image.code.length < UInt64.size

/-- The bytes of an image in front of its constants. -/
def front (image : Image) : Bytes :=
  Binary.encode image.version ++ Binary.encode image.debug
    ++ encodeTable Binary.encode image.sections ++ encodeTable Binary.encode image.interrupts
    ++ Binary.encode (UInt64.ofNat image.constants.length)

/-- The bytes of an image behind its constants. -/
def back (image : Image) : Bytes :=
  Binary.encode image.entry ++ Binary.encode image.code

theorem encode_eq (image : Image) :
    image.encode = image.front ++ image.constants.flatMap Constant.encode ++ image.back := by
  simp only [encode, encodeTable, front, back, List.append_assoc]

/-- Bytes that stand for an image. -/
def Spells (bs : Bytes) (image : Image) : Prop :=
  image.Valid ∧ image.Fits ∧ ∃ entries, bs = image.front ++ entries ++ image.back ∧
    SpellsAll Constant.Spells entries image.constants

/-- Reads the parts of an image. -/
def readParts : Reader LoadError Image := do
  let version ← readVersion
  let debug ← readDebugLevel
  let sections ← readSections
  let interrupts ← readInterrupts
  let constants ← readConstants
  let entry ← field .entry
  let instructions ← readCode
  pure { version, debug, sections, interrupts, constants, entry, instructions }

theorem read_eq : read = (do
    let image ← readParts
    let rest ← Reader.remaining
    if rest ≠ 0 then throw (.trailing rest)
    pure image) := by
  simp only [read, readParts, bind_assoc, pure_bind]

theorem reads_parts : readParts.Reads Spells LoadError.IsTruncated := by
  have hparts := reads_version.bind fun version => reads_debugLevel.bind fun debug =>
    reads_sections.bind fun sections => reads_interrupts.bind fun interrupts =>
    reads_constants.bind fun constants => (Binary.canonical_uint64.field .entry).bind fun entry =>
    reads_code.bind fun instructions => Reads.pure
      (Image.mk version debug sections interrupts constants entry instructions)
  refine hparts.congr fun bs image => ?_
  constructor
  · rintro ⟨version, _, _, rfl, ⟨rfl, hmajor⟩, debug, _, _, rfl, rfl,
      sections, _, _, rfl, ⟨rfl, hsections, hnames, hnodup⟩,
      interrupts, _, _, rfl, ⟨rfl, hinterrupts, hids⟩,
      constants, _, _, rfl, ⟨hconstants, entries, rfl, hentries⟩,
      entry, _, _, rfl, ⟨rfl, -⟩, instructions, _, _, rfl, ⟨rfl, hcode⟩, rfl, rfl⟩
    have hstrings : ∀ s, .string s ∈ constants → s.utf8ByteSize < UInt64.size := by
      intro s hs
      obtain ⟨before, after, hsplit⟩ := List.mem_iff_append.mp hs
      rw [hsplit] at hentries
      obtain ⟨_, _, _, -, -, ⟨_, -, -, hlen⟩, -⟩ := hentries.split
      exact hlen
    refine ⟨⟨hmajor, hnodup, hids⟩,
      ⟨hsections, hnames, hinterrupts, hconstants, hstrings, hcode⟩, entries, ?_, hentries⟩
    simp only [front, back, code, List.append_assoc, List.append_nil]
  · rintro ⟨h, hfits, entries, rfl, hentries⟩
    refine ⟨image.version, _, _, ?_, ⟨rfl, h.major⟩, image.debug, _, _, rfl, rfl,
      image.sections, _, _, rfl, ⟨rfl, hfits.sections, hfits.names, h.sections⟩,
      image.interrupts, _, _, rfl, ⟨rfl, hfits.interrupts, h.interrupts⟩,
      image.constants, _, _, rfl, ⟨hfits.constants, entries, rfl, hentries⟩,
      image.entry, _, _, rfl, ⟨rfl, trivial⟩, image.instructions, _, _, rfl, ⟨rfl, hfits.code⟩,
      rfl, rfl⟩
    simp only [front, back, code, List.append_assoc, List.append_nil]

theorem load_of_run {bs rest : Bytes} {image : Image} (h : readParts.run bs = (.ok image, rest)) :
    load bs = if rest.length = 0 then .ok image else .error (.trailing rest.length) := by
  rw [load, read_eq, run_bind, h]
  cases rest <;> rfl

/-- The bytes that are loaded as an image are those that stand for it. -/
theorem load_eq_ok_iff {bs : Bytes} {image : Image} : load bs = .ok image ↔ Spells bs image := by
  constructor
  · intro h
    rcases hrun : readParts.run bs with ⟨_ | other, rest⟩
    · rw [load, read_eq, run_bind, hrun] at h
      cases h
    · rw [load_of_run hrun] at h
      split at h
      next hrest =>
        obtain rfl := Except.ok.inj h
        obtain rfl := List.length_eq_zero_iff.mp hrest
        obtain ⟨cs, rfl, hspells⟩ := reads_parts.spelled hrun
        rwa [List.append_nil]
      next => cases h
  · intro h
    have hrun := reads_parts.yields h []
    rw [List.append_nil] at hrun
    rw [load_of_run hrun]
    rfl

/-- Nothing may follow the bytes of an image. -/
theorem load_append {bs rest : Bytes} {image : Image} (h : Spells bs image) (hrest : rest ≠ []) :
    load (bs ++ rest) = .error (.trailing rest.length) := by
  rw [load_of_run (reads_parts.yields h rest), if_neg]
  exact fun hlen => hrest (List.length_eq_zero_iff.mp hlen)

/-- Wherever the bytes of an image are cut, a part of it is missing. -/
theorem load_part {bs part : Bytes} {image : Image} (h : Spells bs image) (hpart : part <+: bs)
    (hne : part ≠ bs) : ∃ field, load part = .error (.truncated field) := by
  obtain ⟨e, rest, ⟨field, rfl⟩, hrun⟩ := reads_parts.short h hpart hne
  exact ⟨field, by rw [load, read_eq, run_bind, hrun]⟩

end Image

end RegisterMachine

import Mathlib
import RegisterMachine.Image.Loader
import RegisterMachine.Proofs.Checked.Code

namespace RegisterMachine.Checked.Image

open RegisterMachine.Image

/-- The number of bytes that are written piece by piece. -/
def count (pieces : List Bytes) : Option Nat :=
  pieces.foldlM (fun total piece => add total piece.length) 0

/-- A text with its length. -/
def textPieces (s : String) : List Bytes :=
  [Binary.encode (UInt64.ofNat s.toUTF8.data.toList.length), s.toUTF8.data.toList]

/-- A name for a place in the code. -/
def labelPieces (s : Section) : List Bytes :=
  Binary.encode s.address :: textPieces s.name

/-- The handler of an interrupt. -/
def handlerPieces (h : Handler) : List Bytes :=
  [Binary.encode h.id, Binary.encode h.address]

/-- A constant behind its tag. -/
def constantPieces (c : Constant) : List Bytes :=
  [c.tag] :: match c with
    | .string s => textPieces s
    | c => [c.poolBytes]

/-- The number of entries, then the entries. -/
def tablePieces {α : Type} (pieces : α → List Bytes) (entries : List α) : List Bytes :=
  Binary.encode (UInt64.ofNat entries.length) :: entries.flatMap pieces

/-- The pieces in which an image is written. -/
def pieces (image : Image) : List Bytes :=
  [[image.version.flags], [image.version.major], [image.version.minor], [image.version.patch],
      Binary.encode image.debug]
    ++ tablePieces labelPieces image.sections
    ++ tablePieces handlerPieces image.interrupts
    ++ tablePieces constantPieces image.constants
    ++ [Binary.encode image.entry, Binary.encode (UInt64.ofNat image.code.length), image.code]

/-- The number of bytes of an image, which is found before they are written. -/
def size (image : Image) : Option Nat :=
  count (pieces image)

section

variable {α κ : Type}

/-- Reads a part of an image; a failure names the part. -/
def field (part : Field) (r : Reader DecodeError α) : Reader LoadError α :=
  r.mapError fun
    | .endOfInput => .truncated part
    | .invalidValue => .malformed part

def version : Reader DecodeError Version := do
  let flags ← Reader.byte
  let major ← Reader.byte
  let minor ← Reader.byte
  let patch ← Reader.byte
  pure ⟨flags, major, minor, patch⟩

def label : Reader DecodeError Section := do
  let address ← Reader.number 8 UInt64.ofNat
  let name ← Reader.string
  pure ⟨address, name⟩

def handler : Reader DecodeError Handler := do
  let id ← Reader.number 8 UInt64.ofNat
  let address ← Reader.number 8 UInt64.ofNat
  pure ⟨id, address⟩

def constant : Reader LoadError Constant := do
  let tag ← field .constantTag Reader.byte
  match tag with
  | 0x00 => (fun v => .u8 v.toUInt8) <$> field .constantPayload (Reader.number 2 UInt16.ofNat)
  | 0x01 => .u16 <$> field .constantPayload (Reader.number 2 UInt16.ofNat)
  | 0x02 => .u32 <$> field .constantPayload (Reader.number 4 UInt32.ofNat)
  | 0x03 => .u64 <$> field .constantPayload (Reader.number 8 UInt64.ofNat)
  | 0x10 =>
    (fun v => .i8 v.toInt8) <$> field .constantPayload (Reader.number 2 (UInt16.ofNat · |>.toInt16))
  | 0x11 => .i16 <$> field .constantPayload (Reader.number 2 (UInt16.ofNat · |>.toInt16))
  | 0x12 => .i32 <$> field .constantPayload (Reader.number 4 (UInt32.ofNat · |>.toInt32))
  | 0x13 => .i64 <$> field .constantPayload (Reader.number 8 (UInt64.ofNat · |>.toInt64))
  | 0x20 => .float <$> field .constantPayload (Reader.number 8 fun n => ⟨UInt64.ofNat n⟩)
  | 0x30 => .string <$> field .stringConstant Reader.string
  | other => throw (.unknownConstantTag other)

def readDistinct [BEq κ] (read : Reader LoadError α) (key : α → κ) (duplicate : κ → LoadError)
    (seen : List κ) : Nat → Reader LoadError (List α)
  | 0 => pure []
  | n + 1 => do
    let entry ← read
    if seen.contains (key entry) then throw (duplicate (key entry))
    let entries ← readDistinct read key duplicate (key entry :: seen) n
    pure (entry :: entries)

def readVersion : Reader LoadError Version := do
  let version ← field .versionWord version
  match Version.check version Version.supported with
  | .ok _ => pure version
  | .error e => throw (.incompatible e)

def readDebugLevel : Reader LoadError DebugLevel := do
  let level ← field .debugLevel Reader.byte
  match DebugLevel.ofByte level with
  | .ok debug => pure debug
  | .error e => throw e

def readSections : Reader LoadError (List Section) := do
  let count ← field .sectionCount (Reader.number 8 UInt64.ofNat)
  readDistinct (field .sectionEntry label) Section.name .duplicateSection [] count.toNat

def readInterrupts : Reader LoadError (List Handler) := do
  let count ← field .interruptCount (Reader.number 8 UInt64.ofNat)
  readDistinct (field .interruptEntry handler) Handler.id .duplicateInterrupt [] count.toNat

def readConstants : Reader LoadError (List Constant) := do
  let count ← field .constantCount (Reader.number 8 UInt64.ofNat)
  Reader.replicate count.toNat constant

def readCode : Reader LoadError (List Instruction) := do
  let length ← field .codeLength (Reader.number 8 UInt64.ofNat)
  let code ← Reader.take (.truncated .code) length.toNat
  let decoded ← Reader.perform (Code.decode code)
  match decoded with
  | .ok instructions => pure instructions
  | .error e => throw (.code e)

/-- Reads an image that has to be all of the input. -/
def read : Reader LoadError Image := do
  let version ← readVersion
  let debug ← readDebugLevel
  let sections ← readSections
  let interrupts ← readInterrupts
  let constants ← readConstants
  let entry ← field .entry (Reader.number 8 UInt64.ofNat)
  let instructions ← readCode
  let rest ← Reader.remaining
  if rest ≠ 0 then throw (.trailing rest)
  pure { version, debug, sections, interrupts, constants, entry, instructions }

def load (bytes : Bytes) : Option (Except LoadError Image) := do
  let (image, _) ← read.run bytes
  return image

end

theorem count_eq {pieces : List Bytes} (h : pieces.flatten.length < UInt64.size) :
    count pieces = some pieces.flatten.length := by
  have hfold : ∀ total, total + pieces.flatten.length < UInt64.size →
      pieces.foldlM (fun total piece => add total piece.length) total =
        some (total + pieces.flatten.length) := by
    clear h
    induction pieces with
    | nil => exact fun total _ => rfl
    | cons piece pieces ih =>
      intro total h
      rw [List.flatten_cons, List.length_append, ← Nat.add_assoc] at h ⊢
      rw [List.foldlM_cons, add_of_lt (Nat.lt_of_le_of_lt (Nat.le_add_right _ _) h)]
      exact ih (total + piece.length) h
  have hall := hfold 0
  rw [Nat.zero_add] at hall
  exact hall h

theorem flatten_textPieces (s : String) : (textPieces s).flatten = Binary.encode s := by
  rw [textPieces, List.flatten_cons, List.flatten_singleton]
  rfl

theorem flatten_labelPieces (s : Section) : (labelPieces s).flatten = Binary.encode s := by
  rw [labelPieces, List.flatten_cons, flatten_textPieces]
  rfl

theorem flatten_handlerPieces (h : Handler) : (handlerPieces h).flatten = Binary.encode h := by
  rw [handlerPieces, List.flatten_cons, List.flatten_singleton]
  rfl

theorem flatten_constantPieces (c : Constant) : (constantPieces c).flatten = c.encode := by
  cases c with
  | string s =>
    change ([Constant.tag (.string s)] :: textPieces s).flatten = _
    rw [List.flatten_cons, flatten_textPieces]
    rfl
  | _ => simp [constantPieces, Constant.encode]

theorem flatten_tablePieces {α : Type} {pieces : α → List Bytes} {encode : α → Bytes}
    (h : ∀ a, (pieces a).flatten = encode a) (entries : List α) :
    (tablePieces pieces entries).flatten = encodeTable encode entries := by
  have hentries : (entries.flatMap pieces).flatten = entries.flatMap encode := by
    induction entries with
    | nil => rfl
    | cons a entries ih => rw [List.flatMap_cons, List.flatten_append, h, ih, List.flatMap_cons]
  rw [tablePieces, List.flatten_cons, hentries, encodeTable]

/-- What is written piece by piece is the image. -/
theorem flatten_pieces (image : Image) : (pieces image).flatten = image.encode := by
  have hversion : ([[image.version.flags], [image.version.major], [image.version.minor],
      [image.version.patch], Binary.encode image.debug] : List Bytes).flatten =
        Binary.encode image.version ++ Binary.encode image.debug := by
    rw [List.flatten_cons, List.flatten_cons, List.flatten_cons, List.flatten_cons, List.flatten_singleton]
    rfl
  have hcode : ([Binary.encode image.entry, Binary.encode (UInt64.ofNat image.code.length),
      image.code] : List Bytes).flatten = Binary.encode image.entry ++ Binary.encode image.code := by
    rw [List.flatten_cons, List.flatten_cons, List.flatten_singleton]
    rfl
  rw [pieces, List.flatten_append, List.flatten_append, List.flatten_append, List.flatten_append, hversion,
    hcode, flatten_tablePieces flatten_labelPieces, flatten_tablePieces flatten_handlerPieces,
    flatten_tablePieces flatten_constantPieces, ← List.append_assoc]
  rfl

/-- An image that fits into memory has a number of bytes that can be counted. -/
theorem size_eq {image : Image} (h : image.encode.length < Slot.limit) :
    size image = some image.encode.length := by
  have hwords : Slot.limit < UInt64.size := by decide
  rw [← flatten_pieces] at h ⊢
  exact count_eq (h.trans hwords)

section

variable {α κ : Type}

theorem agrees_field [Binary α] {r : Reader DecodeError α} (part : Field)
    (hr : r.Agrees Binary.decode) : (field part r).Agrees (RegisterMachine.Image.field part) :=
  hr.mapError _

theorem agrees_version : version.Agrees (Binary.decode (α := Version)) :=
  Reader.Agrees.byte.bind fun flags => Reader.Agrees.byte.bind fun major =>
    Reader.Agrees.byte.bind fun minor => Reader.Agrees.byte.bind fun patch =>
      .pure (Version.mk flags major minor patch)

theorem agrees_quad : (Reader.number 8 UInt64.ofNat).Agrees (Binary.decode (α := UInt64)) :=
  Reader.Agrees.number 8 UInt64.ofNat

theorem agrees_label : label.Agrees (Binary.decode (α := Section)) :=
  agrees_quad.bind fun address => Reader.Agrees.string.bind fun name => .pure (Section.mk address name)

theorem agrees_handler : handler.Agrees (Binary.decode (α := Handler)) :=
  agrees_quad.bind fun id => agrees_quad.bind fun address => .pure (Handler.mk id address)

theorem agrees_constant : constant.Agrees Constant.read := by
  refine (agrees_field .constantTag Reader.Agrees.byte).bind fun tag => ?_
  split
  next => exact (agrees_field .constantPayload (Reader.Agrees.number 2 UInt16.ofNat)).map _
  next => exact (agrees_field .constantPayload (Reader.Agrees.number 2 UInt16.ofNat)).map _
  next => exact (agrees_field .constantPayload (Reader.Agrees.number 4 UInt32.ofNat)).map _
  next => exact (agrees_field .constantPayload agrees_quad).map _
  next => exact (agrees_field .constantPayload (Reader.Agrees.number 2 (UInt16.ofNat · |>.toInt16))).map _
  next => exact (agrees_field .constantPayload (Reader.Agrees.number 2 (UInt16.ofNat · |>.toInt16))).map _
  next => exact (agrees_field .constantPayload (Reader.Agrees.number 4 (UInt32.ofNat · |>.toInt32))).map _
  next => exact (agrees_field .constantPayload (Reader.Agrees.number 8 (UInt64.ofNat · |>.toInt64))).map _
  next =>
    have hdouble := Reader.Agrees.number 8 fun n => Double.mk (UInt64.ofNat n)
    exact (agrees_field .constantPayload hdouble).map _
  next => exact (agrees_field .stringConstant Reader.Agrees.string).map _
  next => simpa [*] using Reader.Agrees.throw (LoadError.unknownConstantTag tag)

theorem agrees_readDistinct [BEq κ] {read : Reader LoadError α}
    {read' : RegisterMachine.Reader LoadError α} (hread : read.Agrees read') (key : α → κ)
    (duplicate : κ → LoadError) (seen : List κ) (n : Nat) :
    (readDistinct read key duplicate seen n).Agrees
      (RegisterMachine.Image.readDistinct read' key duplicate seen n) := by
  induction n generalizing seen with
  | zero => exact .pure []
  | succ n ih =>
    refine hread.bind fun entry => ?_
    by_cases hseen : seen.contains (key entry) = true
    · rw [if_pos hseen, if_pos hseen]
      exact .throw (duplicate (key entry))
    · rw [if_neg hseen, if_neg hseen]
      exact (ih (key entry :: seen)).bind fun entries => .pure (entry :: entries)

theorem agrees_readVersion : readVersion.Agrees RegisterMachine.Image.readVersion := by
  refine (agrees_field .versionWord agrees_version).bind fun version => ?_
  cases Version.check version Version.supported with
  | ok _ => exact .pure version
  | error e => exact .throw (LoadError.incompatible e)

theorem agrees_readDebugLevel : readDebugLevel.Agrees RegisterMachine.Image.readDebugLevel := by
  refine (agrees_field .debugLevel Reader.Agrees.byte).bind fun level => ?_
  cases DebugLevel.ofByte level with
  | ok debug => exact .pure debug
  | error e => exact .throw e

theorem agrees_readSections : readSections.Agrees RegisterMachine.Image.readSections :=
  (agrees_field .sectionCount agrees_quad).bind fun count =>
    agrees_readDistinct (agrees_field .sectionEntry agrees_label) _ _ [] count.toNat

theorem agrees_readInterrupts : readInterrupts.Agrees RegisterMachine.Image.readInterrupts :=
  (agrees_field .interruptCount agrees_quad).bind fun count =>
    agrees_readDistinct (agrees_field .interruptEntry agrees_handler) _ _ [] count.toNat

theorem agrees_readConstants : readConstants.Agrees RegisterMachine.Image.readConstants :=
  (agrees_field .constantCount agrees_quad).bind fun count => agrees_constant.replicate count.toNat

/-- The code stream is not longer than the image. -/
theorem agrees_readCode : readCode.Agrees RegisterMachine.Image.readCode := by
  refine (agrees_field .codeLength agrees_quad).bind fun length => ?_
  refine (Reader.Agrees.take (LoadError.truncated .code) length.toNat).bind_of_run
    fun {_ _} {code} hinput hrun => ?_
  obtain ⟨bs, rfl, rfl, -⟩ := (RegisterMachine.Reader.Reads.take _ _).spelled hrun
  have hcode : bs.length < Slot.limit := by
    rw [List.length_append] at hinput
    omega
  rw [Code.decode_eq hcode]
  cases RegisterMachine.Code.decode bs with
  | ok instructions => exact .pure instructions
  | error e => exact .throw (LoadError.code e)

theorem agrees_read : read.Agrees RegisterMachine.Image.read := by
  refine agrees_readVersion.bind fun version => agrees_readDebugLevel.bind fun debug =>
    agrees_readSections.bind fun sections => agrees_readInterrupts.bind fun interrupts =>
    agrees_readConstants.bind fun constants => (agrees_field .entry agrees_quad).bind fun entry =>
    agrees_readCode.bind fun instructions => Reader.Agrees.remaining.bind fun rest => ?_
  by_cases hrest : rest ≠ 0
  · rw [if_pos hrest, if_pos hrest]
    exact .throw (LoadError.trailing rest)
  · rw [if_neg hrest, if_neg hrest]
    exact .pure (RegisterMachine.Image.mk version debug sections interrupts constants entry instructions)

/-- No operation of the loader is undefined. -/
theorem load_eq {bytes : Bytes} (h : bytes.length < Slot.limit) :
    load bytes = some (RegisterMachine.Image.load bytes) := by
  rw [load, agrees_read.run bytes h]
  rfl

end

end RegisterMachine.Checked.Image

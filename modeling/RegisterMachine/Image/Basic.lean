import RegisterMachine.Image.Constant

namespace RegisterMachine

/-- How much the machine tells about a run. -/
inductive DebugLevel where
  | none
  | minimal
  | moderate
  | extreme
deriving DecidableEq, Repr, Inhabited

namespace DebugLevel

/-- The number of a level, which grows with what is told. -/
def toNat : DebugLevel → Nat
  | none => 0
  | minimal => 1
  | moderate => 2
  | extreme => 3

/-- The level with the given number. -/
def ofNat? : Nat → Option DebugLevel
  | 0 => some none
  | 1 => some minimal
  | 2 => some moderate
  | 3 => some extreme
  | _ => Option.none

/-- At least as much is told as at the given level. -/
def atLeast (level least : DebugLevel) : Bool :=
  least.toNat ≤ level.toNat

instance : Binary DebugLevel where
  encode level := [UInt8.ofNat level.toNat]
  decode := do
    let b ← Binary.decode (α := UInt8)
    match ofNat? b.toNat with
    | some level => pure level
    | Option.none => throw .invalidValue
  size _ := 1

/-- The level of a byte. -/
def ofByte (b : UInt8) : Except LoadError DebugLevel :=
  match ofNat? b.toNat with
  | some level => .ok level
  | Option.none => .error (.invalidDebugLevel b)

end DebugLevel

namespace Image

/-- A name for a place in the code. -/
structure Section where
  /-- The index of the instruction. -/
  address : UInt64
  name : String
deriving DecidableEq, Repr

instance : Binary Section where
  encode s := Binary.encode s.address ++ Binary.encode s.name
  decode := do
    let address ← Binary.decode
    let name ← Binary.decode
    pure ⟨address, name⟩
  size s := 8 + Binary.size s.name

/-- The handler of an interrupt. -/
structure Handler where
  /-- The interrupt that is handled. -/
  id : UInt64
  /-- The index of the handler's first instruction. -/
  address : UInt64
deriving DecidableEq, Repr

instance : Binary Handler where
  encode h := Binary.encode h.id ++ Binary.encode h.address
  decode := do
    let id ← Binary.decode
    let address ← Binary.decode
    pure ⟨id, address⟩
  size _ := 16

namespace Handler

/-- The index of the first instruction of the handler of an interrupt. Of several handlers the last one
counts. -/
def address? (handlers : List Handler) (id : UInt64) : Option UInt64 :=
  (handlers.reverse.find? (·.id == id)).map (·.address)

/-- The handlers without those behind which there is one of the same interrupt. -/
def dropShadowed : List Handler → List Handler
  | [] => []
  | [h] => [h]
  | h :: next :: rest =>
    if h.id = next.id then dropShadowed (next :: rest) else h :: dropShadowed (next :: rest)

end Handler

end Image

/-- A program ready to run. -/
structure Image where
  version : Version
  debug : DebugLevel
  sections : List Image.Section
  interrupts : List Image.Handler
  constants : List Constant
  /-- The index of the instruction to start with. -/
  entry : UInt64
  instructions : List Instruction
deriving DecidableEq

namespace Image

/-- The constant pool: the bytes of all constants, in the order of their declarations. -/
def pool (image : Image) : Bytes :=
  image.constants.flatMap Constant.poolBytes

def code (image : Image) : Bytes :=
  Code.encode image.instructions

/-- The index of the instruction that a section names. -/
def sectionAddress? (image : Image) (name : String) : Option UInt64 :=
  (image.sections.find? (·.name == name)).map (·.address)

/-- The handlers by ascending interrupt. Of several handlers of an interrupt the last one counts. -/
def interruptTable (image : Image) : List Handler :=
  Handler.dropShadowed (image.interrupts.mergeSort fun a b => a.id ≤ b.id)

/-- What to warn about when the image is loaded. -/
def warnings (image : Image) : List String :=
  image.version.warnings Version.supported

/-- A table: the number of entries, then the entries. -/
def encodeTable {α : Type} (encode : α → Bytes) (entries : List α) : Bytes :=
  Binary.encode (UInt64.ofNat entries.length) ++ entries.flatMap encode

/-- The bytes of an image: the version, the debug level, the tables of sections, interrupts and
constants, the entry and the code stream with its length. -/
def encode (image : Image) : Bytes :=
  Binary.encode image.version
    ++ Binary.encode image.debug
    ++ encodeTable Binary.encode image.sections
    ++ encodeTable Binary.encode image.interrupts
    ++ encodeTable Constant.encode image.constants
    ++ Binary.encode image.entry
    ++ Binary.encode image.code

end Image

end RegisterMachine

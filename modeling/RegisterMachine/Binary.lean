import RegisterMachine.Bytes
import RegisterMachine.Double

namespace RegisterMachine

/-- Reads from the front of a byte sequence; the unread bytes survive a failure. -/
abbrev Reader (ε α : Type) := ExceptT ε (StateM Bytes) α

namespace Reader

/-- The result on an input, with the bytes that were not read. -/
def run {ε α : Type} (r : Reader ε α) (input : Bytes) : Except ε α × Bytes := r input

/-- The next `n` bytes, or the given failure when there are fewer; then nothing is read. -/
def take {ε : Type} (short : ε) (n : Nat) : Reader ε Bytes := fun input =>
  if n ≤ input.length then (.ok (input.take n), input.drop n) else (.error short, input)

/-- Gives a failure another name. -/
def mapError {ε ε' α : Type} (f : ε → ε') (r : Reader ε α) : Reader ε' α := fun input =>
  match r.run input with
  | (.ok a, rest) => (.ok a, rest)
  | (.error e, rest) => (.error (f e), rest)

/-- The number of bytes not read yet. -/
def remaining {ε : Type} : Reader ε Nat := fun input => (.ok input.length, input)

/-- Reads `n` values one after the other, stopping at the first failure. -/
def replicate {ε α : Type} (n : Nat) (r : Reader ε α) : Reader ε (List α) :=
  match n with
  | 0 => pure []
  | n + 1 => do
    let a ← r
    let as ← replicate n r
    pure (a :: as)

end Reader

/-- Why a value could not be decoded. -/
inductive DecodeError where
  /-- The input ended before the value did. -/
  | endOfInput
  /-- The bytes stand for no value of the type. -/
  | invalidValue
deriving DecidableEq, Repr

namespace DecodeError

/-- The text shown for the error. -/
def message : DecodeError → String
  | endOfInput => "unexpected end of input"
  | invalidValue => "invalid value"

end DecodeError

/-- A type whose values have a binary form. -/
class Binary (α : Type) where
  /-- The bytes of a value. -/
  encode : α → Bytes
  /-- Reads a value from the front of the input. -/
  decode : Reader DecodeError α
  /-- The number of bytes of a value, found without writing them. -/
  size : α → Nat

namespace Binary

variable {α : Type}

/-- Decodes a value that has to be the whole input. -/
def ofBytes [Binary α] (input : Bytes) : Except DecodeError α :=
  match (decode (α := α)).run input with
  | (.ok a, []) => .ok a
  | (.ok _, _ :: _) => .error .invalidValue
  | (.error e, _) => .error e

/-- Numbers of a fixed width, most significant byte first. -/
@[reducible] def fixedWidth (width : Nat) (toNat : α → Nat) (ofNat : Nat → α) : Binary α where
  encode a := Bytes.ofNat width (toNat a)
  decode := (fun bs => ofNat bs.toNat) <$> Reader.take .endOfInput width
  size _ := width

instance : Binary UInt8 := fixedWidth 1 UInt8.toNat UInt8.ofNat

instance : Binary UInt16 := fixedWidth 2 UInt16.toNat UInt16.ofNat

instance : Binary UInt32 := fixedWidth 4 UInt32.toNat UInt32.ofNat

instance : Binary UInt64 := fixedWidth 8 UInt64.toNat UInt64.ofNat

instance : Binary Int8 := fixedWidth 1 (·.toUInt8.toNat) (UInt8.ofNat · |>.toInt8)

instance : Binary Int16 := fixedWidth 2 (·.toUInt16.toNat) (UInt16.ofNat · |>.toInt16)

instance : Binary Int32 := fixedWidth 4 (·.toUInt32.toNat) (UInt32.ofNat · |>.toInt32)

instance : Binary Int64 := fixedWidth 8 (·.toUInt64.toNat) (UInt64.ofNat · |>.toInt64)

/-- A double is written as its bit pattern. -/
instance : Binary Double := fixedWidth 8 (·.bits.toNat) (fun n => ⟨UInt64.ofNat n⟩)

/-- A length of 64 bits, then the bytes. -/
instance : Binary Bytes where
  encode bs := encode (UInt64.ofNat bs.length) ++ bs
  decode := do
    let length ← decode (α := UInt64)
    Reader.take .endOfInput length.toNat
  size bs := 8 + bs.length

/-- A length of 64 bits, then the text's UTF-8 bytes. -/
instance : Binary String where
  encode s := encode s.toUTF8.data.toList
  decode := do
    let bs ← decode (α := Bytes)
    match String.fromUTF8? ⟨bs.toArray⟩ with
    | some s => pure s
    | none => throw .invalidValue
  size s := 8 + s.utf8ByteSize

/-- The bytes alone: the size belongs to the type. -/
instance {n : Nat} : Binary (Vector UInt8 n) where
  encode v := v.toList
  decode := do
    let bs ← Reader.take .endOfInput n
    if h : bs.length = n then pure ⟨bs.toArray, by simpa using h⟩ else throw .endOfInput
  size _ := n

end Binary

end RegisterMachine

import RegisterMachine.Double.Shortest
import RegisterMachine.Image.Error

namespace RegisterMachine

/-- A typed constant. -/
inductive Constant where
  | u8 (v : UInt8)
  | u16 (v : UInt16)
  | u32 (v : UInt32)
  | u64 (v : UInt64)
  | i8 (v : Int8)
  | i16 (v : Int16)
  | i32 (v : Int32)
  | i64 (v : Int64)
  | float (v : Double)
  | string (s : String)
deriving DecidableEq

namespace Constant

/-- The byte in front of an encoded constant, which tells its type. -/
def tag : Constant → UInt8
  | u8 _ => 0x00
  | u16 _ => 0x01
  | u32 _ => 0x02
  | u64 _ => 0x03
  | i8 _ => 0x10
  | i16 _ => 0x11
  | i32 _ => 0x12
  | i64 _ => 0x13
  | float _ => 0x20
  | string _ => 0x30

/-- The bytes of a constant in the pool. -/
def poolBytes : Constant → Bytes
  | u8 v => Binary.encode v.toUInt16
  | u16 v => Binary.encode v
  | u32 v => Binary.encode v
  | u64 v => Binary.encode v
  | i8 v => Binary.encode v.toInt16
  | i16 v => Binary.encode v
  | i32 v => Binary.encode v
  | i64 v => Binary.encode v
  | float v => Binary.encode v
  | string s => s.toUTF8.data.toList

/-- The number of bytes of a constant in the pool. -/
def poolSize : Constant → Nat
  | u8 _ | u16 _ | i8 _ | i16 _ => 2
  | u32 _ | i32 _ => 4
  | u64 _ | i64 _ | float _ => 8
  | string s => s.utf8ByteSize

/-- The text of the value. -/
def text : Constant → String
  | u8 v => toString v.toNat
  | u16 v => toString v.toNat
  | u32 v => toString v.toNat
  | u64 v => toString v.toNat
  | i8 v => toString v.toInt
  | i16 v => toString v.toInt
  | i32 v => toString v.toInt
  | i64 v => toString v.toInt
  | float v => v.text
  | string s => s

/-- The bytes of a constant in an image: the tag, then the bytes of the pool, or the text with its
length. -/
def encode (c : Constant) : Bytes :=
  c.tag :: match c with
    | string s => Binary.encode s
    | _ => c.poolBytes

/-- Reads a constant. Of the two bytes of an eight-bit value only the low one counts. -/
def read : Reader LoadError Constant := do
  let tag ← Image.field (α := UInt8) .constantTag
  match tag with
  | 0x00 => (fun v => u8 v.toUInt8) <$> Image.field (α := UInt16) .constantPayload
  | 0x01 => u16 <$> Image.field .constantPayload
  | 0x02 => u32 <$> Image.field .constantPayload
  | 0x03 => u64 <$> Image.field .constantPayload
  | 0x10 => (fun v => i8 v.toInt8) <$> Image.field (α := Int16) .constantPayload
  | 0x11 => i16 <$> Image.field .constantPayload
  | 0x12 => i32 <$> Image.field .constantPayload
  | 0x13 => i64 <$> Image.field .constantPayload
  | 0x20 => float <$> Image.field .constantPayload
  | 0x30 => string <$> Image.field .stringConstant
  | other => throw (.unknownConstantTag other)

end Constant

end RegisterMachine

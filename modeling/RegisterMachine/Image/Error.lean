import RegisterMachine.Image.Version
import RegisterMachine.Instruction.Encoding

namespace RegisterMachine

namespace Image

/-- The parts of an image, in the order in which they are read. -/
inductive Field where
  | versionWord
  | debugLevel
  | sectionCount
  | sectionEntry
  | interruptCount
  | interruptEntry
  | constantCount
  | constantTag
  | constantPayload
  | stringConstant
  | entry
  | codeLength
  | code
deriving DecidableEq, Repr

/-- The name of a part in messages. -/
def Field.name : Field → String
  | versionWord => "compatibility word"
  | debugLevel => "debug level"
  | sectionCount => "section count"
  | sectionEntry => "section"
  | interruptCount => "interrupt count"
  | interruptEntry => "interrupt"
  | constantCount => "constant count"
  | constantTag => "constant tag"
  | constantPayload => "constant payload"
  | stringConstant => "string constant"
  | entry => "entry address"
  | codeLength => "instruction length"
  | code => "instructions"

end Image

/-- Why bytes are no image. -/
inductive LoadError where
  /-- The bytes end inside this part. -/
  | truncated (field : Image.Field)
  /-- This part holds bytes that are no value of its type. -/
  | malformed (field : Image.Field)
  /-- No type of constants has this tag. -/
  | unknownConstantTag (tag : UInt8)
  /-- The image is made for a machine of a later major version. -/
  | incompatible (e : Version.Incompatible)
  /-- No debug level has this number. -/
  | invalidDebugLevel (level : UInt8)
  /-- Two sections have the same name. -/
  | duplicateSection (name : String)
  /-- Two handlers are given for the same interrupt. -/
  | duplicateInterrupt (id : UInt64)
  /-- The code stream cannot be read. -/
  | code (e : CodeError)
  /-- There are bytes behind the code stream. -/
  | trailing (count : Nat)
deriving DecidableEq, Repr

namespace LoadError

/-- The text shown for the error. -/
def message : LoadError → String
  | truncated field => "image truncated while reading " ++ field.name
  | malformed field => "malformed " ++ field.name ++ " in image"
  | unknownConstantTag tag => "unknown constant type " ++ Hexadecimal.marked tag
  | incompatible e => e.message
  | invalidDebugLevel level => "invalid debug level " ++ toString level.toNat
  | duplicateSection name => "duplicate section `" ++ name ++ "`"
  | duplicateInterrupt id => "duplicate interrupt " ++ toString id.toNat
  | code e => e.message
  | trailing count => toString count ++ " unexpected bytes after the instruction stream"

end LoadError

namespace Image

/-- Reads one part of an image; a failure names the part. -/
def field {α : Type} [Binary α] (part : Field) : Reader LoadError α :=
  Reader.mapError
    (fun
      | .endOfInput => .truncated part
      | .invalidValue => .malformed part)
    Binary.decode

end Image

end RegisterMachine

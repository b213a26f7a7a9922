import RegisterMachine.Image.Basic
import RegisterMachine.Log

namespace RegisterMachine.Image

/-- Reads `n` entries whose keys have to differ; the first entry with a key seen before is the
error. -/
def readDistinct {α κ : Type} [BEq κ] (read : Reader LoadError α) (key : α → κ)
    (duplicate : κ → LoadError) (seen : List κ) : Nat → Reader LoadError (List α)
  | 0 => pure []
  | n + 1 => do
    let entry ← read
    if seen.contains (key entry) then throw (duplicate (key entry))
    let entries ← readDistinct read key duplicate (key entry :: seen) n
    pure (entry :: entries)

/-- Reads the version and checks it. -/
def readVersion : Reader LoadError Version := do
  let version ← field .versionWord
  match Version.check version Version.supported with
  | .ok _ => pure version
  | .error e => throw (.incompatible e)

def readDebugLevel : Reader LoadError DebugLevel := do
  let level ← field (α := UInt8) .debugLevel
  match DebugLevel.ofByte level with
  | .ok debug => pure debug
  | .error e => throw e

def readSections : Reader LoadError (List Section) := do
  let count ← field (α := UInt64) .sectionCount
  readDistinct (field .sectionEntry) Section.name .duplicateSection [] count.toNat

def readInterrupts : Reader LoadError (List Handler) := do
  let count ← field (α := UInt64) .interruptCount
  readDistinct (field .interruptEntry) Handler.id .duplicateInterrupt [] count.toNat

def readConstants : Reader LoadError (List Constant) := do
  let count ← field (α := UInt64) .constantCount
  Reader.replicate count.toNat Constant.read

def readCode : Reader LoadError (List Instruction) := do
  let length ← field (α := UInt64) .codeLength
  let code ← Reader.take (.truncated .code) length.toNat
  match Code.decode code with
  | .ok instructions => pure instructions
  | .error e => throw (.code e)

/-- Reads an image that has to be all of the input. -/
def read : Reader LoadError Image := do
  let version ← readVersion
  let debug ← readDebugLevel
  let sections ← readSections
  let interrupts ← readInterrupts
  let constants ← readConstants
  let entry ← field .entry
  let instructions ← readCode
  let rest ← Reader.remaining
  if rest ≠ 0 then throw (.trailing rest)
  pure { version, debug, sections, interrupts, constants, entry, instructions }

def load (bytes : Bytes) : Except LoadError Image :=
  (read.run bytes).1

/-- The tag of the loader's messages. -/
def logTag : Option String := some "loader"

/-- The summary of a loaded image. -/
def summary (image : Image) : String :=
  "decoded " ++ toString image.sections.length ++ " sections, "
    ++ toString image.interrupts.length ++ " interrupts, "
    ++ toString image.constants.length ++ " constants, "
    ++ toString image.instructions.length ++ " instructions"

/-- What loading logs: the warnings about the version as soon as it is read, and a summary if all
could be read. -/
def loadLog (bytes : Bytes) : List Log.Entry :=
  let warnings :=
    match (readVersion.run bytes).1 with
    | .ok version => version.warnings Version.supported
    | .error _ => []
  let done :=
    match load bytes with
    | .ok image => [⟨.debug, logTag, image.summary⟩]
    | .error _ => []
  warnings.map (fun w => ⟨.warn, logTag, w⟩) ++ done

end RegisterMachine.Image

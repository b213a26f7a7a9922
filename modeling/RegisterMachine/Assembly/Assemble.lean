import RegisterMachine.Assembly.Macro
import RegisterMachine.Assembly.Operand

namespace RegisterMachine.Assembly

/-- What becomes of a source text: an image, or the errors that stand in its way. -/
structure Assembled where
  outcome : Except (List Error) Image
  warnings : List String

namespace Assembled

/-- The image, if there is one. -/
def image? (a : Assembled) : Option Image :=
  match a.outcome with
  | .ok image => some image
  | .error _ => none

/-- The bytes of the image, if there is one. -/
def binary? (a : Assembled) : Option Bytes :=
  a.image?.map Image.encode

/-- The errors that stand in the way of an image. -/
def errors (a : Assembled) : List Error :=
  match a.outcome with
  | .ok _ => []
  | .error es => es

/-- There is an image. -/
def succeeded (a : Assembled) : Bool :=
  a.image?.isSome

/-- The number of instructions of the image, zero without one. -/
def instructionCount (a : Assembled) : Nat :=
  match a.image? with
  | some image => image.instructions.length
  | none => 0

/-- The number of bytes of the image, zero without one. -/
def byteCount (a : Assembled) : Nat :=
  match a.binary? with
  | some bytes => bytes.length
  | none => 0

end Assembled

/-- Warns about a value moved into a register that is restored before every instruction. -/
def moveWarnings (line : Nat) : Instruction → List String
  | .move dest _ =>
    if dest.isConstant then
      ["line " ++ toString line ++ ": mov into " ++ dest.name
        ++ " has no effect, constant registers are reset every cycle"]
    else []
  | _ => []

/-- The instructions of some lines of code up to the first error, and the warnings on the way. -/
def instructions (s : Scope) : List CodeLine → Except Error (List Instruction) × List String
  | [] => (.ok [], [])
  | l :: ls =>
    match s.instruction l with
    | .error cause => (.error (cause.onLine l.line), [])
    | .ok i =>
      let (rest, warnings) := instructions s ls
      ((i :: ·) <$> rest, moveWarnings l.line i ++ warnings)

/-- The sections of some labels, by index and then by name. -/
def sections (labels : List Label) : List Image.Section :=
  (labels.map fun l => ⟨UInt64.ofNat l.index, l.name⟩).mergeSort fun a b =>
    a.address < b.address || (a.address == b.address && a.name ≤ b.name)

/-- The handlers by ascending interrupt. -/
def handlers (hs : List (UInt64 × Nat)) : List Image.Handler :=
  (hs.map fun (id, index) => ⟨id, UInt64.ofNat index⟩).mergeSort fun a b => a.id ≤ b.id

/-- The image of a program whose parts are known. -/
def image (o : Outline) (d : Declarations) (entry : Nat) (is : List Instruction) : Image where
  version := Version.supported
  debug := d.debug.getD .none
  sections := sections o.labels
  interrupts := handlers o.handlers
  constants := d.constants.map (·.value)
  entry := UInt64.ofNat entry
  instructions := is

/-- Assembles the lines of a program without macros, after the given warnings. -/
def assembleLines (ls : List Line) (warnings : List String) : Assembled :=
  let o := Outline.ofLines ls
  if o.errors ≠ [] then ⟨.error o.errors, warnings⟩
  else
    let d := Declarations.ofOutline o
    match d.errors, d.entry with
    | [], some entry =>
      let (is, moves) := instructions ⟨o, d⟩ o.code
      match is with
      | .ok is => ⟨.ok (image o d entry is), warnings ++ moves⟩
      | .error e => ⟨.error [e], warnings ++ moves⟩
    | es, _ => ⟨.error es, warnings⟩

def assemble (source : String) : Assembled :=
  let x := Macro.expand source
  if x.errors = [] then assembleLines x.lines x.warnings else ⟨.error x.errors, x.warnings⟩

end RegisterMachine.Assembly

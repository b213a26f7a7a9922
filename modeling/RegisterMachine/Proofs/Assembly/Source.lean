import Mathlib
import RegisterMachine.Assembly.Assemble
import RegisterMachine.Proofs.Assembly.Numeral

namespace RegisterMachine.Assembly

inductive IntegerType where
  | u8
  | u16
  | u32
  | u64
  | i8
  | i16
  | i32
  | i64
deriving DecidableEq

namespace IntegerType

/-- The word that declares a constant of the type. -/
def directive : IntegerType → String
  | u8 => ".u8"
  | u16 => ".u16"
  | u32 => ".u32"
  | u64 => ".u64"
  | i8 => ".i8"
  | i16 => ".i16"
  | i32 => ".i32"
  | i64 => ".i64"

/-- The least value of the type. -/
def low : IntegerType → Int
  | u8 | u16 | u32 | u64 => 0
  | i8 => -2 ^ 7
  | i16 => -2 ^ 15
  | i32 => -2 ^ 31
  | i64 => -2 ^ 63

/-- The bound above the values of the type. -/
def bound : IntegerType → Int
  | u8 => 2 ^ 8
  | u16 => 2 ^ 16
  | u32 => 2 ^ 32
  | u64 => 2 ^ 64
  | i8 => 2 ^ 7
  | i16 => 2 ^ 15
  | i32 => 2 ^ 31
  | i64 => 2 ^ 63

/-- The constant of the type with a value in its range. -/
def constant : IntegerType → Int → Constant
  | u8, z => .u8 (UInt8.ofInt z)
  | u16, z => .u16 (UInt16.ofInt z)
  | u32, z => .u32 (UInt32.ofInt z)
  | u64, z => .u64 (UInt64.ofInt z)
  | i8, z => .i8 (Int8.ofInt z)
  | i16, z => .i16 (Int16.ofInt z)
  | i32, z => .i32 (Int32.ofInt z)
  | i64, z => .i64 (Int64.ofInt z)

end IntegerType

inductive ConstantType where
  | integer (t : IntegerType)
  | float
  | string
deriving DecidableEq

namespace ConstantType

/-- The word that declares a constant of the type. -/
def directive : ConstantType → String
  | integer t => t.directive
  | float => ".float"
  | string => ".string"

/-- A text that gives a value of the type, and the constant with this value. -/
inductive Gives : ConstantType → String → Constant → Prop
  | integer {t : IntegerType} {text : String} {z : Int} : Numeral.Denotes text.toList z →
      t.low ≤ z → z < t.bound → Gives (.integer t) text (t.constant z)
  | float {text : String} {d : Double} : Double.ofText? text = some d → Gives .float text (.float d)
  | string {s : String} : Gives .string ("\"" ++ s ++ "\"") (.string s)

end ConstantType

/-- A line that declares a constant. -/
structure ConstantLine where
  type : ConstantType
  name : String
  /-- What stands for the value. -/
  text : String
deriving DecidableEq

/-- A directive behind the first one. -/
inductive Declaration where
  | debug (level : String)
  | constant (c : ConstantLine)
deriving DecidableEq

namespace Declaration

/-- The row of tokens of a declaration. -/
def tokens : Declaration → List String
  | debug level => [".debug", level]
  | constant c => [c.type.directive, c.name, c.text]

/-- The text of the debug level that is declared. -/
def level? : Declaration → Option String
  | debug level => some level
  | constant _ => none

/-- The constant that is declared. -/
def constant? : Declaration → Option ConstantLine
  | debug _ => none
  | constant c => some c

end Declaration

/-- A line of code: a label, or a mnemonic with its operands. -/
inductive Statement where
  | label (name : String)
  | instruction (op : Opcode) (operands : List String)
deriving DecidableEq

namespace Statement

/-- The row of tokens of a line of code. -/
def tokens : Statement → List String
  | label name => [name ++ ":"]
  | instruction op operands => op.mnemonic :: operands

/-- The mnemonic and the operands of a line with an instruction. -/
def instruction? : Statement → Option (Opcode × List String)
  | label _ => none
  | instruction op operands => some (op, operands)

/-- The instructions among some lines of code. -/
def instructions (code : List Statement) : List (Opcode × List String) :=
  code.filterMap instruction?

/-- The labels among some lines of code, in front of which stand `index` instructions. -/
def labels (index : Nat) : List Statement → List Label
  | [] => []
  | label name :: code => ⟨name, index⟩ :: labels index code
  | instruction _ _ :: code => labels (index + 1) code

end Statement

/-- The code behind a label of this name handles the interrupt: its number is what follows the
mark. -/
def Label.Handles (name : String) (id : UInt64) : Prop :=
  ∃ text : String, name = "interrupt_" ++ text ∧ Numeral.Denotes text.toList id.toNat

/-- A program in assembly text without macros. -/
structure Source where
  /-- The label to start at. -/
  entry : String
  declarations : List Declaration
  code : List Statement
deriving DecidableEq

namespace Source

/-- The rows of tokens of a program: the entry, the declarations, `.code`, and the code. -/
def rows (p : Source) : List (List String) :=
  [".init", p.entry] :: p.declarations.map Declaration.tokens
    ++ [".code"] :: p.code.map Statement.tokens

/-- The texts of all debug levels that are declared. -/
def levels (p : Source) : List String :=
  p.declarations.filterMap Declaration.level?

/-- The constants, in the order of their declarations. -/
def constants (p : Source) : List ConstantLine :=
  p.declarations.filterMap Declaration.constant?

/-- The labels, each with the number of instructions before it. -/
def labels (p : Source) : List Label :=
  Statement.labels 0 p.code

def labelNames (p : Source) : List String :=
  p.labels.map Label.name

/-- The instructions, each with its operands as they are written. -/
def instructions (p : Source) : List (Opcode × List String) :=
  Statement.instructions p.code

/-- The label stands on one line of the code only, and this many instructions stand before it. -/
def LabelAt (p : Source) (name : String) (index : Nat) : Prop :=
  ∃ before after, p.code = before ++ .label name :: after ∧
    .label name ∉ before ∧ .label name ∉ after ∧
    (Statement.instructions before).length = index

/-- The constant is declared with this value, behind constants with those values. -/
def ConstantAt (p : Source) (name : String) (before : List Constant) (value : Constant) : Prop :=
  ∃ cs c rest, p.constants = cs ++ c :: rest ∧ c.name = name ∧ c.type.Gives c.text value ∧
    List.Forall₂ (fun (c : ConstantLine) value => c.type.Gives c.text value) cs before

/-- An operand as it is written, and what it stands for. -/
inductive Resolves (p : Source) : String → Operand → Prop
  | register (r : Register) : p.Resolves r.name (.register r)
  | target {name : String} {index : Nat} : p.LabelAt name index →
      p.Resolves name (.target (UInt64.ofNat index))
  | literal {text : String} {z : Int} : Numeral.Denotes text.toList z → -2 ^ 63 ≤ z → z < 2 ^ 64 →
      p.Resolves ("@" ++ text) (.immediate (UInt64.ofInt z))
  | labelAddress {name : String} {index : Nat} : p.LabelAt name index →
      p.Resolves ("&" ++ name) (.immediate (UInt64.ofNat index))
  | constantAddress {name : String} {before : List Constant} {value : Constant} :
      name ∉ p.labelNames → p.ConstantAt name before value →
      p.Resolves ("&" ++ name) (.immediate (UInt64.ofNat (before.flatMap Constant.poolBytes).length))
  | labelSize {name : String} : name ∈ p.labelNames → p.Resolves ("#" ++ name) (.immediate 8)
  | constantSize {name : String} {before : List Constant} {value : Constant} :
      name ∉ p.labelNames → p.ConstantAt name before value →
      p.Resolves ("#" ++ name) (.immediate (UInt64.ofNat value.poolBytes.length))
  | number {text : String} {n : UInt64} : Numeral.Denotes text.toList n.toNat →
      p.Resolves text (.number n)
  | markedNumber {text : String} {n : UInt64} : Numeral.Denotes text.toList n.toNat →
      p.Resolves ("@" ++ text) (.number n)

/-- There is one instruction for each that is written, in this order, with its opcode and with what
its operands stand for. -/
def Builds (p : Source) (is : List Instruction) : Prop :=
  List.Forall₂ (fun (l : Opcode × List String) (i : Instruction) =>
    i.opcode = l.1 ∧ List.Forall₂ p.Resolves l.2 i.operands) p.instructions is

/-- What is asked of a program besides the form of its rows. -/
structure WellFormed (p : Source) : Prop where
  entry : p.entry ∈ p.labelNames
  /-- The debug level is declared once at most. -/
  levels_length : p.levels.length ≤ 1
  level : ∀ text ∈ p.levels, ∃ z, Numeral.Denotes text.toList z ∧ 0 ≤ z ∧ z ≤ 3
  constant_name : ∀ c ∈ p.constants, isIdentifier c.name.toList
  constant_value : ∀ c ∈ p.constants, ∃ value, c.type.Gives c.text value
  constants_nodup : (p.constants.map ConstantLine.name).Nodup
  /-- No name is that of a constant and of a label. -/
  constant_label : ∀ c ∈ p.constants, c.name ∉ p.labelNames
  label_name : ∀ name ∈ p.labelNames, isIdentifier name.toList
  labels_nodup : p.labelNames.Nodup
  /-- No two labels handle the same interrupt. -/
  handlers : p.labelNames.Pairwise fun a b => ∀ id, Label.Handles a id → ¬ Label.Handles b id
  /-- Every instruction has the operands that its opcode asks for. -/
  operands : ∀ i ∈ p.instructions, List.Forall₂
    (fun kind token => ∃ o : Operand, o.kind = kind ∧ p.Resolves token o) i.1.operandKinds i.2

/-- The tables of an image are those of the program. -/
structure Describes (p : Source) (image : Image) : Prop where
  /-- There is one section for each label. -/
  sections : (image.sections.map fun s => (s.name, s.address.toNat)).Perm
    (p.labels.map fun l => (l.name, l.index))
  sections_ordered : image.sections.Pairwise fun a b =>
    a.address < b.address ∨ a.address = b.address ∧ a.name < b.name
  /-- There is one handler for each label that handles an interrupt. -/
  interrupts : ∀ id index, (∃ h ∈ image.interrupts, h.id = id ∧ h.address.toNat = index) ↔
    ∃ l ∈ p.labels, Label.Handles l.name id ∧ l.index = index
  interrupts_ordered : image.interrupts.Pairwise fun a b => a.id < b.id
  constants : List.Forall₂ (fun (c : ConstantLine) value => c.type.Gives c.text value) p.constants
    image.constants
  debug : p.levels = [] ∧ image.debug = .none ∨
    ∃ text, p.levels = [text] ∧ Numeral.Denotes text.toList image.debug.toNat
  entry : p.LabelAt p.entry image.entry.toNat

end Source

/-- The lines with tokens are these rows of tokens, and no line leaves a quote open. -/
def Rows (ls : List Line) (rows : List (List String)) : Prop :=
  (∀ l ∈ ls, Even (l.text.count '"')) ∧
    (ls.filterMap fun l => tokens? l.text).filter (· ≠ []) = rows

end RegisterMachine.Assembly

import RegisterMachine.Assembly.Outline
import RegisterMachine.Double.Nearest
import RegisterMachine.Image.Basic

namespace RegisterMachine.Assembly

/-- A constant with its name. -/
structure NamedConstant where
  name : String
  value : Constant
deriving DecidableEq

/-- What the directives so far declare. -/
structure Declarations where
  /-- The index of the instruction to start with. -/
  entry : Option Nat := none
  debug : Option DebugLevel := none
  /-- The constants, in the order of their declarations. -/
  constants : List NamedConstant := []
  errors : List Error := []

namespace Declarations

/-- The value of an integer constant whose type has the given range. -/
def integer (low high : Int) (head value : String) : Except Cause Int :=
  match Numeral.parseWithin? low high value.toList with
  | some z => .ok z
  | none => .error (.constantRange value head)

/-- The constant that a directive declares with a value. -/
def constant (head value : String) : Except Cause Constant :=
  match head with
  | ".string" =>
    match unquote? value with
    | some text => .ok (.string (String.ofList text))
    | none => .error (.notString value)
  | ".float" =>
    match Double.ofText? value with
    | some d => .ok (.float d)
    | none => .error (.notFloat value)
  | ".u8" => (fun z => .u8 (UInt8.ofInt z)) <$> integer 0 0xFF head value
  | ".u16" => (fun z => .u16 (UInt16.ofInt z)) <$> integer 0 0xFFFF head value
  | ".u32" => (fun z => .u32 (UInt32.ofInt z)) <$> integer 0 0xFFFFFFFF head value
  | ".u64" => (fun z => .u64 (UInt64.ofInt z)) <$> integer 0 0xFFFFFFFFFFFFFFFF head value
  | ".i8" => (fun z => .i8 (Int8.ofInt z)) <$> integer (-0x80) 0x7F head value
  | ".i16" => (fun z => .i16 (Int16.ofInt z)) <$> integer (-0x8000) 0x7FFF head value
  | ".i32" => (fun z => .i32 (Int32.ofInt z)) <$> integer (-0x80000000) 0x7FFFFFFF head value
  | ".i64" => (fun z => .i64 (Int64.ofInt z)) <$> integer (-0x8000000000000000) 0x7FFFFFFFFFFFFFFF head value
  | _ => .error (.directive head)

/-- The debug level that an argument names. -/
def debugLevel (argument : String) : Except Cause DebugLevel :=
  match Numeral.parseWithin? 0 3 argument.toList with
  | some z =>
    match DebugLevel.ofNat? z.toNat with
    | some level => .ok level
    | none => .error (.debugRange argument)
  | none => .error (.debugRange argument)

/-- The declarations with the entry set; only the first directive may do so. -/
def setEntry (o : Outline) (d : Declarations) (isFirst : Bool) (head : String)
    (arguments : List String) : Except Cause Declarations :=
  if isFirst = false then .error .initNotFirst
  else
    match arguments with
    | [name] =>
      match o.label? name with
      | some index => .ok { d with entry := some index }
      | none => .error (.labelUnknown name)
    | _ => .error (.argumentCount head 1 arguments.length)

/-- The declarations with the debug level set; this may happen once. -/
def setDebug (d : Declarations) (head : String) (arguments : List String) :
    Except Cause Declarations :=
  match arguments with
  | [argument] =>
    if d.debug.isSome then .error .debugTwice
    else do
      let level ← debugLevel argument
      return { d with debug := some level }
  | _ => .error (.argumentCount head 1 arguments.length)

def addConstant (o : Outline) (d : Declarations) (head : String) (arguments : List String) :
    Except Cause Declarations :=
  match arguments with
  | [name, text] =>
    if isIdentifier name.toList = false then .error (.constantName name)
    else do
      let value ← constant head text
      if d.constants.any (·.name == name) || (o.label? name).isSome then
        throw (.constantTwice name)
      return { d with constants := d.constants ++ [⟨name, value⟩] }
  | _ => .error (.argumentCount head 2 arguments.length)

/-- The declarations with one more directive. -/
def add (o : Outline) (d : Declarations) (isFirst : Bool) (directive : Directive) :
    Except Cause Declarations :=
  match directive.head with
  | ".init" => d.setEntry o isFirst directive.head directive.arguments
  | ".debug" => d.setDebug directive.head directive.arguments
  | head => d.addConstant o head directive.arguments

/-- The declarations after one more directive, which may be wrong. -/
def step (o : Outline) (d : Declarations) (isFirst : Bool) (directive : Directive) :
    Declarations :=
  match d.add o isFirst directive with
  | .ok d => d
  | .error cause => { d with errors := d.errors ++ [cause.onLine directive.line] }

/-- What is declared when the directives end. -/
def finish (d : Declarations) : Declarations :=
  if d.entry = none ∧ d.errors = [] then { d with errors := [Cause.noInit.onLine 0] } else d

/-- The declarations of a program. -/
def ofOutline (o : Outline) : Declarations :=
  finish <| match o.directives with
    | [] => {}
    | first :: rest => rest.foldl (fun d => d.step o false) (step o {} true first)

/-- The number of bytes of some constants in the pool. -/
def poolSize : List NamedConstant → Nat
  | [] => 0
  | c :: rest => c.value.poolSize + poolSize rest

/-- The place of a constant in the pool: the number of bytes of the constants before it. -/
def address? (d : Declarations) (name : String) : Option Nat :=
  if d.constants.any (·.name == name) then
    some (poolSize (d.constants.takeWhile (·.name != name)))
  else none

/-- The number of bytes of a constant in the pool. -/
def size? (d : Declarations) (name : String) : Option Nat :=
  (d.constants.find? (·.name == name)).map (·.value.poolSize)

end Declarations

end RegisterMachine.Assembly

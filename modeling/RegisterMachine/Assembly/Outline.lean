import RegisterMachine.Assembly.Error
import RegisterMachine.Assembly.Line
import RegisterMachine.Numeral
import RegisterMachine.Opcode

namespace RegisterMachine.Assembly

/-- A line that starts with a directive. -/
structure Directive where
  line : Nat
  head : String
  arguments : List String
deriving DecidableEq, Repr

/-- A line that starts with a mnemonic. -/
structure CodeLine where
  line : Nat
  opcode : Opcode
  operands : List String
deriving DecidableEq, Repr

/-- A name for a place in the code. -/
structure Label where
  name : String
  /-- The number of instructions before the label. -/
  index : Nat
deriving DecidableEq, Repr

namespace Label

/-- What the name of a label starts with that handles an interrupt. -/
def handlerMark : String := "interrupt_"

/-- The interrupt that the code behind a label of this name handles: its number is the rest of the
name. -/
def interrupt? (name : String) : Option UInt64 :=
  if handlerMark.toList.isPrefixOf name.toList then
    Numeral.index? (name.toList.drop handlerMark.toList.length)
  else none

end Label

/-- What is known of a program after some of its lines. -/
structure Outline where
  /-- The start of the code has been seen. -/
  inCode : Bool := false
  directives : List Directive := []
  code : List CodeLine := []
  labels : List Label := []
  /-- Interrupts with the index of their handler. -/
  handlers : List (UInt64 × Nat) := []
  errors : List Error := []

namespace Outline

/-- The line that starts the code. -/
def codeDirective : String := ".code"

def addError (o : Outline) (line : Nat) (cause : Cause) : Outline :=
  { o with errors := o.errors ++ [cause.onLine line] }

/-- One more line that starts with a point. -/
def addDirective (o : Outline) (line : Nat) (head : String) (arguments : List String) : Outline :=
  if head = codeDirective then
    let o' := { o with inCode := true }
    if o.inCode then o'.addError line .secondCode
    else if arguments = [] then o' else o'.addError line .codeArguments
  else if o.inCode then o.addError line (.directiveInCode head)
  else { o with directives := o.directives ++ [⟨line, head, arguments⟩] }

/-- One more label. A label that names an interrupt which has a handler is an error, but a label
nevertheless. -/
def addLabel (o : Outline) (line : Nat) (name : String) (arguments : List String) : Outline :=
  if isIdentifier name.toList = false then o.addError line (.labelName name)
  else if arguments ≠ [] then o.addError line (.labelNotAlone name)
  else if o.labels.any (·.name == name) then o.addError line (.labelTwice name)
  else
    let index := o.code.length
    let o := { o with labels := o.labels ++ [⟨name, index⟩] }
    match Label.interrupt? name with
    | none => o
    | some id =>
      if o.handlers.any (·.1 == id) then o.addError line (.handlerTwice id)
      else { o with handlers := o.handlers ++ [(id, index)] }

/-- One more line, given by its tokens. -/
def addTokens (o : Outline) (line : Nat) (head : String) (arguments : List String) : Outline :=
  if head.toList.head? = some '.' then o.addDirective line head arguments
  else if o.inCode = false then o.addError line (.beforeCode head)
  else if head.toList.getLast? = some ':' then
    o.addLabel line (String.ofList head.toList.dropLast) arguments
  else
    match Opcode.ofMnemonic? head with
    | some op => { o with code := o.code ++ [⟨line, op, arguments⟩] }
    | none => o.addError line (.mnemonic head)

def addLine (o : Outline) (l : Line) : Outline :=
  match tokens? l.text with
  | none => o.addError l.number .openString
  | some [] => o
  | some (head :: arguments) => o.addTokens l.number head arguments

/-- What is known when the text ends. -/
def finish (o : Outline) : Outline :=
  if o.inCode then o else o.addError 0 .noCode

/-- The outline of a program. -/
def ofLines (ls : List Line) : Outline :=
  (ls.foldl addLine {}).finish

/-- The number of instructions before a label. -/
def label? (o : Outline) (name : String) : Option Nat :=
  (o.labels.find? (·.name == name)).map (·.index)

end Outline

end RegisterMachine.Assembly

namespace RegisterMachine.Assembly

inductive ErrorKind where
  | malformedDirective
  | malformedMacro
  | duplicateLabel
  | duplicateConstant
  | unknownLabel
  | unknownMnemonic
  | invalidRegister
  | valueOutOfRange
  | missingInitOrCode
deriving DecidableEq, Repr

/-- The name of a kind in messages. -/
def ErrorKind.text : ErrorKind → String
  | malformedDirective => "malformed directive"
  | malformedMacro => "malformed macro"
  | duplicateLabel => "duplicate label"
  | duplicateConstant => "duplicate constant"
  | unknownLabel => "unknown label"
  | unknownMnemonic => "unknown mnemonic"
  | invalidRegister => "invalid register"
  | valueOutOfRange => "value out of range"
  | missingInitOrCode => "missing .init or .code"

/-- An error on a line of the source text. -/
structure Error where
  kind : ErrorKind
  /-- The line, counted from one; zero stands for the file as a whole. -/
  line : Nat
  detail : String
deriving DecidableEq, Repr

namespace Error

/-- The error without its line. -/
def message (e : Error) : String :=
  e.kind.text ++ ": " ++ e.detail

/-- The error with its line in front. -/
def text (e : Error) : String :=
  "line " ++ toString e.line ++ ": " ++ e.message

end Error

/-- Everything that can be wrong in assembly text. -/
inductive Cause where
  /-- A macro definition has a string without end. -/
  | openStringInMacro
  /-- A macro definition does not start as it should. -/
  | macroHeader (text : String)
  /-- The name of a macro is no identifier. -/
  | macroName (name : String)
  /-- A line of a macro holds no string or too much. -/
  | macroLine (name : String)
  /-- A line of a macro is no string. -/
  | macroLiteral (name : String)
  /-- Something else than the continuation mark follows a line of a macro. -/
  | macroContinuation (name : String)
  /-- The text ends where another line of a macro should follow. -/
  | macroEnd (name : String)
  /-- A macro with this name is there already. -/
  | macroTwice (name : String)
  /-- A macro is used that is not there. -/
  | macroUnknown (name : String)
  /-- A line has a string without end. -/
  | openString
  /-- The code starts a second time. -/
  | secondCode
  /-- Something follows the start of the code on its line. -/
  | codeArguments
  /-- A directive stands behind the start of the code. -/
  | directiveInCode (head : String)
  /-- Something else than a directive stands before the start of the code. -/
  | beforeCode (head : String)
  /-- The code never starts. -/
  | noCode
  /-- The name of a label is no identifier. -/
  | labelName (name : String)
  /-- Something follows a label on its line. -/
  | labelNotAlone (name : String)
  /-- A label with this name is there already. -/
  | labelTwice (name : String)
  /-- An interrupt has a handler already. -/
  | handlerTwice (id : UInt64)
  /-- No opcode has this mnemonic. -/
  | mnemonic (head : String)
  /-- The entry is not given first. -/
  | initNotFirst
  /-- The entry is not given. -/
  | noInit
  /-- A directive has too many or too few arguments. -/
  | argumentCount (directive : String) (expected actual : Nat)
  /-- The debug level is given a second time. -/
  | debugTwice
  /-- The debug level is not one of the four. -/
  | debugRange (argument : String)
  /-- The name of a constant is no identifier. -/
  | constantName (name : String)
  /-- A label or a constant with this name is there already. -/
  | constantTwice (name : String)
  /-- There is no such directive. -/
  | directive (head : String)
  /-- A text constant is not given as a string. -/
  | notString (value : String)
  /-- A float constant is not given as a number. -/
  | notFloat (value : String)
  /-- An integer constant does not fit its type. -/
  | constantRange (value directive : String)
  /-- A label is used that is not there. -/
  | labelUnknown (name : String)
  /-- A name is used that stands neither for a label nor for a constant. -/
  | nameUnknown (name : String)
  /-- An instruction has too many or too few operands. -/
  | operandCount (mnemonic : String) (expected actual : Nat)
  /-- An operand is no register. -/
  | notRegister (operand : String)
  /-- A value has no mark that tells how to read it. -/
  | unmarkedValue (operand : String)
  /-- A value does not fit into 64 bits. -/
  | valueRange (operand : String)
  /-- The number of a system call or of a debug mark is none. -/
  | numberRange (operand : String)
deriving DecidableEq, Repr

namespace Cause

/-- The kind of error that a cause makes. -/
def kind : Cause → ErrorKind
  | openStringInMacro | macroHeader _ | macroName _ | macroLine _ | macroLiteral _
  | macroContinuation _ | macroEnd _ | macroTwice _ | macroUnknown _ => .malformedMacro
  | openString | secondCode | codeArguments | directiveInCode _ | beforeCode _ | labelName _
  | labelNotAlone _ | initNotFirst | argumentCount .. | debugTwice | constantName _ | directive _
  | notString _ | operandCount .. => .malformedDirective
  | noCode | noInit => .missingInitOrCode
  | labelTwice _ | handlerTwice _ => .duplicateLabel
  | mnemonic _ => .unknownMnemonic
  | constantTwice _ => .duplicateConstant
  | labelUnknown _ | nameUnknown _ => .unknownLabel
  | notRegister _ => .invalidRegister
  | debugRange _ | notFloat _ | constantRange .. | unmarkedValue _ | valueRange _
  | numberRange _ => .valueOutOfRange

/-- A piece of source text as it stands in messages. -/
def quoted (s : String) : String := "`" ++ s ++ "`"

/-- The wording of a cause. -/
def detail : Cause → String
  | openStringInMacro | openString => "unterminated string literal (missing closing quote)"
  | macroHeader text => quoted text
  | macroName name => "invalid macro name " ++ quoted name
  | macroLine name => quoted name ++ ": continuation malformation"
  | macroLiteral name => quoted name ++ ": invalid string literal"
  | macroContinuation name => quoted name ++ ": expected '\\' as the last piece of the line"
  | macroEnd name => quoted name ++ ": file ends inside the macro"
  | macroTwice name => quoted name ++ " is already defined"
  | macroUnknown name => "unknown macro " ++ quoted name
  | secondCode => "second .code directive"
  | codeArguments => ".code takes no arguments"
  | directiveInCode head => "directive " ++ quoted head ++ " after .code"
  | beforeCode head => quoted head ++ " appears before .code"
  | noCode => "no .code directive"
  | labelName name => "invalid label name " ++ quoted name
  | labelNotAlone name => "label " ++ quoted name ++ " must stand alone on its line"
  | labelTwice name => "label " ++ quoted name ++ " is already defined"
  | handlerTwice id => "interrupt " ++ toString id.toNat ++ " already has a handler"
  | mnemonic head => quoted head
  | initNotFirst => ".init must be the first directive"
  | noInit => "no .init directive"
  | argumentCount head expected actual =>
    head ++ " expects " ++ toString expected ++ " arguments, got " ++ toString actual
  | debugTwice => "debug level is already set"
  | debugRange argument => "debug level " ++ quoted argument ++ " is not 0-3"
  | constantName name => "invalid constant name " ++ quoted name
  | constantTwice name => quoted name ++ " is already defined"
  | directive head => "unknown directive " ++ quoted head
  | notString value => quoted value ++ " is not a string literal"
  | notFloat value => quoted value ++ " is not a float"
  | constantRange value head => quoted value ++ " does not fit " ++ head
  | labelUnknown name => "label " ++ quoted name ++ " is not defined"
  | nameUnknown name => quoted name ++ " is neither a label nor a constant"
  | operandCount head expected actual =>
    quoted head ++ " expects " ++ toString expected ++ " operands, got " ++ toString actual
  | notRegister operand => quoted operand ++ " is not a register"
  | unmarkedValue operand => "immediate " ++ quoted operand ++ " needs an @, & or # prefix"
  | valueRange operand => quoted operand ++ " is not a 64-bit integer"
  | numberRange operand => quoted operand ++ " is not a valid id"

/-- The error that a cause makes on a line. -/
def onLine (cause : Cause) (line : Nat) : Error :=
  ⟨cause.kind, line, cause.detail⟩

end Cause

end RegisterMachine.Assembly

import RegisterMachine.CommandLine.Assembler
import RegisterMachine.CommandLine.Runner

namespace RegisterMachine.CommandLine

/-- An error of the system as an error about a file. Some of its numbers come with a minus sign. -/
def FileError.ofSystem : IO.Error → FileError
  | .noFileOrDirectory _ number text | .alreadyExists _ number text
  | .invalidArgument _ number text | .permissionDenied _ number text
  | .resourceExhausted _ number text | .inappropriateType _ number text
  | .noSuchThing _ number text | .interrupted _ number text | .otherError number text
  | .resourceBusy number text | .resourceVanished number text | .unsupportedOperation number text
  | .hardwareFault number text | .unsatisfiedConstraints number text
  | .illegalOperation number text | .protocolError number text | .timeExpired number text =>
    .ofNumber number.toInt32.toInt.natAbs text
  | e => .ofNumber 0 (toString e)

/-- An action whose failure is a value. -/
def attempt {α : Type} (action : IO α) : IO (Except FileError α) := do
  try
    return .ok (← action)
  catch e =>
    return .error (.ofSystem e)

/-- The host with the files of the system, its output, and its error output for the log. -/
def system : Host IO where
  read path := attempt do return (← IO.FS.readBinFile path).data.toList
  write path bytes := attempt (IO.FS.writeBinFile path ⟨bytes.toArray⟩)
  print text := IO.print text
  note text := IO.eprint text

/-- The command with a name. -/
def command (name : String) : List String → IO UInt8 :=
  if name = "assembler" then Assembler.run system name else Runner.run system name

/-- Runs the command whose name the path of the program ends in. -/
def runAs (path : String) (arguments : List String) : IO UInt32 := do
  return (← command ((Path.name? path).getD path) arguments).toUInt32

end RegisterMachine.CommandLine

/-- Runs the command under whose name the program is called. -/
def main (arguments : List String) : IO UInt32 := do
  RegisterMachine.CommandLine.runAs (← IO.appPath).toString arguments

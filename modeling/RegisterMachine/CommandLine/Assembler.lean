import RegisterMachine.Assembly.Diagnostic
import RegisterMachine.CommandLine.Host
import RegisterMachine.CommandLine.Path
import RegisterMachine.Text.Column

namespace RegisterMachine.CommandLine.Assembler

open Assembly (Assembled)

/-- How the command is used. -/
def usage (program : String) : String :=
  "Skiff Assembler\n\n"
    ++ "USAGE:\n"
    ++ "    " ++ program ++ " <input.asm> [OPTIONS]\n\n"
    ++ "ARGS:\n"
    ++ "    <input.asm>    Assembly source file to compile\n\n"
    ++ "OPTIONS:\n"
    ++ "    -o, --output <file>     Output file path (defaults to <input>.bin)\n"
    ++ "    -s, --stats             Print instruction, byte, error and warning counts\n"
    ++ "    -h, --help              Print this help message\n\n"
    ++ "EXAMPLES:\n"
    ++ "    # Compile to default output name\n"
    ++ "    " ++ program ++ " program.asm\n\n"
    ++ "    # Compile with explicit output\n"
    ++ "    " ++ program ++ " program.asm -o output.bin\n"

/-- What the arguments after the input ask for. -/
structure Options where
  /-- The file to write, if it is named. -/
  output : Option String := none
  /-- The counts are printed. -/
  stats : Bool := false
deriving DecidableEq, Repr

/-- Why the arguments make no sense. -/
inductive Refusal where
  /-- An option at the end that needs an argument. -/
  | noArgument (option : String)
  | unexpected (argument : String)
deriving DecidableEq, Repr

/-- The options with what some more arguments ask for. -/
def Options.read (o : Options) : List String → Except Refusal Options
  | [] => .ok o
  | argument :: rest =>
    if argument = "--output" ∨ argument = "-o" then
      match rest with
      | [] => .error (.noArgument argument)
      | file :: rest => read { o with output := some file } rest
    else if argument = "--stats" ∨ argument = "-s" then read { o with stats := true } rest
    else .error (.unexpected argument)

/-- The file that is written for an input if no other is named. -/
def defaultOutput (input : String) : String :=
  Path.withExtension input "bin"

/-- The counts of an assembly, one in each line. -/
def statsTable (a : Assembled) : String :=
  String.join (
    [("instructions", a.instructionCount), ("bytes", a.byteCount), ("errors", a.errors.length),
      ("warnings", a.warnings.length)].map fun (name, count) =>
        Text.flushLeft 13 name ++ Text.flushRight 10 (toString count) ++ "\n")

variable {m : Type → Type} [Monad m] (host : Host m)

/-- Writes what has been assembled. -/
def save (input output : String) (a : Assembled) : m UInt8 := do
  match a.binary? with
  | none =>
    host.fail {} ("Assembly failed with " ++ toString a.errors.length
      ++ " error(s), no binary written")
  | some bytes =>
    match ← host.write output bytes with
    | .error e => host.fail {} ("Failed to write " ++ output ++ ": " ++ e.message)
    | .ok _ =>
      host.info {} ("Compiled " ++ input ++ " -> " ++ output ++ " ("
        ++ toString a.instructionCount ++ " instructions, " ++ toString bytes.length ++ " bytes, "
        ++ toString a.warnings.length ++ " warnings)")
      pure 0

/-- The directory of an output that is not there. -/
def missingDirectory? (output : String) : m (Option String) := do
  match Path.parent? output with
  | none => pure none
  | some directory =>
    if directory = "" then pure none
    else if ← host.isDirectory directory then pure none
    else pure (some directory)

/-- Assembles an input. -/
def assembleFile (input : String) (o : Options) : m UInt8 := do
  if !(← host.isFile input) then
    return ← host.fail {} ("Input file does not exist: " ++ input)
  let output := o.output.getD (defaultOutput input)
  if let some directory ← missingDirectory? host output then
    return ← host.fail {} ("Output directory does not exist: " ++ directory)
  match ← host.readText input with
  | .error message => host.fail {} message
  | .ok source =>
    let a := Assembly.assemble source
    host.logAll {} (Assembly.assemblyLog input source a)
    if o.stats then host.print (statsTable a)
    save host input output a

/-- The command on its arguments; the answer is its exit code. -/
def run (program : String) : List String → m UInt8
  | [] => do
    host.info {} (usage program)
    pure 1
  | input :: arguments => do
    if isHelp input then
      host.info {} (usage program)
      return 0
    match Options.read {} arguments with
    | .error (.noArgument option) => host.fail {} (option ++ " requires an argument")
    | .error (.unexpected argument) => refuse host {} (usage program) argument
    | .ok o => assembleFile host input o

end RegisterMachine.CommandLine.Assembler

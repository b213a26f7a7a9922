import RegisterMachine.Assembly.Diagnostic
import RegisterMachine.CommandLine.Host
import RegisterMachine.CommandLine.Path
import RegisterMachine.Image.Loader
import RegisterMachine.Machine.Delivery
import RegisterMachine.Machine.Syscall
import RegisterMachine.Text.Column

namespace RegisterMachine.CommandLine.Runner

/-- How the command is used. -/
def usage (program : String) : String :=
  "Skiff Virtual Machine\n\n"
    ++ "USAGE:\n"
    ++ "    " ++ program ++ " <file> [OPTIONS]\n\n"
    ++ "ARGS:\n"
    ++ "    <file>    Binary image, or assembly source ending in .asm\n\n"
    ++ "OPTIONS:\n"
    ++ "    -s, --stats    Print run statistics after execution\n"
    ++ "    -q, --quiet    Only log errors\n"
    ++ "    -h, --help     Print this help message\n"

/-- What the arguments after the input ask for. -/
structure Options where
  /-- The statistics are printed. -/
  stats : Bool := false
  /-- Only errors are logged. -/
  quiet : Bool := false
deriving DecidableEq, Repr

namespace Options

/-- The options with what some more arguments ask for, and the first argument without a meaning;
nothing behind it counts. -/
def read (o : Options) : List String → Options × Option String
  | [] => (o, none)
  | argument :: rest =>
    if argument = "--stats" ∨ argument = "-s" then read { o with stats := true } rest
    else if argument = "--quiet" ∨ argument = "-q" then read { o with quiet := true } rest
    else (o, some argument)

/-- What the log shows. -/
def settings (o : Options) : Log.Settings :=
  { least := if o.quiet then .error else .info }

end Options

/-- The statistics of a run between two rules. -/
def statsTable (stats : Stats) : String :=
  let width := ((stats.toList.map (·.1.length)).max?).getD 0
  let rule := String.ofList (List.replicate (width + 16) '-') ++ "\n"
  let rows := stats.toList.map fun (name, count) =>
    Text.flushLeft width name ++ " " ++ Text.flushRight 15 (toString count.toNat) ++ "\n"
  rule ++ String.join rows ++ rule

variable {m : Type → Type} [Monad m] (host : Host m) (settings : Log.Settings)

/-- Loads an image, or logs why it cannot be loaded. -/
def loadBytes (bytes : Bytes) : m (Option Image) := do
  host.logAll settings (Image.loadLog bytes)
  match Image.load bytes with
  | .ok image => pure (some image)
  | .error e =>
    host.error settings e.message
    pure none

/-- Assembles a source file and loads its image, or logs why there is none. -/
def loadSource (path : String) : m (Option Image) := do
  match ← host.readText path with
  | .error message =>
    host.error settings message
    pure none
  | .ok source =>
    let a := Assembly.assemble source
    host.logAll settings (Assembly.assemblyLog path source a)
    match a.binary? with
    | some bytes => loadBytes host settings bytes
    | none =>
      host.error settings (path ++ ": assembly failed with " ++ toString a.errors.length
        ++ " error(s)")
      pure none

/-- The image of a file, which is a source if its name ends in `.asm`. -/
def loadFile (path : String) : m (Option Image) := do
  if Path.extension? path = some "asm" then
    return ← loadSource host settings path
  match ← host.read path with
  | .ok bytes => loadBytes host settings bytes
  | .error e =>
    host.error settings (path ++ ": " ++ e.message)
    pure none

/-- Passes on what a machine tells. -/
def relay : Event → m Unit
  | .printed text | .traced text => host.print text
  | .logged entry => host.log settings entry
  | _ => pure ()

/-- The number of cycles after which the output of a program is passed on. -/
def burst : Nat := 4096

/-- Runs a machine until it halts, for at most so many bursts of cycles. -/
def follow (p : Program) : Nat → World → m Machine
  | 0, w => pure w.machine
  | n + 1, w => do
    let w := World.runFor p burst w
    w.history.reverse.forM (relay host settings)
    if w.machine.alive then follow p n { w with history := [] } else pure w.machine

/-- Runs an image to its end. -/
def runImage (path : String) (o : Options) (image : Image) : m UInt8 := do
  let machine := Machine.ofImage image Machine.defaultStackSize
  let program := Program.ofImage image Syscall.builtin
  let machine ← follow host o.settings program World.endless (World.ofMachine machine.start)
  match machine.outcome with
  | .ok _ => pure ()
  | .error f => host.error o.settings (path ++ ": " ++ f.message)
  if o.stats then host.print (statsTable machine.stats)
  pure machine.exitCode.toUInt8

/-- The command on its arguments; the answer is its exit code. -/
def run (program : String) : List String → m UInt8
  | [] => do
    host.info {} (usage program)
    pure 1
  | input :: arguments => do
    if isHelp input then
      host.info {} (usage program)
      return 0
    match Options.read {} arguments with
    | (o, some argument) => refuse host o.settings (usage program) argument
    | (o, none) =>
      match ← loadFile host o.settings input with
      | some image => runImage host input o image
      | none => pure 1

end RegisterMachine.CommandLine.Runner

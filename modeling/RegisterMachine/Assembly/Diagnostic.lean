import RegisterMachine.Assembly.Assemble
import RegisterMachine.Log

namespace RegisterMachine.Assembly

/-- A line number, filled up with blanks to four characters. -/
def lineColumn (line : Nat) : String :=
  Text.flushRight 4 (toString line)

/-- A line without the carriage returns at its end. -/
def withoutReturns (s : List Char) : List Char :=
  (s.reverse.dropWhile (· = '\r')).reverse

/-- The line of a source text as it is shown below an error. -/
def excerpt (source : String) (line : Nat) : String :=
  match (Text.lines source.toList)[line - 1]? with
  | some s => "  |\n" ++ lineColumn line ++ " | " ++ String.ofList (withoutReturns s) ++ "\n  |"
  | none => ""

/-- An error message with the place it is about. -/
def diagnostic (file source : String) (line : Nat) (message : String) : String :=
  "error: " ++ message ++ "\n --> " ++ file ++
    if line = 0 then "" else ":" ++ toString line ++ "\n" ++ excerpt source line

/-- What assembling a file logs: its errors with their places, then the warnings. -/
def assemblyLog (file source : String) (a : Assembled) : List Log.Entry :=
  a.errors.map (fun e => ⟨.error, some "asm", diagnostic file source e.line e.message⟩)
    ++ a.warnings.map fun w => ⟨.warn, some "asm", file ++ ": " ++ w⟩

end RegisterMachine.Assembly

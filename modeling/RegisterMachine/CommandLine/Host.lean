import RegisterMachine.Bytes
import RegisterMachine.Log

namespace RegisterMachine.CommandLine

/-- Why a file could not be read or written: the number of the cause, and its text. -/
structure FileError where
  number : Nat
  text : String
deriving DecidableEq, Repr

namespace FileError

/-- Nothing has the name. -/
def notFound : FileError := ⟨2, "No such file or directory"⟩

/-- A path leads through something that is no directory. -/
def notDirectory : FileError := ⟨20, "Not a directory"⟩

/-- A directory stands where a file is wanted. -/
def isDirectory : FileError := ⟨21, "Is a directory"⟩

/-- A name that no file can have. -/
def nameTooLong : FileError := ⟨36, "File name too long"⟩

/-- The user may not do it. -/
def notPermitted : FileError := ⟨13, "Permission denied"⟩

/-- The error with a number; the given text stands for a cause that is not known here. -/
def ofNumber (number : Nat) (text : String) : FileError :=
  ([notFound, notPermitted, notDirectory, isDirectory, nameTooLong].find?
    (·.number == number)).getD ⟨number, text⟩

/-- The text shown for the error. -/
def message (e : FileError) : String :=
  e.text ++ " (os error " ++ toString e.number ++ ")"

end FileError

/-- What a command can ask for. -/
structure Host (m : Type → Type) where
  /-- The contents of the file with a path. -/
  read : String → m (Except FileError Bytes)
  /-- Makes a file, or gives new contents to it. -/
  write : String → Bytes → m (Except FileError Unit)
  /-- Writes text to the output. -/
  print : String → m Unit
  /-- Writes text to the log. -/
  note : String → m Unit

namespace Host

variable {m : Type → Type} [Monad m] (host : Host m)

/-- There is a file with the path. -/
def isFile (path : String) : m Bool := do
  match ← host.read path with
  | .ok _ => pure true
  | .error _ => pure false

/-- There is a directory with the path. -/
def isDirectory (path : String) : m Bool := do
  match ← host.read path with
  | .ok _ => pure false
  | .error e => pure (e == .isDirectory)

def log (settings : Log.Settings) (e : Log.Entry) : m Unit :=
  host.note (e.shown settings)

def logAll (settings : Log.Settings) (es : List Log.Entry) : m Unit :=
  es.forM (host.log settings)

/-- Logs what happens. -/
def info (settings : Log.Settings) (message : String) : m Unit :=
  host.log settings ⟨.info, none, message⟩

/-- Logs what went wrong. -/
def error (settings : Log.Settings) (message : String) : m Unit :=
  host.log settings ⟨.error, none, message⟩

/-- Logs what went wrong; the answer is the exit code of a failure. -/
def fail (settings : Log.Settings) (message : String) : m UInt8 := do
  host.error settings message
  pure 1

/-- The text of the file with a path, or what is shown if there is none. -/
def readText (path : String) : m (Except String String) := do
  match ← host.read path with
  | .error e => pure (.error (path ++ ": " ++ e.message))
  | .ok bytes =>
    match String.fromUTF8? ⟨bytes.toArray⟩ with
    | some text => pure (.ok text)
    | none => pure (.error (path ++ ": stream did not contain valid UTF-8"))

end Host

/-- The argument asks for help. -/
def isHelp (argument : String) : Bool :=
  argument = "--help" || argument = "-h"

/-- Logs that an argument has no meaning, and then how the command is used. -/
def refuse {m : Type → Type} [Monad m] (host : Host m) (settings : Log.Settings)
    (usage argument : String) : m UInt8 := do
  host.error settings ("Unexpected argument: " ++ argument ++ "\n")
  host.info settings usage
  pure 1

end RegisterMachine.CommandLine

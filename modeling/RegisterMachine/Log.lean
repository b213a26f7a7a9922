import RegisterMachine.Text.Column

namespace RegisterMachine.Log

/-- How serious a message is, from the least to the most. -/
inductive Level where
  | debug
  | info
  | warn
  | error
deriving DecidableEq, Repr

namespace Level

/-- The position in the order of levels. -/
def rank : Level → Nat
  | debug => 0
  | info => 1
  | warn => 2
  | error => 3

/-- The name shown for the level. -/
def name : Level → String
  | debug => "DEBUG"
  | info => "INFO"
  | warn => "WARN"
  | error => "ERROR"

end Level

structure Entry where
  level : Level
  /-- The component that speaks. -/
  tag : Option String
  message : String
deriving DecidableEq, Repr

/-- What a log shows of its messages. -/
structure Settings where
  /-- Messages below this level are dropped. -/
  least : Level := .info
  /-- The level stands in front of each message. -/
  showLevel : Bool := true

/-- The level in brackets, filled up with blanks to five characters. -/
def levelColumn (level : Level) : String :=
  "[" ++ Text.flushLeft 5 level.name ++ "] "

/-- The line of one message. -/
def Entry.line (settings : Settings) (e : Entry) : String :=
  (if settings.showLevel then levelColumn e.level else "")
    ++ (match e.tag with
      | some tag => "(" ++ tag ++ ") "
      | none => "")
    ++ e.message ++ "\n"

/-- What is shown of one message: its line, or nothing. -/
def Entry.shown (settings : Settings) (e : Entry) : String :=
  if settings.least.rank ≤ e.level.rank then e.line settings else ""

/-- What is shown of a sequence of messages. -/
def render (settings : Settings) (entries : List Entry) : String :=
  String.join (entries.map (·.shown settings))

end RegisterMachine.Log

import RegisterMachine.Assembly.Error
import RegisterMachine.Assembly.Line

namespace RegisterMachine.Assembly

/-- A name for some lines. -/
structure Macro where
  name : String
  /-- The lines that the name stands for. -/
  body : List (List Char)
  /-- The line on which the definition starts. -/
  line : Nat
deriving DecidableEq, Repr

namespace Macro

/-- The word that starts a definition. -/
def keyword : String := "#macro"

/-- The last token of a line after which the definition goes on. -/
def continuation : String := "\\"

/-- The string at the front of the tokens, and whether the definition goes on after it. -/
def bodyLine (name : String) (tokens : List String) : Except Cause (List Char × Bool) :=
  let text? (literal : String) : Except Cause (List Char) :=
    match unquote? literal with
    | some text => .ok (strip text)
    | none => .error (.macroLiteral name)
  match tokens with
  | [literal] => do return (← text? literal, false)
  | [literal, mark] => do
    let text ← text? literal
    if mark = continuation then return (text, true) else throw (.macroContinuation name)
  | _ => .error (.macroLine name)

/-- The name at the front of a definition, its first line, and whether the definition goes on. -/
def header (text : List Char) : Except Cause (String × List Char × Bool) :=
  match tokens? text with
  | none => .error .openStringInMacro
  | some (word :: name :: rest) =>
    if word = keyword ∧ (rest.length = 1 ∨ rest.length = 2) then
      if isIdentifier name.toList then do
        let (first, more) ← bodyLine name rest
        return (name, first, more)
      else .error (.macroName name)
    else .error (.macroHeader (String.ofList text))
  | some _ => .error (.macroHeader (String.ofList text))

/-- One more line of a definition. -/
def continued (name : String) (text : List Char) : Except Cause (List Char × Bool) :=
  match tokens? text with
  | none => .error .openStringInMacro
  | some tokens => bodyLine name tokens

/-- What has been found in the lines so far. -/
structure Collected where
  /-- The lines outside definitions. -/
  rest : List Line := []
  /-- The macros, in the order of their definitions. -/
  macros : List Macro := []
  errors : List Error := []
  /-- The definition that goes on with the next line. -/
  pending : Option Macro := none

/-- A macro whose definition is complete: empty lines are left out, and the name must be new. -/
def Collected.complete (c : Collected) (m : Macro) : Collected :=
  if c.macros.any (·.name == m.name) then
    { c with errors := c.errors ++ [(Cause.macroTwice m.name).onLine m.line], pending := none }
  else
    { c with macros := c.macros ++ [{ m with body := m.body.filter (· ≠ []) }], pending := none }

/-- A macro with one more line, complete or not. -/
def Collected.extend (c : Collected) (m : Macro) (text : List Char) (more : Bool) : Collected :=
  let m := { m with body := m.body ++ [text] }
  if more then { c with pending := some m } else c.complete m

/-- What has been found after one more line. A line that does not go on with a definition as it
should ends it. -/
def Collected.step (c : Collected) (l : Line) : Collected :=
  match c.pending with
  | some m =>
    match continued m.name l.text with
    | .ok (text, more) => c.extend m text more
    | .error cause => { c with errors := c.errors ++ [cause.onLine l.number], pending := none }
  | none =>
    if keyword.toList.isPrefixOf l.text then
      match header l.text with
      | .ok (name, first, more) => c.extend ⟨name, [], l.number⟩ first more
      | .error cause => { c with errors := c.errors ++ [cause.onLine l.number] }
    else { c with rest := c.rest ++ [l] }

/-- What has been found when the text ends. -/
def Collected.finish (c : Collected) : Collected :=
  match c.pending with
  | some m => { c with errors := c.errors ++ [(Cause.macroEnd m.name).onLine m.line], pending := none }
  | none => c

/-- The definitions among some lines, and the lines outside them. -/
def collect (ls : List Line) : Collected :=
  (ls.foldl Collected.step {}).finish

/-- The name of the macro that a line uses. -/
def invoked? (text : List Char) : Option String :=
  match text with
  | '#' :: name => if isIdentifier name then some (String.ofList name) else none
  | _ => none

/-- The lines that a line stands for. -/
def expandLine (macros : List Macro) (l : Line) : Except Error (List Line) :=
  match invoked? l.text with
  | none => .ok [l]
  | some name =>
    match macros.find? (·.name == name) with
    | some m => .ok (m.body.map fun text => ⟨l.number, text⟩)
    | none => .error ((Cause.macroUnknown name).onLine l.number)

/-- The lines of a result, none for an error. -/
def linesOf : Except Error (List Line) → List Line
  | .ok ls => ls
  | .error _ => []

/-- The error of a result. -/
def errorOf? : Except Error (List Line) → Option Error
  | .ok _ => none
  | .error e => some e

/-- A macro holds a line that looks like the use of a macro. -/
def looksNested (m : Macro) : Bool :=
  m.body.any fun text => text.head? = some '#'

/-- Warns about a line that looks like the use of a macro inside a macro. -/
def nestedWarning (m : Macro) : String :=
  "line " ++ toString m.line ++ ": macro `" ++ m.name
    ++ "` contains a `#` line, macros are not expanded inside macros"

/-- Warns about a macro without use. -/
def unusedWarning (m : Macro) : String :=
  "line " ++ toString m.line ++ ": macro `" ++ m.name ++ "` is defined but never used"

/-- The source text after the macros have been taken out and their uses replaced. -/
structure Expansion where
  lines : List Line
  errors : List Error
  warnings : List String

/-- The warnings about lines inside macros, in the order of their texts. -/
def nestedWarnings (macros : List Macro) : List String :=
  ((macros.filter looksNested).map nestedWarning).mergeSort fun a b => a ≤ b

/-- Takes the definitions out of some lines and replaces the uses of macros. After a malformed
definition nothing is replaced. -/
def expandLines (ls : List Line) : Expansion :=
  let c := collect ls
  let nested := nestedWarnings c.macros
  if c.errors = [] then
    let results := c.rest.map (expandLine c.macros)
    let isUsed (m : Macro) := c.rest.any fun l => invoked? l.text = some m.name
    { lines := results.flatMap linesOf
      errors := results.filterMap errorOf?
      warnings := nested ++ (c.macros.filter fun m => !isUsed m).map unusedWarning }
  else { lines := [], errors := c.errors, warnings := nested }

/-- Takes the definitions out of a source text and replaces the uses of macros. -/
def expand (source : String) : Expansion :=
  expandLines (significantLines source)

end Macro

end RegisterMachine.Assembly

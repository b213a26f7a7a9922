import RegisterMachine.Text.Blank
import RegisterMachine.Text.Lines

namespace RegisterMachine.Assembly

/-- A line of assembly text with its number in the source, counted from one. -/
structure Line where
  number : Nat
  text : List Char
deriving DecidableEq, Repr

/-- The part of a line before its comment. -/
def uncommentedFrom (quoted : Bool) : List Char → List Char
  | [] => []
  | c :: rest =>
    if c = '"' then c :: uncommentedFrom (!quoted) rest
    else if c = ';' ∧ quoted = false then []
    else c :: uncommentedFrom quoted rest

/-- The part of a line before its comment. -/
def uncommented (s : List Char) : List Char :=
  uncommentedFrom false s

def isSeparator (c : Char) : Bool :=
  c = ',' || c = ' ' || c = '\t'

/-- A token put in front of others, unless it is empty. -/
def consToken (token : List Char) (tokens : List String) : List String :=
  if token = [] then tokens else String.ofList token :: tokens

/-- The tokens of a line of which `current` has been read since the last separator; none if a quote
stays open. -/
def tokensFrom (current : List Char) (quoted : Bool) : List Char → Option (List String)
  | [] => if quoted then none else some (consToken current [])
  | c :: rest =>
    if c = '"' then tokensFrom (current ++ [c]) (!quoted) rest
    else if isSeparator c ∧ quoted = false then consToken current <$> tokensFrom [] false rest
    else tokensFrom (current ++ [c]) quoted rest

/-- The tokens of a line: its longest pieces without an unquoted separator. -/
def tokens? (s : List Char) : Option (List String) :=
  tokensFrom [] false s

/-- The text between the quotes of a token that starts and ends with one. -/
def unquote? (token : String) : Option (List Char) :=
  match token.toList with
  | '"' :: rest => if rest.getLast? = some '"' then some rest.dropLast else none
  | _ => none

/-- A character of names. -/
def isNameChar (c : Char) : Bool :=
  c.isAlphanum || c = '_'

/-- A name of a label, a constant or a macro: letters, digits and underscores. -/
def isIdentifier (s : List Char) : Bool :=
  s ≠ [] && s.all isNameChar

/-- A line without comment and without blanks at its ends. -/
def strip (s : List Char) : List Char :=
  Text.trim (uncommented s)

/-- The lines of a source text that hold more than blanks and comments. -/
def significantLines (source : String) : List Line :=
  ((Text.lines source.toList).zipIdx 1).filterMap fun (s, number) =>
    if strip s = [] then none else some ⟨number, strip s⟩

end RegisterMachine.Assembly

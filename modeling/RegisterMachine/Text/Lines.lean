namespace RegisterMachine.Text

/-- The text without one carriage return at its end. -/
def chomp (s : List Char) : List Char :=
  if s.getLast? = some '\r' then s.dropLast else s

/-- The lines of a text; `current` holds the characters of the line read so far. -/
def linesFrom (current : List Char) : List Char → List (List Char)
  | [] => if current.isEmpty then [] else [current]
  | c :: rest =>
    if c = '\n' then chomp current :: linesFrom [] rest else linesFrom (current ++ [c]) rest

/-- The lines of a text, without their ends. -/
def lines (s : List Char) : List (List Char) :=
  linesFrom [] s

end RegisterMachine.Text

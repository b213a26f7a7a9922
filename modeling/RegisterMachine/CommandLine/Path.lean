namespace RegisterMachine.Path

/-- The pieces between the slashes of a path; `current` holds the piece read so far. -/
def piecesFrom (current : List Char) : List Char → List String
  | [] => [String.ofList current]
  | c :: rest =>
    if c = '/' then String.ofList current :: piecesFrom [] rest
    else piecesFrom (current ++ [c]) rest

/-- The pieces between the slashes of a path. -/
def pieces (path : String) : List String :=
  piecesFrom [] path.toList

/-- The piece stays where it is. -/
def isIdle (piece : String) : Bool :=
  piece = "" || piece = "."

/-- The piece leads to the directory above. -/
def isUp (piece : String) : Bool :=
  piece = ".."

/-- Pieces without the idle ones at their end. -/
def trimIdle (ps : List String) : List String :=
  (ps.reverse.dropWhile isIdle).reverse

/-- The first piece of a path, and the others up to the last that is not idle. -/
def steps (path : String) : String × List String :=
  match pieces path with
  | [] => ("", [])
  | first :: rest => (first, trimIdle rest)

/-- The path with the given pieces. -/
def ofSteps (first : String) (rest : List String) : String :=
  if first = "" ∧ rest = [] then "/" else "/".intercalate (first :: rest)

/-- The directory from which the last step of a path is made. The root has none. -/
def parent? (path : String) : Option String :=
  let (first, rest) := steps path
  if rest = [] then if first = "" then none else some ""
  else some (ofSteps first (trimIdle rest.dropLast))

/-- The name that a path leads to, if its last step is a name. -/
def name? (path : String) : Option String :=
  let (first, rest) := steps path
  let last := rest.getLastD first
  if isIdle last || isUp last then none else some last

/-- A name cut at its last dot into stem and extension. A dot at the front does not count. -/
def cut (name : String) : String × Option String :=
  let reversed := name.toList.reverse
  match reversed.dropWhile (· ≠ '.') with
  | _ :: c :: stem =>
    (String.ofList (c :: stem).reverse,
      some (String.ofList (reversed.takeWhile (· ≠ '.')).reverse))
  | _ => (name, none)

/-- The extension of the name that a path leads to. -/
def extension? (path : String) : Option String :=
  (name? path).bind fun name => (cut name).2

/-- A name with another extension. Of a name that begins with two dots and has no other, only the
dots stay. -/
def renamed (name ext : String) : String :=
  match cut name with
  | (".", some _) => ".."
  | (stem, _) => stem ++ "." ++ ext

/-- A path with another extension of the name at its end. -/
def withExtension (path ext : String) : String :=
  let ps := pieces path
  let name := ps.getLastD ""
  if isIdle name || isUp name then path
  else "/".intercalate (ps.dropLast ++ [renamed name ext])

example : cut "a.b.asm" = ("a.b", some "asm") := by decide +kernel
example : cut ".asm" = (".asm", none) := by decide +kernel
example : withExtension "d/noext" "bin" = "d/noext.bin" := by decide +kernel
example : parent? "no//dir/./x/" = some "no//dir" := by decide +kernel
example : parent? "/x" = some "/" := by decide +kernel

end RegisterMachine.Path

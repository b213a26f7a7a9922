import RegisterMachine.CommandLine.Host
import RegisterMachine.CommandLine.Path

namespace RegisterMachine.CommandLine

/-- A working directory. A file stands under the names that lead to it. -/
structure Directory where
  files : List (List String × Bytes)
deriving DecidableEq, Repr

/-- Where a path leads to. -/
inductive Place where
  /-- The names that lead there from the working directory. -/
  | inside (names : List String)
  | outside
deriving DecidableEq, Repr

namespace Directory

/-- The length in bytes that no name exceeds. -/
def maxName : Nat := 255

/-- The length in bytes that no path reaches. -/
def maxPath : Nat := 4096

/-- The contents of the file under some names. -/
def file? (d : Directory) (names : List String) : Option Bytes :=
  (d.files.find? (·.1 == names)).map (·.2)

/-- The names lead to a directory: the working directory, or one that holds a file. -/
def holds (d : Directory) (names : List String) : Bool :=
  names.isEmpty || d.files.any fun (ns, _) => names.isPrefixOf ns && names != ns

/-- The place that one piece of a path leads to. A step can be made from a directory only. -/
def step (d : Directory) (piece : String) : Place → Except FileError Place
  | .inside names =>
    if d.holds names then
      if Path.isIdle piece then .ok (.inside names)
      else if Path.isUp piece then
        .ok (if names = [] then .outside else .inside names.dropLast)
      else if maxName < piece.utf8ByteSize then .error .nameTooLong
      else .ok (.inside (names ++ [piece]))
    else .error (if (d.file? names).isSome then .notDirectory else .notFound)
  | .outside => if Path.isIdle piece || Path.isUp piece then .ok .outside else .error .notFound

/-- The place that some pieces lead to. -/
def follow (d : Directory) : List String → Place → Except FileError Place
  | [], p => .ok p
  | piece :: rest, p => d.step piece p >>= d.follow rest

/-- The place at which a path begins, and the pieces that lead on from it. -/
def start (path : String) : Except FileError (Place × List String) :=
  if path = "" then .error .notFound
  else if maxPath ≤ path.utf8ByteSize then .error .nameTooLong
  else
    match Path.pieces path with
    | "" :: rest => .ok (.outside, rest)
    | ps => .ok (.inside [], ps)

/-- The contents of the file with a path. -/
def read (d : Directory) (path : String) : Except FileError Bytes := do
  let (p, ps) ← start path
  match ← d.follow ps p with
  | .outside => throw .isDirectory
  | .inside names =>
    match d.file? names with
    | some bytes => pure bytes
    | none => throw (if d.holds names then .isDirectory else .notFound)

/-- The directory with new contents of a file. -/
def put (d : Directory) (names : List String) (bytes : Bytes) : Directory where
  files := d.files.filter (·.1 != names) ++ [(names, bytes)]

theorem file?_put_self (d : Directory) (names : List String) (bytes : Bytes) :
    (d.put names bytes).file? names = some bytes := by
  have absent : (d.files.filter (·.1 != names)).find? (·.1 == names) = none := by
    simp [List.find?_eq_none]
  simp [put, file?, List.find?_append, absent]

theorem file?_put_of_ne {d : Directory} {names others : List String} {bytes : Bytes}
    (h : others ≠ names) : (d.put names bytes).file? others = d.file? others := by
  have kept : (d.files.filter (·.1 != names)).find? (·.1 == others)
      = d.files.find? (·.1 == others) := by
    rw [List.find?_filter]
    congr 1
    funext f
    by_cases hf : f.1 = others
    · simp [hf, h]
    · simp [hf]
  simp [put, file?, List.find?_append, kept, Ne.symm h]

/-- The directory after a file has been written. A slash behind the name means a directory. -/
def write (d : Directory) (path : String) (bytes : Bytes) : Except FileError Directory := do
  let (p, ps) ← start path
  let named := (ps.reverse.dropWhile (· = "")).reverse
  let name := named.getLastD "."
  let base ← d.follow (named.dropLast ++ ["."]) p
  if named ≠ ps ∨ Path.isIdle name ∨ Path.isUp name then throw .isDirectory
  if base = .outside then return d
  match ← d.step name base with
  | .outside => throw .isDirectory
  | .inside names =>
    if d.holds names then throw .isDirectory
    pure (d.put names bytes)

end Directory

/-- A working directory, and what has been written to output and log. -/
structure Session where
  directory : Directory
  output : String := ""
  log : String := ""

/-- The host of a session. -/
def Session.host : Host (StateM Session) where
  read path := fun s => (s.directory.read path, s)
  write path bytes := fun s =>
    match s.directory.write path bytes with
    | .ok directory => (.ok (), { s with directory })
    | .error e => (.error e, s)
  print text := fun s => ((), { s with output := s.output ++ text })
  note text := fun s => ((), { s with log := s.log ++ text })

end RegisterMachine.CommandLine

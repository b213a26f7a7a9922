namespace RegisterMachine.Text

/-- So many blanks. -/
def blanks (n : Nat) : String :=
  String.ofList (List.replicate n ' ')

/-- A text at the left end of a column. -/
def flushLeft (width : Nat) (s : String) : String :=
  s ++ blanks (width - s.length)

/-- A text at the right end of a column. -/
def flushRight (width : Nat) (s : String) : String :=
  blanks (width - s.length) ++ s

theorem length_flushLeft (width : Nat) (s : String) :
    (flushLeft width s).length = max width s.length := by
  simp only [flushLeft, blanks, String.length_append, String.length_ofList, List.length_replicate]
  omega

theorem length_flushRight (width : Nat) (s : String) :
    (flushRight width s).length = max width s.length := by
  simp only [flushRight, blanks, String.length_append, String.length_ofList, List.length_replicate]
  omega

end RegisterMachine.Text

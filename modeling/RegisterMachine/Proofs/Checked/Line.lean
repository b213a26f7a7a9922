import Mathlib
import RegisterMachine.Assembly.Line
import RegisterMachine.Proofs.Checked.Extent

namespace RegisterMachine.Checked

open Assembly

/-- The byte of a character that separates tokens. -/
def isSeparatorByte (b : UInt8) : Bool :=
  b = 0x2C || b = 0x20 || b = 0x09

/-- What a scan of a line has found so far. -/
structure Scan where
  tokens : List String := []
  /-- Where the token starts that is being read. -/
  start : Option Nat := none
  quoted : Bool := false

namespace Scan

/-- The scan in the middle of a token, which starts here if not before. -/
def inToken (s : Scan) (offset : Nat) : Scan :=
  { s with start := some (s.start.getD offset) }

/-- The scan behind the end of a token, if one is being read. -/
def endToken (line : List Char) (s : Scan) (offset : Nat) : Option Scan :=
  match s.start with
  | none => some s
  | some first => do
    let token ← text line first offset
    return { s with tokens := s.tokens ++ [String.ofList token], start := none }

/-- The scan after one more byte. -/
def byte (line : List Char) (s : Scan) (offset : Nat) (b : UInt8) : Option Scan :=
  if b = 0x22 then some { s.inToken offset with quoted := !s.quoted }
  else if isSeparatorByte b ∧ s.quoted = false then s.endToken line offset
  else some (s.inToken offset)

/-- The scan after some more bytes. -/
def run (line : List Char) (s : Scan) (offset : Nat) : Bytes → Option Scan
  | [] => some s
  | b :: bs => do
    let s ← s.byte line offset b
    s.run line (offset + 1) bs

/-- What the scan has found at the end of the line; nothing if a quote stays open. -/
def finish (line : List Char) (s : Scan) : Option (Option (List String)) := do
  if s.quoted then return none
  let s ← s.endToken line (byteLength line)
  return some s.tokens

end Scan

def tokens (line : List Char) : Option (Option (List String)) := do
  let s ← Scan.run line {} 0 (bytes line)
  s.finish line

/-- The part of a line before its comment, of which the part before a byte has been read. -/
def uncommentedFrom (line : List Char) (quoted : Bool) (offset : Nat) : List Char → Option (List Char)
  | [] => some line
  | c :: rest =>
    if c = '"' then uncommentedFrom line (!quoted) (offset + c.utf8Size) rest
    else if c = ';' ∧ quoted = false then text line 0 offset
    else uncommentedFrom line quoted (offset + c.utf8Size) rest

def uncommented (line : List Char) : Option (List Char) :=
  uncommentedFrom line false 0 line

/-- A line without comment and without blanks at its ends. -/
def strip (line : List Char) : Option (List Char) :=
  Text.trim <$> uncommented line

/-- The text between the quotes of a token that starts and ends with one. -/
def unquote (token : List Char) : Option (Option (List Char)) := do
  if byteLength token < 2 ∨ token.head? ≠ some '"' then return none
  let rest ← text token 1 (byteLength token)
  if rest.getLast? ≠ some '"' then return none
  let last ← sub (byteLength rest) 1
  let inside ← text rest 0 last
  return some inside

/-- The lines of a source text that hold more than blanks and comments. -/
def significantLines (source : String) : Option (List Line) := do
  let found ← (Text.lines source.toList).zipIdx.mapM fun (raw, index) => do
    let stripped ← strip raw
    if stripped = [] then return none else return some (Line.mk (← add index 1) stripped)
  return found.filterMap id

namespace Scan

variable {line before current rest : List Char} {s : Scan} {c d : Char} {b : UInt8}
  {offset first : Nat} {bs : Bytes}

/-- The scan after one more character. -/
def char (line : List Char) (s : Scan) (offset : Nat) (c : Char) : Option Scan :=
  if c = '"' then some { s.inToken offset with quoted := !s.quoted }
  else if isSeparator c ∧ s.quoted = false then s.endToken line offset
  else some (s.inToken offset)

theorem ofNat_toNat_eq_iff (hc : c.toNat < 0x80) (hd : d.toNat < 0x80) :
    UInt8.ofNat c.toNat = UInt8.ofNat d.toNat ↔ c = d := by
  have hsize : 0x80 ≤ UInt8.size := by decide
  rw [← UInt8.toNat_inj, UInt8.toNat_ofNat_of_lt' (by omega), UInt8.toNat_ofNat_of_lt' (by omega),
    Char.toNat_inj]

theorem isSeparatorByte_ofNat (hc : c.toNat < 0x80) :
    isSeparatorByte (UInt8.ofNat c.toNat) = isSeparator c := by
  have hcomma := ofNat_toNat_eq_iff (d := ',') hc (by decide)
  have hspace := ofNat_toNat_eq_iff (d := ' ') hc (by decide)
  have htab := ofNat_toNat_eq_iff (d := '\t') hc (by decide)
  simp only [isSeparatorByte, isSeparator, ← hcomma, ← hspace, ← htab]
  rfl

/-- The byte of an ASCII character looks like the character. -/
theorem byte_ofNat (hc : c.toNat < 0x80) : s.byte line offset (UInt8.ofNat c.toNat) =
    s.char line offset c := by
  have hquote := ofNat_toNat_eq_iff (d := '"') hc (by decide)
  simp only [byte, char, isSeparatorByte_ofNat hc, ← hquote]
  rfl

theorem byte_of_le (hb : 0x80 ≤ b) : s.byte line offset b = some (s.inToken offset) := by
  have hne : ∀ k : UInt8, k < 0x80 → b ≠ k := fun k hk hbk =>
    absurd (hbk ▸ hk) (UInt8.not_lt.mpr hb)
  rw [byte, if_neg (hne _ (by decide)), if_neg]
  simp [isSeparatorByte, hne 0x2C (by decide), hne 0x20 (by decide), hne 0x09 (by decide)]

/-- Bytes outside of ASCII stay inside of a token. -/
theorem run_of_le (hbytes : ∀ b ∈ bs, 0x80 ≤ b) (hstart : s.start = some first) (rest : Bytes) :
    s.run line offset (bs ++ rest) = s.run line (offset + bs.length) rest := by
  induction bs generalizing offset with
  | nil => rfl
  | cons b bs ih =>
    obtain ⟨hb, hbytes⟩ := List.forall_mem_cons.mp hbytes
    have hsame : s.inToken offset = s := by
      rw [inToken, hstart, Option.getD_some, ← hstart]
    rw [List.cons_append, run, byte_of_le hb, hsame, List.length_cons, Nat.add_comm bs.length,
      ← Nat.add_assoc]
    exact ih hbytes

/-- A character outside of ASCII has only bytes outside of ASCII. -/
theorem le_of_mem_utf8EncodeChar (hc : ¬ c.toNat < 0x80) :
    ∀ b ∈ String.utf8EncodeChar c, 0x80 ≤ b := by
  have hhigh : ∀ n : Nat, 0x80 ≤ n → n < UInt8.size → (0x80 : UInt8) ≤ UInt8.ofNat n := by
    intro n hle hlt
    rw [UInt8.le_iff_toNat_le, UInt8.toNat_ofNat_of_lt' hlt]
    exact hle
  have hsize : UInt8.size = 0x100 := rfl
  have hascii : ¬ c.val.toNat ≤ 0x7F := fun hle => hc (Nat.lt_succ_of_le hle)
  intro b hb
  simp only [String.utf8EncodeChar, if_neg hascii] at hb
  split at hb
  next =>
    simp only [List.mem_cons, List.not_mem_nil, or_false] at hb
    rcases hb with rfl | rfl <;> exact hhigh _ (by omega) (by omega)
  next =>
    split at hb
    next =>
      simp only [List.mem_cons, List.not_mem_nil, or_false] at hb
      rcases hb with rfl | rfl | rfl <;> exact hhigh _ (by omega) (by omega)
    next =>
      simp only [List.mem_cons, List.not_mem_nil, or_false] at hb
      rcases hb with rfl | rfl | rfl | rfl <;> exact hhigh _ (by omega) (by omega)

theorem run_utf8EncodeChar (s : Scan) (offset : Nat) (c : Char) (bs : Bytes) :
    s.run line offset (String.utf8EncodeChar c ++ bs) =
      (s.char line offset c).bind fun s => s.run line (offset + c.utf8Size) bs := by
  by_cases hc : c.toNat < 0x80
  · have hsize : c.utf8Size = 1 :=
      Char.utf8Size_eq_one_iff.mpr (UInt32.le_iff_toNat_le.mpr (Nat.le_of_lt_succ hc))
    have hbyte : String.utf8EncodeChar c = [UInt8.ofNat c.toNat] := by
      rw [String.utf8EncodeChar_eq_singleton hsize]
      rfl
    rw [hbyte, hsize, List.singleton_append, run, byte_ofNat hc]
    rfl
  · have hbytes := le_of_mem_utf8EncodeChar hc
    have hlength := String.length_utf8EncodeChar c
    have hplain : s.char line offset c = some (s.inToken offset) := by
      have hne : ∀ d : Char, d.toNat < 0x80 → c ≠ d := fun d hd hcd => hc (hcd ▸ hd)
      rw [char, if_neg (hne _ (by decide)), if_neg]
      simp [isSeparator, hne ',' (by decide), hne ' ' (by decide), hne '\t' (by decide)]
    have hpos : 0 < c.utf8Size := c.utf8Size_pos
    cases hlist : String.utf8EncodeChar c with
    | nil =>
      rw [hlist] at hlength
      exact absurd hlength (Nat.ne_of_lt hpos)
    | cons b front =>
      rw [hlist] at hbytes hlength
      obtain ⟨hb, hfront⟩ := List.forall_mem_cons.mp hbytes
      rw [List.cons_append, run, byte_of_le hb, hplain, ← hlength, List.length_cons,
        Nat.add_comm front.length, ← Nat.add_assoc]
      exact run_of_le hfront rfl bs

theorem consToken_append (current : List Char) (tokens : List String) :
    consToken current tokens = consToken current [] ++ tokens := by
  rw [consToken, consToken]
  split <;> rfl

/-- A token is cut out between two characters. -/
theorem endToken_eq (hline : line = before ++ current ++ rest)
    (hstart : s.start = if current = [] then none else some (byteLength before)) :
    s.endToken line (byteLength (before ++ current)) =
      some { s with tokens := s.tokens ++ consToken current [], start := none } := by
  obtain ⟨tokens, start, quoted⟩ := s
  obtain rfl := hstart
  have htext := text_append before current rest
  rw [← hline] at htext
  by_cases hcurrent : current = []
  · simp [endToken, hcurrent, consToken]
  · simp [endToken, hcurrent, consToken, htext]

/-- The scan of the rest of a line, while the current token is being read, finds the tokens that are
there. -/
theorem finish_run (hline : line = before ++ current ++ rest)
    (hstart : s.start = if current = [] then none else some (byteLength before)) :
    ((s.run line (byteLength (before ++ current)) (bytes rest)).bind fun s => s.finish line) =
      some ((tokensFrom current s.quoted rest).map (s.tokens ++ ·)) := by
  induction rest generalizing s before current with
  | nil =>
    have hend := endToken_eq hline hstart
    rw [List.append_nil] at hline
    rw [← hline] at hend
    rw [bytes, List.flatMap_nil, run, Option.bind_some, finish, hend, tokensFrom]
    cases s.quoted <;> rfl
  | cons c rest ih =>
    have hnext : byteLength (before ++ (current ++ [c])) =
        byteLength (before ++ current) + c.utf8Size := by
      rw [← List.append_assoc, byteLength_append, byteLength]
      rfl
    -- Inside of a token the character is read.
    have hmore : (s.inToken (byteLength (before ++ current))).start =
        if current ++ [c] = [] then none else some (byteLength before) := by
      rw [if_neg (by simp), inToken, hstart]
      by_cases hcurrent : current = []
      · simp [hcurrent]
      · simp [hcurrent]
    have hsplit : line = before ++ (current ++ [c]) ++ rest := by
      rw [hline, List.append_assoc, List.append_assoc, List.append_assoc]
      rfl
    rw [bytes, List.flatMap_cons, run_utf8EncodeChar, char, tokensFrom]
    split
    next =>
      have hread := ih (s := { s.inToken (byteLength (before ++ current)) with quoted := !s.quoted })
        hsplit hmore
      rw [hnext] at hread
      exact hread
    next =>
      split
      next hsep =>
        rw [endToken_eq hline hstart, hsep.2]
        have hbehind : line = before ++ current ++ [c] ++ [] ++ rest := by
          rw [hline]
          simp
        have hread := ih (s := { s with tokens := s.tokens ++ consToken current [], start := none })
          hbehind rfl
        have hnext' : byteLength (before ++ current ++ [c] ++ []) =
            byteLength (before ++ current) + c.utf8Size := by
          rw [List.append_nil, byteLength_append, byteLength]
          rfl
        rw [hnext', hsep.2] at hread
        refine hread.trans ?_
        cases tokensFrom [] false rest with
        | none => rfl
        | some tokens =>
          simp only [Option.map_some, Option.map_eq_map, List.append_assoc, ← consToken_append]
      next =>
        have hread := ih (s := s.inToken (byteLength (before ++ current))) hsplit hmore
        rw [hnext] at hread
        exact hread

end Scan

section

variable {line before rest : List Char}

theorem tokens_eq (line : List Char) : tokens line = some (tokens? line) := by
  have hline : line = [] ++ [] ++ line := rfl
  have hscan := Scan.finish_run (s := {}) hline rfl
  refine hscan.trans ?_
  rw [tokens?]
  cases tokensFrom [] false line <;> rfl

theorem uncommentedFrom_eq (hline : line = before ++ rest) (quoted : Bool) :
    uncommentedFrom line quoted (byteLength before) rest =
      some (before ++ Assembly.uncommentedFrom quoted rest) := by
  induction rest generalizing before quoted with
  | nil =>
    rw [uncommentedFrom, Assembly.uncommentedFrom, hline]
  | cons c rest ih =>
    have hnext : byteLength (before ++ [c]) = byteLength before + c.utf8Size := by
      rw [byteLength_append, byteLength]
      rfl
    have hsplit : line = before ++ [c] ++ rest := by
      rw [hline, List.append_assoc]
      rfl
    rw [uncommentedFrom, Assembly.uncommentedFrom, ← hnext, ih hsplit, ih hsplit, List.append_assoc,
      List.append_assoc]
    split
    next => rfl
    next =>
      split
      next => rw [hline, text_front, List.append_nil]
      next => rfl

theorem strip_eq (line : List Char) : strip line = some (Assembly.strip line) := by
  have hline : line = [] ++ line := rfl
  have huncommented : uncommented line = some (Assembly.uncommented line) :=
    uncommentedFrom_eq hline false
  rw [strip, huncommented]
  rfl

theorem mapM_eq_some {α β : Type} {f : α → Option β} {g : α → β} {l : List α}
    (h : ∀ a ∈ l, f a = some (g a)) : l.mapM f = some (l.map g) := by
  induction l with
  | nil => rfl
  | cons a l ih =>
    obtain ⟨ha, hl⟩ := List.forall_mem_cons.mp h
    rw [List.mapM_cons, ha, ih hl]
    rfl

/-- A text has not more lines than bytes, so that its lines can be counted. -/
theorem significantLines_eq {source : String} (h : source.utf8ByteSize < Slot.limit) :
    significantLines source = some (Assembly.significantLines source) := by
  have hwords : Slot.limit < UInt64.size := by decide
  have hlines : (Text.lines source.toList).length ≤ source.utf8ByteSize := by
    have hlength := length_linesFrom_le [] source.toList
    have hbytes := length_le_byteLength source.toList
    rw [List.length_nil, Nat.zero_add] at hlength
    rw [← byteLength_toList]
    exact hlength.trans hbytes
  rw [significantLines, mapM_eq_some (g := fun e : List Char × Nat =>
    if Assembly.strip e.1 = [] then none else some (Line.mk (e.2 + 1) (Assembly.strip e.1)))]
  · rw [Assembly.significantLines, List.zipIdx_succ]
    simp only [Option.bind_eq_bind, Option.bind_some, List.filterMap_map]
    rfl
  · rintro ⟨raw, index⟩ hmem
    have hindex := List.snd_lt_of_mem_zipIdx hmem
    simp only [strip_eq, Option.bind_eq_bind, Option.bind_some]
    split
    next => rfl
    next =>
      rw [add_of_lt (by omega)]
      rfl

theorem unquote_of_quotes (inside : List Char) :
    unquote ('"' :: (inside ++ ['"'])) = some (some inside) := by
  have hquote : ('"' : Char).utf8Size = 1 := by decide
  have hinside : byteLength (inside ++ ['"']) = byteLength inside + 1 := by
    rw [byteLength_append, byteLength, hquote]
    rfl
  have htoken : byteLength ('"' :: (inside ++ ['"'])) = byteLength inside + 2 := by
    rw [byteLength, hquote, hinside]
    omega
  have hrest : text ('"' :: (inside ++ ['"'])) 1 (byteLength inside + 2) = some (inside ++ ['"']) := by
    rw [← htoken]
    exact text_back ['"'] (inside ++ ['"'])
  have hshort : ¬(byteLength inside + 2 < 2 ∨ ('"' :: (inside ++ ['"'])).head? ≠ some '"') := by simp
  have hlast : ¬(inside ++ ['"']).getLast? ≠ some '"' := by simp
  have hsub : sub (byteLength inside + 1) 1 = some (byteLength inside) := sub_of_le (by omega)
  rw [unquote, htoken, hrest, if_neg hshort]
  simp only [Option.bind_eq_bind, Option.bind_some, if_neg hlast, hinside, hsub, text_front,
    Option.pure_def]

theorem unquote_eq (token : String) : unquote token.toList = some (unquote? token) := by
  rw [unquote?]
  cases htoken : token.toList with
  | nil => rfl
  | cons c rest =>
    by_cases hc : c = '"'
    · subst hc
      simp only
      split
      next hlast =>
        obtain ⟨inside, rfl⟩ := List.getLast?_eq_some_iff.mp hlast
        rw [unquote_of_quotes, List.dropLast_concat]
      next hopen =>
        rw [unquote]
        split
        next => rfl
        next =>
          have hrest : text ('"' :: rest) 1 (byteLength ('"' :: rest)) = some rest :=
            text_back ['"'] rest
          simp only [hrest, Option.bind_eq_bind, Option.bind_some, ne_eq, hopen, not_false_eq_true,
            if_true, Option.pure_def]
    · have hnone : byteLength (c :: rest) < 2 ∨ (c :: rest).head? ≠ some '"' := by simp [hc]
      rw [unquote, if_pos hnone]
      split
      next => rename_i h; exact absurd (List.cons.inj h).1 hc
      next => rfl

end

end RegisterMachine.Checked

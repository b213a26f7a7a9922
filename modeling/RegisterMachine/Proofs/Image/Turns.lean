import Mathlib
import RegisterMachine.Proofs.Image.Spelling

namespace RegisterMachine

namespace Reader

variable {ε α β : Type} {r : Reader ε α} {f : α → Reader ε β} {n m : Nat}

/-- The reader takes at least so many bytes for a value. -/
def Consumes (r : Reader ε α) (n : Nat) : Prop :=
  ∀ input a rest, r.run input = (.ok a, rest) → rest.length + n ≤ input.length

theorem Reads.consumes {Spells : Bytes → α → Prop} {Short : ε → Prop} (hr : r.Reads Spells Short)
    (h : ∀ bs a, Spells bs a → n ≤ bs.length) : r.Consumes n := by
  intro input a rest hrun
  obtain ⟨bs, rfl, hbs⟩ := hr.spelled hrun
  have hle := h bs a hbs
  rw [List.length_append]
  omega

theorem run_bind_eq_ok {input rest : Bytes} {b : β} (h : (r >>= f).run input = (.ok b, rest)) :
    ∃ a middle, r.run input = (.ok a, middle) ∧ (f a).run middle = (.ok b, rest) := by
  rw [run_bind] at h
  rcases hrun : r.run input with ⟨_ | a, middle⟩
  · rw [hrun] at h
    cases (Prod.mk.inj h).1
  · rw [hrun] at h
    exact ⟨a, middle, rfl, h⟩

theorem Consumes.bind (hr : r.Consumes n) (hf : ∀ a, (f a).Consumes m) :
    (r >>= f).Consumes (n + m) := by
  intro input b rest hrun
  obtain ⟨a, middle, hfirst, hsecond⟩ := run_bind_eq_ok hrun
  have hle := hr input a middle hfirst
  have hle' := hf a middle b rest hsecond
  omega

theorem consumes_pure (a : α) : (pure a : Reader ε α).Consumes 0 := by
  intro input b rest hrun
  obtain ⟨-, rfl⟩ := Prod.mk.inj hrun
  exact le_rfl

theorem consumes_throw (e : ε) : (throw e : Reader ε α).Consumes n := by
  intro input b rest hrun
  cases (Prod.mk.inj hrun).1

theorem Consumes.map (g : α → β) (hr : r.Consumes n) : (g <$> r).Consumes n := by
  rw [← bind_pure_comp]
  exact hr.bind fun a => consumes_pure (g a)

theorem run_map_eq_ok {g : α → β} {input rest : Bytes} {b : β}
    (h : (g <$> r).run input = (.ok b, rest)) : ∃ a, r.run input = (.ok a, rest) ∧ g a = b := by
  rw [← bind_pure_comp] at h
  obtain ⟨a, middle, hrun, hpure⟩ := run_bind_eq_ok h
  obtain ⟨hb, rfl⟩ := Prod.mk.inj hpure
  exact ⟨a, hrun, Except.ok.inj hb⟩

/-- Takes `n` turns, each with what the one before it has left. -/
def turns {σ : Type} (turn : σ → Reader ε σ) : Nat → σ → Reader ε σ
  | 0, s => pure s
  | n + 1, s => turn s >>= turns turn n

/-- Values that are put behind each other turn by turn are read one after the other. -/
theorem turns_replicate {σ : Type} {put : List α → σ} {turn : σ → Reader ε σ} {found : List α}
    (hturn : ∀ found, turn (put found) = (fun a => put (found ++ [a])) <$> r) (n : Nat) :
    turns turn n (put found) = (fun as => put (found ++ as)) <$> Reader.replicate n r := by
  induction n generalizing found with
  | zero => simp [turns, Reader.replicate]
  | succ n ih => simp [turns, Reader.replicate, hturn, ih]

end Reader

open Reader

/-- Behind its tag a constant takes two bytes, if not more. -/
theorem Constant.two_le_of_payload {c : Constant} {payload : Bytes} (h : c.Payload payload) :
    2 ≤ payload.length := by
  have hfixed : ∀ width n, 2 ≤ width → 2 ≤ (Bytes.ofNat width n).length := by
    intro width n hle
    rwa [Bytes.length_ofNat]
  cases c with
  | u8 v | i8 v =>
    obtain ⟨high, rfl⟩ := h
    exact le_rfl
  | string s =>
    obtain ⟨rfl, -⟩ := h
    exact (hfixed 8 _ (by omega)).trans (List.length_append ▸ Nat.le_add_right _ _)
  | u16 v | u32 v | u64 v | i16 v | i32 v | i64 v | float v =>
    obtain rfl : payload = _ := h
    exact hfixed _ _ (by omega)

namespace Image

section

variable {α κ σ : Type} [BEq κ]

/-- Reads an entry whose key has to differ from those of the entries that were found. -/
def readNew (read : Reader LoadError α) (key : α → κ) (duplicate : κ → LoadError) (found : List α) :
    Reader LoadError α := do
  let entry ← read
  if (found.map key).contains (key entry) then throw (duplicate (key entry))
  pure entry

/-- Entries with different keys that are put behind each other turn by turn are read one after the
other. -/
theorem turns_distinct [LawfulBEq κ] {read : Reader LoadError α} {key : α → κ}
    {duplicate : κ → LoadError} {put : List α → σ} {turn : σ → Reader LoadError σ} {found : List α}
    {seen : List κ}
    (hturn : ∀ found, turn (put found) =
      (fun a => put (found ++ [a])) <$> readNew read key duplicate found)
    (hseen : ∀ k, k ∈ seen ↔ k ∈ found.map key) (n : Nat) :
    turns turn n (put found) =
      (fun as => put (found ++ as)) <$> readDistinct read key duplicate seen n := by
  induction n generalizing found seen with
  | zero => simp [turns, readDistinct]
  | succ n ih =>
    have hcontains : ∀ k, (found.map key).contains k = seen.contains k := by
      intro k
      rw [Bool.eq_iff_iff, List.contains_iff_mem, List.contains_iff_mem, hseen]
    have hnext : ∀ a k, k ∈ key a :: seen ↔ k ∈ (found ++ [a]).map key := by
      intro a k
      rw [List.mem_cons, hseen, List.map_append, List.mem_append, List.map_singleton,
        List.mem_singleton, or_comm]
    rw [turns, readDistinct, hturn, readNew, map_bind, bind_assoc, map_bind]
    congr 1
    funext a
    rw [hcontains]
    split
    next => rfl
    next => simp [ih (hnext a)]

theorem consumes_readNew {read : Reader LoadError α} {key : α → κ} {duplicate : κ → LoadError}
    {found : List α} {n : Nat} (hread : read.Consumes n) :
    (readNew read key duplicate found).Consumes n := by
  refine hread.bind (m := 0) fun a => ?_
  split
  next => exact consumes_throw _
  next => exact consumes_pure a

end

/-- The tables of an image, in the order in which they are read. -/
inductive Table where
  | sections
  | interrupts
  | constants
deriving DecidableEq

namespace Table

/-- The number of bytes that each entry takes, if not more. -/
def least : Table → Nat
  | sections => 16
  | interrupts => 16
  | constants => 3

/-- The part of an image that tells how many entries the table has. -/
def countField : Table → Field
  | sections => .sectionCount
  | interrupts => .interruptCount
  | constants => .constantCount

/-- The number of entries in the table of an image. -/
def size (image : Image) : Table → Nat
  | sections => image.sections.length
  | interrupts => image.interrupts.length
  | constants => image.constants.length

/-- The number of tables that are read before this one. -/
def place : Table → Nat
  | sections => 0
  | interrupts => 1
  | constants => 2

/-- The table that is read after this one. -/
def next? : Table → Option Table
  | sections => some interrupts
  | interrupts => some constants
  | constants => none

/-- Reads one more entry of the table. -/
def turn (t : Table) (parts : Image) : Reader LoadError Image :=
  match t with
  | sections =>
    (fun s => { parts with sections := parts.sections ++ [s] }) <$>
      readNew (field .sectionEntry) Section.name .duplicateSection parts.sections
  | interrupts =>
    (fun h => { parts with interrupts := parts.interrupts ++ [h] }) <$>
      readNew (field .interruptEntry) Handler.id .duplicateInterrupt parts.interrupts
  | constants => (fun c => { parts with constants := parts.constants ++ [c] }) <$> Constant.read

end Table

/-- An image of which nothing is known but the version and the debug level. -/
def blank (version : Version) (debug : DebugLevel) : Image where
  version := version
  debug := debug
  sections := []
  interrupts := []
  constants := []
  entry := 0
  instructions := []

/-- Reads what stands in front of the sections, and the number of them. -/
def readFront : Reader LoadError (Image × UInt64) := do
  let version ← readVersion
  let debug ← readDebugLevel
  let count ← field (α := UInt64) .sectionCount
  pure (blank version debug, count)

/-- Reads the entry and the bytes of the code stream. -/
def readStream : Reader LoadError (UInt64 × Bytes) := do
  let entry ← field .entry
  let length ← field (α := UInt64) .codeLength
  let code ← Reader.take (.truncated .code) length.toNat
  pure (entry, code)

/-- Puts the instructions to what was read of an image; nothing may follow them. -/
def close (parts : Image) (decoded : Except CodeError (List Instruction)) : Reader LoadError Image :=
  match decoded with
  | .ok is => do
    let rest ← Reader.remaining
    if rest ≠ 0 then throw (.trailing rest)
    pure { parts with instructions := parts.instructions ++ is }
  | .error e => throw (.code e)

/-- Reads what stands behind the tables. -/
def readEnd (parts : Image) : Reader LoadError Image := do
  let stream ← readStream
  close { parts with entry := stream.1 } (Code.decode stream.2)

namespace Table

/-- Reads the table from its count on. -/
def read (t : Table) (parts : Image) : Reader LoadError Image := do
  let count ← field (α := UInt64) t.countField
  turns t.turn count.toNat parts

/-- Reads what stands behind the table. -/
def readBehind : Table → Image → Reader LoadError Image
  | sections, parts => interrupts.read parts >>= fun parts => constants.read parts >>= readEnd
  | interrupts, parts => constants.read parts >>= readEnd
  | constants, parts => readEnd parts

theorem readBehind_of_next {t t' : Table} (h : t.next? = some t') (parts : Image) :
    t.readBehind parts = field (α := UInt64) t'.countField >>= fun count =>
      turns t'.turn count.toNat parts >>= t'.readBehind := by
  cases t with
  | sections =>
    obtain rfl := Option.some.inj h
    exact bind_assoc ..
  | interrupts =>
    obtain rfl := Option.some.inj h
    exact bind_assoc ..
  | constants => cases h

theorem read_sections {parts : Image} (h : parts.sections = []) :
    sections.read parts = (fun ss => { parts with sections := ss }) <$> readSections := by
  let put (ss : List Section) : Image := { parts with sections := ss }
  have hself : put [] = parts := by rw [← h]
  have hturns : ∀ n, turns sections.turn n (put []) = put <$>
      readDistinct (field .sectionEntry) Section.name .duplicateSection [] n :=
    turns_distinct (fun _ => rfl) (by simp)
  rw [hself] at hturns
  simp only [read, hturns, readSections, map_bind]
  rfl

theorem read_interrupts {parts : Image} (h : parts.interrupts = []) :
    interrupts.read parts = (fun hs => { parts with interrupts := hs }) <$> readInterrupts := by
  let put (hs : List Handler) : Image := { parts with interrupts := hs }
  have hself : put [] = parts := by rw [← h]
  have hturns : ∀ n, turns interrupts.turn n (put []) = put <$>
      readDistinct (field .interruptEntry) Handler.id .duplicateInterrupt [] n :=
    turns_distinct (fun _ => rfl) (by simp)
  rw [hself] at hturns
  simp only [read, hturns, readInterrupts, map_bind]
  rfl

theorem read_constants {parts : Image} (h : parts.constants = []) :
    constants.read parts = (fun cs => { parts with constants := cs }) <$> readConstants := by
  let put (cs : List Constant) : Image := { parts with constants := cs }
  have hself : put [] = parts := by rw [← h]
  have hturns : ∀ n, turns constants.turn n (put []) = put <$> Reader.replicate n Constant.read :=
    turns_replicate fun _ => rfl
  rw [hself] at hturns
  simp only [read, hturns, readConstants, map_bind]
  rfl

end Table

/-- Reading the end of an image with nothing but its instructions missing. -/
theorem readEnd_eq {parts : Image} (h : parts.instructions = []) : readEnd parts = (do
    let entry ← field .entry
    let instructions ← readCode
    let rest ← Reader.remaining
    if rest ≠ 0 then throw (.trailing rest)
    pure { parts with entry, instructions }) := by
  simp only [readEnd, readStream, readCode, bind_assoc, pure_bind]
  congr 1
  funext entry
  congr 1
  funext length
  congr 1
  funext code
  cases Code.decode code with
  | ok is => simp [close, h]
  | error e => rfl

/-- An image is read as it is when its parts are read in turn. -/
theorem read_eq_turns : Image.read = readFront >>= fun front =>
    turns Table.sections.turn front.2.toNat front.1 >>= Table.sections.readBehind := by
  have hfront : (readFront >>= fun front =>
      turns Table.sections.turn front.2.toNat front.1 >>= Table.sections.readBehind) = (do
        let version ← readVersion
        let debug ← readDebugLevel
        Table.sections.read (blank version debug) >>= Table.sections.readBehind) := by
    simp only [readFront, Table.read, bind_assoc, pure_bind]
    rfl
  rw [hfront]
  simp only [Image.read, blank, Table.read_sections, Table.readBehind, Table.read_interrupts,
    Table.read_constants, readEnd_eq, bind_map_left]

theorem consumes_uint64 (part : Field) : (field (α := UInt64) part).Consumes 8 :=
  (Binary.canonical_uint64.field part).consumes fun _ _ h => by
    rw [h.1]
    exact le_rfl

namespace Table

theorem place_of_next {t t' : Table} (h : t.next? = some t') : t'.place = t.place + 1 := by
  cases t with
  | sections => exact congrArg place (Option.some.inj h).symm
  | interrupts => exact congrArg place (Option.some.inj h).symm
  | constants => cases h

theorem eq_constants_of_next {t : Table} (h : t.next? = none) : t = .constants := by
  cases t with
  | sections => cases h
  | interrupts => cases h
  | constants => rfl

theorem eq_of_place_eq {t t' : Table} (h : t.place = t'.place) : t = t' := by
  cases t <;> cases t' <;> first | rfl | cases h

theorem least_pos (t : Table) : 0 < t.least := by
  cases t <;> decide

theorem consumes_turn (t : Table) (parts : Image) : (t.turn parts).Consumes t.least := by
  have hquad : ∀ n : UInt64, (Binary.encode n).length = 8 := fun n => Bytes.length_ofNat 8 n.toNat
  cases t with
  | sections =>
    refine (consumes_readNew ?_).map _
    refine (Binary.canonical_section.field .sectionEntry).consumes ?_
    rintro _ s ⟨rfl, -⟩
    change 16 ≤ (Binary.encode s.address ++
      (Binary.encode (UInt64.ofNat s.name.toUTF8.data.toList.length) ++ s.name.toUTF8.data.toList)).length
    simp only [List.length_append, hquad]
    omega
  | interrupts =>
    refine (consumes_readNew ?_).map _
    refine (Binary.canonical_handler.field .interruptEntry).consumes ?_
    rintro _ h ⟨rfl, -⟩
    change 16 ≤ (Binary.encode h.id ++ Binary.encode h.address).length
    simp only [List.length_append, hquad]
    exact le_rfl
  | constants =>
    refine (Constant.reads.consumes ?_).map _
    rintro _ c ⟨payload, rfl, hpayload⟩
    have hle := c.two_le_of_payload hpayload
    exact Nat.succ_le_succ hle

/-- A turn puts one entry to its table and leaves the others alone. -/
theorem size_turn {t : Table} {parts parts' : Image} {unread rest : Bytes}
    (h : (t.turn parts).run unread = (.ok parts', rest)) (t' : Table) :
    t'.size parts' = t'.size parts + if t' = t then 1 else 0 := by
  cases t with
  | sections =>
    obtain ⟨s, -, rfl⟩ := run_map_eq_ok h
    cases t' <;> simp [size]
  | interrupts =>
    obtain ⟨i, -, rfl⟩ := run_map_eq_ok h
    cases t' <;> simp [size]
  | constants =>
    obtain ⟨c, -, rfl⟩ := run_map_eq_ok h
    cases t' <;> simp [size]

end Table

theorem length_of_readStream {unread code rest : Bytes} {entry : UInt64}
    (h : readStream.run unread = (.ok (entry, code), rest)) :
    code.length + rest.length + 16 ≤ unread.length := by
  obtain ⟨entry', middle, hentry, hmiddle⟩ := run_bind_eq_ok h
  obtain ⟨length, middle', hlength, hmiddle'⟩ := run_bind_eq_ok hmiddle
  obtain ⟨code', rest', htake, hpure⟩ := run_bind_eq_ok hmiddle'
  obtain ⟨hstream, rfl⟩ := Prod.mk.inj hpure
  obtain ⟨-, rfl⟩ := Prod.mk.inj (Except.ok.inj hstream)
  have hle := consumes_uint64 .entry _ _ _ hentry
  have hle' := consumes_uint64 .codeLength _ _ _ hlength
  rw [run_take] at htake
  split at htake
  next hfits =>
    obtain ⟨hcode, rfl⟩ := Prod.mk.inj htake
    obtain rfl := Except.ok.inj hcode
    rw [List.length_take, List.length_drop]
    omega
  next => cases (Prod.mk.inj htake).1

end Image
end RegisterMachine

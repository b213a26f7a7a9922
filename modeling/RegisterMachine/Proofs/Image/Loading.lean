import Mathlib
import RegisterMachine.Proofs.Image.Turns

namespace RegisterMachine

open Reader

namespace Code

/-- Reads the first instruction of a stream with this byte at its front, which has the given offset. -/
def first (offset : Nat) (byte : UInt8) (rest : Bytes) : Except CodeError Instruction := do
  let op ← Opcode.ofByte byte
  if op.operandBytes ≤ rest.length then Instruction.ofBytes op (rest.take op.operandBytes)
  else throw (.cutShort op offset)

theorem decodeFrom_cons (offset : Nat) (byte : UInt8) (rest : Bytes) :
    decodeFrom offset (byte :: rest) = (do
      let i ← first offset byte rest
      let is ← decodeFrom (offset + i.size) (rest.drop i.opcode.operandBytes)
      pure (i :: is)) := by
  rw [decodeFrom, first]
  cases Opcode.ofByte byte with
  | error e => rfl
  | ok op =>
    simp only [bind, Except.bind]
    split
    next hle =>
      have hlen : (rest.take op.operandBytes).length = op.operandBytes := List.length_take_of_le hle
      cases hi : Instruction.ofBytes op (rest.take op.operandBytes) with
      | error e => rfl
      | ok i =>
        have hop : i.opcode = op := by
          have hbytes := (Instruction.ofBytes_eq_ok_iff hlen).mp hi
          exact Opcode.byte_inj (List.cons.inj hbytes).1
        rw [← hop]
        rfl
    next => rfl

end Code

namespace Image

/-- How far the loading of an image has come. -/
inductive Stage where
  /-- Nothing is read yet. -/
  | head
  /-- A table with so many declared entries is read, and so many of them were found. -/
  | table (t : Table) (count found : Nat)
  /-- The code stream is read, from this offset on, and these bytes stand behind it. -/
  | code (offset : Nat) (behind : Bytes)

/-- An image that is being loaded. -/
structure Loading where
  stage : Stage
  /-- What was read of the image. -/
  parts : Image
  /-- The bytes that are still to be read, in the code stream those of the stream. -/
  unread : Bytes

namespace Loading

/-- What becomes of reading one part: it takes the loading further, or ends it with an error. -/
def after {α : Type} (r : Reader LoadError α) (unread : Bytes) (next : α → Bytes → Loading) :
    Loading ⊕ Except LoadError Image :=
  match r.run unread with
  | (.ok a, rest) => .inl (next a rest)
  | (.error e, _) => .inr (.error e)

/-- The beginning of loading an image. -/
def start (bytes : Bytes) : Loading where
  stage := .head
  parts := blank ⟨0, 0, 0, 0⟩ .none
  unread := bytes

/-- Reads one part, one entry of a table or one instruction, or ends with the result. -/
def step (s : Loading) : Loading ⊕ Except LoadError Image :=
  match s.stage with
  | .head => after readFront s.unread fun front rest => ⟨.table .sections front.2.toNat 0, front.1, rest⟩
  | .table t count found =>
    if found < count then
      after (t.turn s.parts) s.unread fun parts rest => ⟨.table t count (found + 1), parts, rest⟩
    else
      match t.next? with
      | some t' => after (field (α := UInt64) t'.countField) s.unread fun count rest =>
          ⟨.table t' count.toNat 0, s.parts, rest⟩
      | none => after readStream s.unread fun stream rest =>
          ⟨.code 0 rest, { s.parts with entry := stream.1 }, stream.2⟩
  | .code offset behind =>
    match s.unread with
    | [] => .inr (if behind = [] then .ok s.parts else .error (.trailing behind.length))
    | byte :: rest =>
      match Code.first offset byte rest with
      | .ok i => .inl ⟨.code (offset + i.size) behind,
          { s.parts with instructions := s.parts.instructions ++ [i] },
          rest.drop i.opcode.operandBytes⟩
      | .error e => .inr (.error (.code e))

/-- The second state is reached from the first one in so many steps. -/
inductive Takes : Loading → Nat → Loading → Prop
  | refl (s : Loading) : Takes s 0 s
  | step {s s₁ s₂ : Loading} {n : Nat} : s.step = .inl s₁ → Takes s₁ n s₂ → Takes s (n + 1) s₂

section

variable {t t' : Table} {parts : Image} {unread behind rest : Bytes} {count found offset : Nat} {byte : UInt8}

theorem step_head : step ⟨.head, parts, unread⟩ =
    after readFront unread fun front rest => ⟨.table .sections front.2.toNat 0, front.1, rest⟩ := rfl

theorem step_turn (h : found < count) : step ⟨.table t count found, parts, unread⟩ =
    after (t.turn parts) unread fun parts rest => ⟨.table t count (found + 1), parts, rest⟩ :=
  if_pos h

theorem step_next (h : count ≤ found) (hnext : t.next? = some t') :
    step ⟨.table t count found, parts, unread⟩ =
      after (field (α := UInt64) t'.countField) unread fun count rest =>
        ⟨.table t' count.toNat 0, parts, rest⟩ := by
  simp only [step, if_neg (Nat.not_lt.mpr h), hnext]

theorem step_stream (h : count ≤ found) : step ⟨.table .constants count found, parts, unread⟩ =
    after readStream unread fun stream rest => ⟨.code 0 rest, { parts with entry := stream.1 }, stream.2⟩ :=
  if_neg (Nat.not_lt.mpr h)

theorem step_end : step ⟨.code offset behind, parts, []⟩ =
    .inr (if behind = [] then .ok parts else .error (.trailing behind.length)) := rfl

theorem step_instruction {i : Instruction} (h : Code.first offset byte rest = .ok i) :
    step ⟨.code offset behind, parts, byte :: rest⟩ = .inl ⟨.code (offset + i.size) behind,
      { parts with instructions := parts.instructions ++ [i] }, rest.drop i.opcode.operandBytes⟩ := by
  simp only [step, h]

theorem step_fault {e : CodeError} (h : Code.first offset byte rest = .error e) :
    step ⟨.code offset behind, parts, byte :: rest⟩ = .inr (.error (.code e)) := by
  simp only [step, h]

end

section

variable {α : Type} {r : Reader LoadError α}

/-- What a state comes to when everything that is missing is read. -/
def result (s : Loading) : Except LoadError Image :=
  match s.stage with
  | .head => load s.unread
  | .table t count found =>
    ((turns t.turn (count - found) s.parts >>= t.readBehind).run s.unread).1
  | .code offset behind => ((close s.parts (Code.decodeFrom offset s.unread)).run behind).1

/-- Reading a part comes to what is read behind it. -/
theorem result_after {next : α → Bytes → Loading} {k : α → Reader LoadError Image}
    (hk : ∀ a rest, (next a rest).result = ((k a).run rest).1) (unread : Bytes) :
    (after r unread next).elim result id = ((r >>= k).run unread).1 := by
  rw [after, run_bind]
  rcases r.run unread with ⟨_ | a, rest⟩
  · rfl
  · exact hk a rest

theorem close_instruction (parts : Image) (i : Instruction)
    (decoded : Except CodeError (List Instruction)) :
    close parts (do let is ← decoded; pure (i :: is)) =
      close { parts with instructions := parts.instructions ++ [i] } decoded := by
  cases decoded with
  | error e => rfl
  | ok is =>
    have hcons : parts.instructions ++ i :: is = parts.instructions ++ [i] ++ is := by simp
    change close parts (.ok (i :: is)) = _
    rw [close, close, hcons]

/-- A step does not change what the state comes to. -/
theorem result_step (s : Loading) : s.step.elim result id = s.result := by
  obtain ⟨stage, parts, unread⟩ := s
  cases stage with
  | head =>
    have hload : result ⟨.head, parts, unread⟩ = (Image.read.run unread).1 := rfl
    rw [hload, read_eq_turns, step_head]
    exact result_after (fun _ _ => rfl) unread
  | table t count found =>
    have hturns : result ⟨.table t count found, parts, unread⟩ =
        ((turns t.turn (count - found) parts >>= t.readBehind).run unread).1 := rfl
    rw [hturns]
    rcases Nat.lt_or_ge found count with hlt | hge
    · have hmore : count - found = count - (found + 1) + 1 := by omega
      rw [hmore, turns, bind_assoc, step_turn hlt]
      exact result_after (fun _ _ => rfl) unread
    · rw [Nat.sub_eq_zero_of_le hge, turns, pure_bind]
      cases hnext : t.next? with
      | some t' =>
        rw [Table.readBehind_of_next hnext, step_next hge hnext]
        exact result_after (fun _ _ => rfl) unread
      | none =>
        obtain rfl := Table.eq_constants_of_next hnext
        rw [step_stream hge]
        exact result_after (fun _ _ => rfl) unread
  | code offset behind =>
    have hclose : result ⟨.code offset behind, parts, unread⟩ =
        ((close parts (Code.decodeFrom offset unread)).run behind).1 := rfl
    rw [hclose]
    cases unread with
    | nil =>
      rw [Code.decodeFrom_nil, step_end]
      cases behind with
      | nil =>
        have hself : { parts with instructions := parts.instructions ++ [] } = parts := by
          rw [List.append_nil]
        exact congrArg Except.ok hself.symm
      | cons b behind => rfl
    | cons byte rest =>
      rw [Code.decodeFrom_cons]
      cases hfirst : Code.first offset byte rest with
      | error e =>
        rw [step_fault hfirst]
        rfl
      | ok i =>
        rw [step_instruction hfirst]
        change _ = ((close parts (do
          let is ← Code.decodeFrom (offset + i.size) (rest.drop i.opcode.operandBytes)
          pure (i :: is))).run behind).1
        rw [close_instruction]
        rfl

end

variable {α : Type} {r : Reader LoadError α} {s s' : Loading} {n : Nat}

/-- The second state is the one that a step leads to from the first one. -/
inductive Goes : Loading → Loading → Prop
  | head {parts : Image} {unread rest : Bytes} {version : Version} {debug : DebugLevel} {count : UInt64} :
      readFront.run unread = (.ok (blank version debug, count), rest) →
      Goes ⟨.head, parts, unread⟩ ⟨.table .sections count.toNat 0, blank version debug, rest⟩
  | turn {t : Table} {count found : Nat} {parts parts' : Image} {unread rest : Bytes} : found < count →
      (t.turn parts).run unread = (.ok parts', rest) →
      Goes ⟨.table t count found, parts, unread⟩ ⟨.table t count (found + 1), parts', rest⟩
  | next {t t' : Table} {count found : Nat} {parts : Image} {unread rest : Bytes} {more : UInt64} :
      count ≤ found → t.next? = some t' →
      (field (α := UInt64) t'.countField).run unread = (.ok more, rest) →
      Goes ⟨.table t count found, parts, unread⟩ ⟨.table t' more.toNat 0, parts, rest⟩
  | stream {count found : Nat} {parts : Image} {unread code rest : Bytes} {entry : UInt64} :
      count ≤ found → readStream.run unread = (.ok (entry, code), rest) →
      Goes ⟨.table .constants count found, parts, unread⟩
        ⟨.code 0 rest, { parts with entry := entry }, code⟩
  | instruction {offset : Nat} {parts : Image} {byte : UInt8} {rest behind : Bytes} {i : Instruction} :
      Code.first offset byte rest = .ok i →
      Goes ⟨.code offset behind, parts, byte :: rest⟩ ⟨.code (offset + i.size) behind,
        { parts with instructions := parts.instructions ++ [i] }, rest.drop i.opcode.operandBytes⟩

theorem after_eq_inl {next : α → Bytes → Loading} {unread : Bytes} (h : after r unread next = .inl s') :
    ∃ a rest, r.run unread = (.ok a, rest) ∧ s' = next a rest := by
  rw [after] at h
  rcases hrun : r.run unread with ⟨_ | a, rest⟩
  · rw [hrun] at h
    cases h
  · rw [hrun] at h
    exact ⟨a, rest, rfl, (Sum.inl.inj h).symm⟩

theorem goes_of_step (h : s.step = .inl s') : Goes s s' := by
  obtain ⟨stage, parts, unread⟩ := s
  cases stage with
  | head =>
    rw [step_head] at h
    obtain ⟨⟨parts', count⟩, rest, hrun, rfl⟩ := after_eq_inl h
    obtain ⟨version, middle, hversion, hmiddle⟩ := run_bind_eq_ok hrun
    obtain ⟨debug, middle', hdebug, hmiddle'⟩ := run_bind_eq_ok hmiddle
    obtain ⟨more, rest', hmore, hpure⟩ := run_bind_eq_ok hmiddle'
    obtain ⟨hfront, -⟩ := Prod.mk.inj hpure
    obtain ⟨rfl, rfl⟩ := Prod.mk.inj (Except.ok.inj hfront)
    exact .head hrun
  | table t count found =>
    rcases Nat.lt_or_ge found count with hlt | hge
    · rw [step_turn hlt] at h
      obtain ⟨parts', rest, hrun, rfl⟩ := after_eq_inl h
      exact .turn hlt hrun
    · cases hnext : t.next? with
      | some t' =>
        rw [step_next hge hnext] at h
        obtain ⟨more, rest, hrun, rfl⟩ := after_eq_inl h
        exact .next hge hnext hrun
      | none =>
        obtain rfl := Table.eq_constants_of_next hnext
        rw [step_stream hge] at h
        obtain ⟨⟨entry, code⟩, rest, hrun, rfl⟩ := after_eq_inl h
        exact .stream hge hrun
  | code offset behind =>
    cases unread with
    | nil => cases h
    | cons byte rest =>
      cases hfirst : Code.first offset byte rest with
      | error e =>
        rw [step_fault hfirst] at h
        cases h
      | ok i =>
        rw [step_instruction hfirst] at h
        obtain rfl := Sum.inl.inj h
        exact .instruction hfirst

/-- Every step makes what is still to be read shorter. -/
theorem length_lt_of_goes (h : Goes s s') : s'.unread.length < s.unread.length := by
  cases h with
  | head hrun =>
    have hconsumes : readFront.Consumes (0 + (0 + (8 + 0))) :=
      (reads_version.consumes fun _ _ _ => Nat.zero_le _).bind fun _ =>
        (reads_debugLevel.consumes fun _ _ _ => Nat.zero_le _).bind fun _ =>
          (consumes_uint64 .sectionCount).bind fun _ => consumes_pure _
    have hle := hconsumes _ _ _ hrun
    dsimp only
    omega
  | @turn t _ _ _ _ _ _ _ hrun =>
    have hle := t.consumes_turn _ _ _ _ hrun
    have hpos := t.least_pos
    dsimp only
    omega
  | next _ _ hrun =>
    have hle := consumes_uint64 _ _ _ _ hrun
    dsimp only
    omega
  | stream _ hrun =>
    have hle := length_of_readStream hrun
    dsimp only
    omega
  | instruction _ =>
    rw [List.length_drop, List.length_cons]
    omega

/-- What a step keeps is kept by any number of steps. -/
theorem Takes.keeps {P : Loading → Prop} (h : Takes s n s')
    (hstep : ∀ s s', s.step = .inl s' → P s → P s') (hs : P s) : P s' := by
  induction h with
  | refl s => exact hs
  | step hfirst _ ih => exact ih (hstep _ _ hfirst hs)

theorem result_of_step (h : s.step = .inl s') : s'.result = s.result := by
  have hresult := result_step s
  rwa [h] at hresult

theorem result_of_takes (h : Takes s n s') : s'.result = s.result :=
  h.keeps (fun _ _ hstep hs => (result_of_step hstep).trans hs) rfl

/-- From every state the loading comes to its end, within as many steps as there are unread bytes. -/
theorem exists_end (s : Loading) :
    ∃ n s', Takes s n s' ∧ s'.step = .inr s.result ∧ n ≤ s.unread.length := by
  induction hlen : s.unread.length using Nat.strong_induction_on generalizing s with
  | _ length ih =>
    cases hstep : s.step with
    | inl s₁ =>
      have hlt := length_lt_of_goes (goes_of_step hstep)
      obtain ⟨n, s', htakes, hend, hle⟩ := ih _ (hlen ▸ hlt) s₁ rfl
      refine ⟨n + 1, s', .step hstep htakes, ?_, by omega⟩
      rw [hend, result_of_step hstep]
    | inr result =>
      have hresult := result_step s
      rw [hstep] at hresult
      exact ⟨0, s, .refl s, hstep.trans (congrArg Sum.inr hresult), Nat.zero_le _⟩

/-- The table that is being read has as many entries as were found, and those behind it have none. -/
def Counted (s : Loading) : Prop :=
  match s.stage with
  | .head => True
  | .table t count found => found ≤ count ∧ t.size s.parts = found ∧
      ∀ t' : Table, t.place < t'.place → t'.size s.parts = 0
  | .code _ _ => True

theorem counted_of_goes (h : Goes s s') (hs : s.Counted) : s'.Counted := by
  cases h with
  | head _ => exact ⟨Nat.zero_le _, rfl, fun t' _ => by cases t' <;> rfl⟩
  | turn hlt hrun =>
    obtain ⟨-, hsize, hbehind⟩ := hs
    have hturn := Table.size_turn hrun
    refine ⟨hlt, ?_, fun t' hplace => ?_⟩
    · rw [hturn, if_pos rfl, hsize]
    · have hne : t' ≠ _ := fun heq => absurd hplace (heq ▸ Nat.lt_irrefl _)
      rw [hturn, if_neg hne, hbehind t' hplace]
  | next _ hnext _ =>
    obtain ⟨-, -, hbehind⟩ := hs
    have hplace := Table.place_of_next hnext
    exact ⟨Nat.zero_le _, hbehind _ (by omega), fun t' hlt => hbehind t' (by omega)⟩
  | stream _ _ => trivial
  | instruction _ => trivial

/-- The table has its declared number of entries, or it is being read. -/
def Settled (t : Table) (count : Nat) (s : Loading) : Prop :=
  match s.stage with
  | .head => False
  | .table t' count' _ => t = t' ∧ count = count' ∨ t.place < t'.place ∧ t.size s.parts = count
  | .code _ _ => t.size s.parts = count

theorem settled_of_goes {t : Table} {count : Nat} (h : Goes s s') (hs : s.Counted)
    (hsettled : s.Settled t count) : s'.Settled t count := by
  cases h with
  | head _ => exact hsettled.elim
  | turn hlt hrun =>
    rcases hsettled with hsame | ⟨hplace, hsize⟩
    · exact .inl hsame
    · have hne : t ≠ _ := fun heq => absurd hplace (heq ▸ Nat.lt_irrefl _)
      exact .inr ⟨hplace, by rw [Table.size_turn hrun, if_neg hne]; exact hsize⟩
  | next hge hnext _ =>
    obtain ⟨hle, hfound, -⟩ := hs
    have hnext := Table.place_of_next hnext
    rcases hsettled with ⟨rfl, rfl⟩ | ⟨hplace, hsize⟩
    · exact .inr ⟨by omega, hfound.trans (le_antisymm hle hge)⟩
    · exact .inr ⟨by omega, hsize⟩
  | stream hge _ =>
    obtain ⟨hle, hfound, -⟩ := hs
    rcases hsettled with ⟨rfl, rfl⟩ | ⟨-, hsize⟩
    · exact hfound.trans (le_antisymm hle hge)
    · cases t <;> exact hsize
  | instruction _ => cases t <;> exact hsettled

theorem after_ne {next : α → Bytes → Loading} {unread : Bytes} {image : Image} :
    after r unread next ≠ .inr (.ok image) := by
  rw [after]
  rcases r.run unread with ⟨_ | a, rest⟩
  · exact fun h => by cases h
  · exact fun h => by cases h

/-- A table that is being read is not the end of an image. -/
theorem step_table_ne {t : Table} {count found : Nat} {parts image : Image} {unread : Bytes} :
    step ⟨.table t count found, parts, unread⟩ ≠ .inr (.ok image) := by
  rcases Nat.lt_or_ge found count with hlt | hge
  · rw [step_turn hlt]
    exact after_ne
  · cases hnext : t.next? with
    | some t' =>
      rw [step_next hge hnext]
      exact after_ne
    | none =>
      obtain rfl := Table.eq_constants_of_next hnext
      rw [step_stream hge]
      exact after_ne

/-- An image is loaded at the end of its code stream. -/
theorem stage_of_step_ok {image : Image} (h : s.step = .inr (.ok image)) :
    ∃ offset, s.stage = .code offset [] ∧ s.parts = image := by
  obtain ⟨stage, parts, unread⟩ := s
  cases stage with
  | head => exact absurd h after_ne
  | table t count found => exact absurd h step_table_ne
  | code offset behind =>
    cases unread with
    | nil =>
      rw [step_end] at h
      split at h
      next hbehind =>
        subst hbehind
        exact ⟨offset, rfl, Except.ok.inj (Sum.inr.inj h)⟩
      next => cases h
    | cons byte rest =>
      cases hfirst : Code.first offset byte rest with
      | error e =>
        rw [step_fault hfirst] at h
        cases h
      | ok i =>
        rw [step_instruction hfirst] at h
        cases h

theorem counted_of_takes (h : Takes s n s') (hs : s.Counted) : s'.Counted :=
  h.keeps (fun _ _ hstep => counted_of_goes (goes_of_step hstep)) hs

/-- The table that is being read has its declared number of entries in the end. -/
theorem size_of_takes {t : Table} {count found : Nat} {parts image : Image} {unread : Bytes}
    (h : Takes ⟨.table t count found, parts, unread⟩ n s')
    (hs : Counted ⟨.table t count found, parts, unread⟩) (hend : s'.step = .inr (.ok image)) :
    t.size image = count := by
  have hsettled : s'.Counted ∧ s'.Settled t count := by
    refine h.keeps (P := fun s => s.Counted ∧ s.Settled t count) ?_ ⟨hs, .inl ⟨rfl, rfl⟩⟩
    rintro s s' hstep ⟨hcounted, hsettled⟩
    have hgoes := goes_of_step hstep
    exact ⟨counted_of_goes hgoes hcounted, settled_of_goes hgoes hcounted hsettled⟩
  obtain ⟨offset, hstage, rfl⟩ := stage_of_step_ok hend
  have hcode := hsettled.2
  rwa [Settled, hstage] at hcode

/-- For the entries that are missing in a table there are enough unread bytes, if an image is loaded. -/
theorem missing_le_of_takes {t : Table} {count : Nat} {image : Image} (h : Takes s n s')
    (hend : s'.step = .inr (.ok image)) :
    ∀ {found parts unread}, s = ⟨.table t count found, parts, unread⟩ →
      (count - found) * t.least ≤ unread.length := by
  induction h with
  | refl s =>
    rintro found parts unread rfl
    exact absurd hend step_table_ne
  | step hstep _ ih =>
    rintro found parts unread rfl
    cases goes_of_step hstep with
    | turn hlt hrun =>
      have hle := ih hend rfl
      have hconsumes := t.consumes_turn _ _ _ _ hrun
      have hmore : count - found = count - (found + 1) + 1 := by omega
      rw [hmore, Nat.add_mul, Nat.one_mul]
      omega
    | next hge _ _ =>
      rw [Nat.sub_eq_zero_of_le hge, Nat.zero_mul]
      exact Nat.zero_le _
    | stream hge _ =>
      rw [Nat.sub_eq_zero_of_le hge, Nat.zero_mul]
      exact Nat.zero_le _

/-- The table is still to be read, its count as well. -/
def Ahead (t : Table) (s : Loading) : Prop :=
  match s.stage with
  | .head => True
  | .table t' _ _ => t'.place < t.place
  | .code _ _ => False

theorem ahead_or_opened_of_goes {t : Table} (h : Goes s s') (hs : s.Ahead t) :
    s'.Ahead t ∨ ∃ count parts unread, s' = ⟨.table t count 0, parts, unread⟩ := by
  cases h with
  | head _ =>
    rcases Nat.eq_zero_or_pos t.place with hplace | hplace
    · obtain rfl : t = .sections := Table.eq_of_place_eq hplace
      exact .inr ⟨_, _, _, rfl⟩
    · exact .inl hplace
  | turn _ _ => exact .inl hs
  | @next t' t'' _ _ _ _ _ _ _ hnext _ =>
    have hplace := Table.place_of_next hnext
    rcases Nat.lt_or_eq_of_le (Nat.succ_le_of_lt hs) with hlt | heq
    · exact .inl (hplace.trans_lt hlt)
    · obtain rfl : t = t'' := Table.eq_of_place_eq (heq.symm.trans hplace.symm)
      exact .inr ⟨_, _, _, rfl⟩
  | stream _ _ =>
    have hle : t.place ≤ 2 := by cases t <;> decide
    exact absurd hs (Nat.not_lt.mpr hle)
  | instruction _ => exact hs.elim

/-- Before an image is loaded, each of its tables is opened. -/
theorem opened_of_takes {t : Table} {image : Image} (h : Takes s n s')
    (hend : s'.step = .inr (.ok image)) (hs : s.Ahead t) :
    ∃ m count parts unread, Takes s m ⟨.table t count 0, parts, unread⟩ := by
  induction h with
  | refl s =>
    obtain ⟨offset, hstage, -⟩ := stage_of_step_ok hend
    rw [Ahead, hstage] at hs
    exact hs.elim
  | step hstep _ ih =>
    rcases ahead_or_opened_of_goes (goes_of_step hstep) hs with hahead | ⟨count, parts, unread, rfl⟩
    · obtain ⟨m, count, parts, unread, htakes⟩ := ih hend hahead
      exact ⟨m + 1, count, parts, unread, .step hstep htakes⟩
    · exact ⟨1, count, parts, unread, .step hstep (.refl _)⟩

end Loading

open Loading in
/-- Loading comes to an end on any bytes, whatever their counts are. Each turn of a table fails or finds
one more entry, for which it takes sixteen bytes of a section or a handler and three of a constant or more,
and each turn of the code stream fails or takes a byte or more. Every step makes the unread bytes fewer, and
at most as many steps as there are bytes lead to what is loaded. A count for whose entries there are too few
bytes is never accepted, and an image that is loaded has its tables opened and filled to their counts. -/
theorem load_stepwise (bytes : Bytes) :
    (∀ (t : Table) count found parts unread, found < count →
      (∃ e, step ⟨.table t count found, parts, unread⟩ = .inr (.error e)) ∨ ∃ parts' rest,
        step ⟨.table t count found, parts, unread⟩ = .inl ⟨.table t count (found + 1), parts', rest⟩ ∧
          rest.length + t.least ≤ unread.length) ∧
    (∀ offset behind parts unread, unread ≠ [] →
      (∃ e, step ⟨.code offset behind, parts, unread⟩ = .inr (.error e)) ∨ ∃ offset' parts' rest,
        step ⟨.code offset behind, parts, unread⟩ = .inl ⟨.code offset' behind, parts', rest⟩ ∧
          rest.length + 1 ≤ unread.length) ∧
    (∀ s s', step s = .inl s' → s'.unread.length < s.unread.length) ∧
    (∃ n s, Takes (start bytes) n s ∧ step s = .inr (load bytes) ∧ n ≤ bytes.length) ∧
    (∀ n (t : Table) count found parts unread,
      Takes (start bytes) n ⟨.table t count found, parts, unread⟩ → found ≤ count ∧ t.size parts = found ∧
      (unread.length / t.least < count - found → ∃ e, load bytes = .error e) ∧
      ∀ image, load bytes = .ok image → t.size image = count) ∧
    ∀ image, load bytes = .ok image → ∀ t : Table, ∃ n count parts unread,
      Takes (start bytes) n ⟨.table t count 0, parts, unread⟩ := by
  have hload : (start bytes).result = load bytes := rfl
  refine ⟨?_, ?_, fun s s' h => length_lt_of_goes (goes_of_step h), exists_end (start bytes), ?_, ?_⟩
  · intro t count found parts unread hlt
    rw [step_turn hlt, after]
    rcases hrun : (t.turn parts).run unread with ⟨e | parts', rest⟩
    · exact .inl ⟨e, rfl⟩
    · exact .inr ⟨parts', rest, rfl, t.consumes_turn _ _ _ _ hrun⟩
  · intro offset behind parts unread hne
    obtain ⟨byte, rest, rfl⟩ := List.exists_cons_of_ne_nil hne
    cases hfirst : Code.first offset byte rest with
    | error e => exact .inl ⟨_, step_fault hfirst⟩
    | ok i =>
      have hstep : step ⟨.code offset behind, parts, byte :: rest⟩ = _ := step_instruction hfirst
      exact .inr ⟨_, _, _, hstep, length_lt_of_goes (goes_of_step hstep)⟩
  · intro n t count found parts unread htakes
    have hcounted := counted_of_takes htakes trivial
    obtain ⟨m, s', hrest, hend, -⟩ := exists_end ⟨.table t count found, parts, unread⟩
    rw [result_of_takes htakes, hload] at hend
    refine ⟨hcounted.1, hcounted.2.1, fun hfew => ?_, fun image hok => ?_⟩
    · cases hresult : load bytes with
      | error e => exact ⟨e, rfl⟩
      | ok image =>
        rw [hresult] at hend
        have hle := missing_le_of_takes hrest hend rfl
        exact absurd ((Nat.le_div_iff_mul_le t.least_pos).mpr hle) (Nat.not_le.mpr hfew)
    · rw [hok] at hend
      exact size_of_takes hrest hcounted hend
  · intro image hok t
    obtain ⟨n, s', htakes, hend, -⟩ := exists_end (start bytes)
    rw [hload, hok] at hend
    exact opened_of_takes htakes hend trivial

/-- Of the largest number of sections the first one is read, and none behind it. -/
example : load ([0, 0, 0, 0, 0] ++ List.replicate 8 0xff ++ List.replicate 20 0) =
    .error (.truncated .sectionEntry) := by rfl

end Image
end RegisterMachine

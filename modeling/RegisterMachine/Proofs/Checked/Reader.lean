import Mathlib
import RegisterMachine.Proofs.Checked.Operation
import RegisterMachine.Proofs.Code.Operand
import RegisterMachine.Proofs.Image.Reader

namespace RegisterMachine.Checked

/-- Reads from the front of a byte sequence, as far as the operations in it are defined. -/
abbrev Reader (ε α : Type) := ExceptT ε (StateT Bytes Option) α

namespace Reader

section

variable {ε ε' α : Type}

/-- The result on an input, with the bytes that were not read. -/
def run (r : Reader ε α) (input : Bytes) : Option (Except ε α × Bytes) := r input

/-- Performs an operation without reading anything. -/
def perform (x : Option α) : Reader ε α := fun input => x.map (.ok ·, input)

/-- The next `n` bytes, or the given failure when there are fewer. -/
def take (short : ε) (n : Nat) : Reader ε Bytes := fun input =>
  if input.length < n then some (.error short, input)
  else do
    let front ← slice input 0 n
    let back ← slice input n input.length
    return (.ok front, back)

def mapError (f : ε → ε') (r : Reader ε α) : Reader ε' α := fun input => do
  let (result, rest) ← r.run input
  return (result.mapError f, rest)

/-- The number of bytes not read yet. -/
def remaining : Reader ε Nat := fun input => some (.ok input.length, input)

/-- Reads `n` values one after the other, stopping at the first failure. -/
def replicate (n : Nat) (r : Reader ε α) : Reader ε (List α) :=
  match n with
  | 0 => pure []
  | n + 1 => do
    let a ← r
    let as ← replicate n r
    pure (a :: as)

def byte : Reader DecodeError UInt8 := do
  let bs ← take .endOfInput 1
  perform (entry bs 0)

/-- A number of a fixed width, most significant byte first. -/
def number (width : Nat) (ofNat : Nat → α) : Reader DecodeError α := do
  let bs ← take .endOfInput width
  let copied ← perform (copy (List.replicate width 0) bs)
  pure (ofNat (Bytes.toNat copied))

def bytes : Reader DecodeError Bytes := do
  let length ← number 8 UInt64.ofNat
  take .endOfInput length.toNat

/-- A length of 64 bits, then the text's UTF-8 bytes. -/
def string : Reader DecodeError String := do
  let bs ← bytes
  match String.fromUTF8? ⟨bs.toArray⟩ with
  | some s => pure s
  | none => throw .invalidValue

end

/-- On any input that fits into memory, all operations of a reader are defined, and it does what the other
reader does, which leaves no more bytes than there were. -/
structure Agrees {ε α : Type} (r : Reader ε α) (r' : RegisterMachine.Reader ε α) : Prop where
  run : ∀ input : Bytes, input.length < Slot.limit → r.run input = some (r'.run input)
  length_le : ∀ input : Bytes, input.length < Slot.limit → (r'.run input).2.length ≤ input.length

section

variable {ε ε' α β : Type}

theorem run_bind (r : Reader ε α) (f : α → Reader ε β) (input : Bytes) :
    (r >>= f).run input = (r.run input).bind fun (result, rest) =>
      match result with
      | .ok a => (f a).run rest
      | .error e => some (.error e, rest) := by
  have h : (r >>= f).run input = (r.run input).bind fun (result, rest) =>
      ExceptT.bindCont f result rest := rfl
  rw [h]
  congr 1
  funext (result, rest)
  cases result <;> rfl

theorem run_bind_of_ok {r : Reader ε α} {input rest : Bytes} {a : α}
    (h : r.run input = some (.ok a, rest)) (f : α → Reader ε β) :
    (r >>= f).run input = (f a).run rest := by
  rw [run_bind, h]
  rfl

theorem run_bind_of_error {r : Reader ε α} {input rest : Bytes} {e : ε}
    (h : r.run input = some (.error e, rest)) (f : α → Reader ε β) :
    (r >>= f).run input = some (.error e, rest) := by
  rw [run_bind, h]
  rfl

theorem run_map (r : Reader ε α) (f : α → β) (input : Bytes) :
    (f <$> r).run input = (r.run input).map fun (result, rest) => (result.map f, rest) := by
  rw [← bind_pure_comp, run_bind]
  rcases r.run input with _ | ⟨_ | a, rest⟩ <;> rfl

theorem run_take (short : ε) (n : Nat) (input : Bytes) :
    (take short n).run input = if input.length < n then some (.error short, input)
      else do
        let front ← slice input 0 n
        let back ← slice input n input.length
        return (.ok front, back) := rfl

theorem run_mapError (f : ε → ε') (r : Reader ε α) (input : Bytes) :
    (r.mapError f).run input = do
      let (result, rest) ← r.run input
      return (result.mapError f, rest) := rfl

end

namespace Agrees

variable {ε ε' α β : Type} {r : Reader ε α} {r' : RegisterMachine.Reader ε α}

theorem pure (a : α) : Agrees (Pure.pure a : Reader ε α) (Pure.pure a) where
  run _ _ := rfl
  length_le _ _ := Nat.le_refl _

theorem throw (e : ε) : Agrees (MonadExcept.throw e : Reader ε α) (MonadExcept.throw e) where
  run _ _ := rfl
  length_le _ _ := Nat.le_refl _

theorem bind_of_run {f : α → Reader ε β} {f' : α → RegisterMachine.Reader ε β} (hr : Agrees r r')
    (hf : ∀ {input rest : Bytes} {a : α}, input.length < Slot.limit →
      r'.run input = (.ok a, rest) → Agrees (f a) (f' a)) : Agrees (r >>= f) (r' >>= f') where
  run input hinput := by
    have hrest := hr.length_le input hinput
    rw [run_bind, hr.run input hinput, RegisterMachine.Reader.run_bind]
    rcases hrun : r'.run input with ⟨_ | a, rest⟩
    · rfl
    · rw [hrun] at hrest
      exact (hf hinput hrun).run rest (Nat.lt_of_le_of_lt hrest hinput)
  length_le input hinput := by
    have hrest := hr.length_le input hinput
    rw [RegisterMachine.Reader.run_bind]
    rcases hrun : r'.run input with ⟨_ | a, rest⟩
    · rw [hrun] at hrest
      exact hrest
    · rw [hrun] at hrest
      exact ((hf hinput hrun).length_le rest (Nat.lt_of_le_of_lt hrest hinput)).trans hrest

theorem bind {f : α → Reader ε β} {f' : α → RegisterMachine.Reader ε β} (hr : Agrees r r')
    (hf : ∀ a, Agrees (f a) (f' a)) : Agrees (r >>= f) (r' >>= f') :=
  hr.bind_of_run fun {_ _} {a} _ _ => hf a

theorem map (f : α → β) (hr : Agrees r r') : Agrees (f <$> r) (f <$> r') := by
  rw [← bind_pure_comp, ← bind_pure_comp]
  exact hr.bind fun a => pure (f a)

theorem mapError (f : ε → ε') (hr : Agrees r r') : Agrees (r.mapError f) (r'.mapError f) where
  run input hinput := by
    rw [run_mapError, hr.run input hinput, RegisterMachine.Reader.run_mapError]
    rcases r'.run input with ⟨_ | a, rest⟩ <;> rfl
  length_le input hinput := by
    have hrest := hr.length_le input hinput
    rw [RegisterMachine.Reader.run_mapError]
    rcases hrun : r'.run input with ⟨_ | a, rest⟩
    all_goals
      rw [hrun] at hrest
      exact hrest

theorem take (short : ε) (n : Nat) : Agrees (take short n) (RegisterMachine.Reader.take short n) where
  run input _ := by
    rw [run_take, RegisterMachine.Reader.run_take]
    split
    next hlt => rw [if_neg (Nat.not_le.mpr hlt)]
    next hge =>
      have hn : n ≤ input.length := Nat.not_lt.mp hge
      rw [if_pos hn, slice_front hn, slice_back hn]
      rfl
  length_le input _ := by
    rw [RegisterMachine.Reader.run_take]
    split
    next => exact (List.drop_suffix n input).length_le
    next => exact Nat.le_refl _

theorem remaining : Agrees (remaining (ε := ε)) RegisterMachine.Reader.remaining where
  run _ _ := rfl
  length_le _ _ := Nat.le_refl _

theorem replicate (n : Nat) (hr : Agrees r r') : Agrees (r.replicate n) (r'.replicate n) := by
  induction n with
  | zero => exact pure []
  | succ n ih => exact hr.bind fun a => ih.bind fun as => pure (a :: as)

/-- The bytes of a number fit exactly into a place of its size. -/
theorem number (width : Nat) (ofNat : Nat → α) : Agrees (number width ofNat)
    ((fun bs => ofNat (Bytes.toNat bs)) <$> RegisterMachine.Reader.take .endOfInput width) := by
  rw [← bind_pure_comp]
  refine (take DecodeError.endOfInput width).bind_of_run fun {_ _} {bs} _ hrun => ?_
  obtain ⟨_, -, -, hlength⟩ := (RegisterMachine.Reader.Reads.take _ _).spelled hrun
  have hcopy : copy (List.replicate width (0 : UInt8)) bs = some bs :=
    copy_of_length (by rw [List.length_replicate, hlength])
  rw [hcopy]
  exact pure (ofNat (Bytes.toNat bs))

/-- There is a byte at the front of a single one. -/
theorem byte : Agrees byte (Binary.decode (α := UInt8)) := by
  show Agrees _ ((fun bs => UInt8.ofNat (Bytes.toNat bs)) <$> _)
  rw [← bind_pure_comp]
  refine (take DecodeError.endOfInput 1).bind_of_run fun {_ _} {bs} _ hrun => ?_
  obtain ⟨_, -, -, hlength⟩ := (RegisterMachine.Reader.Reads.take _ _).spelled hrun
  obtain ⟨b, rfl⟩ := List.length_eq_one_iff.mp hlength
  rw [Bytes.toNat_singleton, UInt8.ofNat_toNat]
  exact pure b

theorem bytes : Agrees bytes (Binary.decode (α := Bytes)) :=
  (number 8 UInt64.ofNat).bind fun length => take DecodeError.endOfInput length.toNat

theorem string : Agrees string (Binary.decode (α := String)) := by
  refine bytes.bind fun bs => ?_
  cases String.fromUTF8? ⟨bs.toArray⟩ with
  | none => exact throw DecodeError.invalidValue
  | some s => exact pure s

end Agrees

section

variable {α : Type} {bs rest : Bytes}

theorem run_number {width : Nat} (ofNat : Nat → α) (h : bs.length = width)
    (hlimit : (bs ++ rest).length < Slot.limit) :
    (number width ofNat).run (bs ++ rest) = some (.ok (ofNat (Bytes.toNat bs)), rest) := by
  have hread := (RegisterMachine.Reader.Reads.take DecodeError.endOfInput width).map
    fun bs => ofNat (Bytes.toNat bs)
  rw [(Agrees.number width ofNat).run _ hlimit, hread.yields ⟨bs, ⟨rfl, h⟩, rfl⟩ rest]

theorem run_byte {b : UInt8} (hlimit : ([b] ++ rest).length < Slot.limit) :
    byte.run ([b] ++ rest) = some (.ok b, rest) := by
  have hread := (RegisterMachine.Reader.Reads.take DecodeError.endOfInput 1).map
    fun bs => UInt8.ofNat (Bytes.toNat bs)
  have hb : b = UInt8.ofNat (Bytes.toNat [b]) := by
    rw [Bytes.toNat_singleton, UInt8.ofNat_toNat]
  rw [Agrees.byte.run _ hlimit]
  exact congrArg some (hread.yields ⟨[b], ⟨rfl, rfl⟩, hb⟩ rest)

end

end Reader

end RegisterMachine.Checked

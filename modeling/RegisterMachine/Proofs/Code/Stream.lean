import Mathlib
import RegisterMachine.Proofs.Code.Instruction

namespace RegisterMachine.Code

/-- What is wrong with bytes that begin with no instruction, where the first of them has the given
offset in the stream. -/
inductive Stops (offset : Nat) : Bytes → CodeError → Prop
  | unknownOpcode {b : UInt8} {rest : Bytes} : (∀ op : Opcode, op.byte ≠ b) →
      Stops offset (b :: rest) (.unknownOpcode b)
  | cutShort {op : Opcode} {rest : Bytes} : (op.byte :: rest).length < op.size →
      Stops offset (op.byte :: rest) (.cutShort op offset)
  | unknownRegister {op : Opcode} {rest : Bytes} {b : UInt8} :
      op.size ≤ (op.byte :: rest).length →
      (Operand.registerBytes op.operandKinds (rest.take op.operandBytes)).find?
        Register.isUnknown = some b →
      Stops offset (op.byte :: rest) (.unknownRegister b)

@[simp] theorem encode_nil : encode [] = [] := rfl

@[simp] theorem encode_cons (i : Instruction) (is : List Instruction) :
    encode (i :: is) = i.encode ++ encode is := rfl

@[simp] theorem encode_append (is js : List Instruction) :
    encode (is ++ js) = encode is ++ encode js :=
  List.flatMap_append

theorem decodeFrom_nil (offset : Nat) : decodeFrom offset [] = .ok [] := by
  rw [decodeFrom]

/-- Reading a stream that begins with an instruction gives the instruction and goes on behind it. -/
theorem decodeFrom_encode_append (offset : Nat) (i : Instruction) (rest : Bytes) :
    decodeFrom offset (i.encode ++ rest) = (i :: ·) <$> decodeFrom (offset + i.size) rest := by
  have hop : Opcode.ofByte i.opcode.byte = .ok i.opcode := by
    simp [Opcode.ofByte, Opcode.ofByte?_byte]
  have hlen := i.length_operands_encode
  have hi := (Instruction.ofBytes_eq_ok_iff hlen).mpr rfl
  have hle : i.opcode.operandBytes ≤ (i.operands.flatMap Operand.encode ++ rest).length := by
    simp [hlen]
  rw [Instruction.encode, List.cons_append, decodeFrom, hop]
  simp only [bind, Except.bind, if_pos hle, List.take_left' hlen, List.drop_left' hlen, hi,
    Instruction.size]
  cases decodeFrom (offset + i.opcode.size) rest <;> rfl

/-- Reading a stream that begins with a run of instructions gives the run and goes on behind it. -/
theorem decodeFrom_run (offset : Nat) (is : List Instruction) (rest : Bytes) :
    decodeFrom offset (encode is ++ rest) =
      (is ++ ·) <$> decodeFrom (offset + (encode is).length) rest := by
  induction is generalizing offset with
  | nil =>
    rw [encode_nil, List.nil_append, List.length_nil, Nat.add_zero]
    cases decodeFrom offset rest <;> rfl
  | cons i is ih =>
    rw [encode_cons, List.append_assoc, decodeFrom_encode_append, ih, List.length_append,
      Instruction.length_encode, Nat.add_assoc]
    cases decodeFrom (offset + (i.size + (encode is).length)) rest <;> rfl

theorem decodeFrom_stops {offset : Nat} {code : Bytes} {e : CodeError}
    (h : Stops offset code e) : decodeFrom offset code = .error e := by
  cases h with
  | unknownOpcode hb =>
    rename_i b rest
    have hnone : Opcode.ofByte? b = none :=
      Option.eq_none_iff_forall_ne_some.mpr fun op h => hb op (Opcode.ofByte?_eq_some_iff.mp h)
    rw [decodeFrom, Opcode.ofByte, hnone]
    rfl
  | cutShort hlen =>
    rename_i op rest
    have hlt : ¬ op.operandBytes ≤ rest.length := by
      simp only [List.length_cons, Opcode.size] at hlen
      omega
    rw [decodeFrom, Opcode.ofByte, Opcode.ofByte?_byte]
    simp only [bind, Except.bind, if_neg hlt]
    rfl
  | unknownRegister hlen hb =>
    rename_i op rest b
    have hle : op.operandBytes ≤ rest.length := by
      simp only [List.length_cons, Opcode.size] at hlen
      omega
    have htake : (rest.take op.operandBytes).length = op.operandBytes := by simpa using hle
    have he := (Instruction.ofBytes_eq_error_iff htake).mpr ⟨b, hb, rfl⟩
    rw [decodeFrom, Opcode.ofByte, Opcode.ofByte?_byte]
    simp only [bind, Except.bind, if_pos hle, he]

/-- Bytes are used up, begin with an instruction, or are wrong in one of the three ways. -/
theorem begins_or_stops (offset : Nat) (code : Bytes) :
    code = [] ∨ (∃ i rest, code = Instruction.encode i ++ rest) ∨ ∃ e, Stops offset code e := by
  cases code with
  | nil => exact .inl rfl
  | cons b rest =>
    right
    by_cases hop : ∃ op : Opcode, op.byte = b
    · obtain ⟨op, rfl⟩ := hop
      by_cases hlen : op.size ≤ (op.byte :: rest).length
      · have hle : op.operandBytes ≤ rest.length := by
          simp only [List.length_cons, Opcode.size] at hlen
          omega
        have htake : (rest.take op.operandBytes).length = op.operandBytes := by simpa using hle
        cases hd : Instruction.ofBytes op (rest.take op.operandBytes) with
        | ok i =>
          refine .inl ⟨i, rest.drop op.operandBytes, ?_⟩
          rw [(Instruction.ofBytes_eq_ok_iff htake).mp hd, List.cons_append,
            List.take_append_drop]
        | error e =>
          obtain ⟨b, hb, -⟩ := (Instruction.ofBytes_eq_error_iff htake).mp hd
          exact .inr ⟨_, .unknownRegister hlen hb⟩
      · exact .inr ⟨_, .cutShort (Nat.lt_of_not_le hlen)⟩
    · exact .inr ⟨_, .unknownOpcode fun op h => hop ⟨op, h⟩⟩

/-- Every stream is a run of instructions, and behind it nothing or bytes that begin with none. -/
theorem exists_run (code : Bytes) :
    ∃ is rest, code = encode is ++ rest ∧
      (rest = [] ∨ ∃ e, Stops (encode is).length rest e) := by
  -- The run is found from its last instruction on: the longest one is the one that cannot go on.
  suffices h : ∀ (n : Nat) (is : List Instruction) (rest : Bytes), rest.length ≤ n →
      ∃ js tail, encode is ++ rest = encode js ++ tail ∧
        (tail = [] ∨ ∃ e, Stops (encode js).length tail e) by
    simpa using h code.length [] code le_rfl
  intro n
  induction n with
  | zero =>
    intro is rest hn
    exact ⟨is, rest, rfl, .inl (List.length_eq_zero_iff.mp (Nat.le_zero.mp hn))⟩
  | succ n ih =>
    intro is rest hn
    rcases begins_or_stops (encode is).length rest with hrest | ⟨i, tail, rfl⟩ | hrest
    · exact ⟨is, rest, rfl, .inl hrest⟩
    · have htail : tail.length ≤ n := by
        simp only [List.length_append, Instruction.length_encode, Instruction.size,
          Opcode.size] at hn
        omega
      obtain ⟨js, rest, heq, hstop⟩ := ih (is ++ [i]) tail htail
      exact ⟨js, rest, by simpa using heq, hstop⟩
    · exact ⟨is, rest, rfl, .inr hrest⟩

/-- Nothing is wrong with bytes that begin with an instruction. -/
theorem not_stops_encode_append {offset : Nat} {i : Instruction} {rest code : Bytes} {e : CodeError}
    (h : Stops offset code e) (hcode : code = i.encode ++ rest) : False := by
  have hlen : code.length = i.opcode.size + rest.length := by
    rw [hcode, List.length_append, Instruction.length_encode, Instruction.size]
  cases h with
  | unknownOpcode hb => exact hb i.opcode (List.cons.inj hcode).1.symm
  | cutShort hshort =>
    cases Opcode.byte_inj (List.cons.inj hcode).1
    omega
  | unknownRegister _ hb =>
    obtain ⟨hbyte, hbytes⟩ := List.cons.inj hcode
    cases Opcode.byte_inj hbyte
    have hop := i.length_operands_encode
    rw [hbytes, List.append_eq, List.take_left' hop] at hb
    have herr := (Instruction.ofBytes_eq_error_iff hop).mpr ⟨_, hb, rfl⟩
    rw [(Instruction.ofBytes_eq_ok_iff hop).mpr rfl] at herr
    cases herr

/-- A run that bytes without an instruction follow is the longest one. -/
theorem prefix_of_stops {is js : List Instruction} {rest tail : Bytes} {offset : Nat}
    {e : CodeError} (h : Stops offset rest e) (heq : encode is ++ rest = encode js ++ tail) :
    js <+: is := by
  induction is generalizing js with
  | nil =>
    cases js with
    | nil => exact List.nil_prefix
    | cons j js =>
      rw [encode_cons, List.append_assoc] at heq
      exact (not_stops_encode_append h heq).elim
  | cons i is ih =>
    cases js with
    | nil => exact List.nil_prefix
    | cons j js =>
      rw [encode_cons, encode_cons, List.append_assoc, List.append_assoc] at heq
      obtain ⟨rfl, htail⟩ := Instruction.encode_append_inj heq
      exact List.cons_prefix_cons.mpr ⟨rfl, ih htail⟩

theorem length_encode_le_of_prefix {is js : List Instruction} (h : js <+: is) :
    (encode js).length ≤ (encode is).length := by
  obtain ⟨ks, rfl⟩ := h
  simp

theorem decode_encode (is : List Instruction) : decode (encode is) = .ok is := by
  rw [decode, ← List.append_nil (encode is), decodeFrom_run, decodeFrom_nil]
  exact congrArg Except.ok (List.append_nil is)

theorem decode_of_stops {is : List Instruction} {rest : Bytes} {e : CodeError}
    (h : Stops (encode is).length rest e) : decode (encode is ++ rest) = .error e := by
  rw [decode, decodeFrom_run, Nat.zero_add, decodeFrom_stops h]
  rfl

/-- A stream is read as the instructions whose stream it is. -/
theorem decode_eq_ok_iff {code : Bytes} {is : List Instruction} :
    decode code = .ok is ↔ code = encode is := by
  constructor
  · intro h
    obtain ⟨js, rest, rfl, rfl | ⟨e, hstop⟩⟩ := exists_run code
    · rw [List.append_nil] at h ⊢
      rw [Except.ok.inj ((decode_encode js).symm.trans h)]
    · rw [decode_of_stops hstop] at h
      cases h
  · rintro rfl
    exact decode_encode is

theorem decode_eq_error_iff {code : Bytes} {e : CodeError} :
    decode code = .error e ↔
      ∃ is rest, code = encode is ++ rest ∧ Stops (encode is).length rest e := by
  constructor
  · intro h
    obtain ⟨is, rest, rfl, rfl | ⟨e', hstop⟩⟩ := exists_run code
    · rw [List.append_nil, decode_encode] at h
      cases h
    · rw [decode_of_stops hstop] at h
      cases h
      exact ⟨is, rest, rfl, hstop⟩
  · rintro ⟨is, rest, rfl, hstop⟩
    exact decode_of_stops hstop

/-- A stream is read as the instructions whose stream it is. Otherwise the error is the one of the
bytes behind the longest run of instructions at the front, and never that an instruction was handed
too many or too few bytes. -/
theorem decode_reads_longest_run (code : Bytes) :
    (∀ is, decode code = .ok is ↔ code = encode is) ∧
    (∀ e, decode code = .error e ↔ ∃ is rest,
      code = encode is ++ rest ∧
      (∀ js, encode js <+: code → (encode js).length ≤ (encode is).length) ∧
      Stops (encode is).length rest e) ∧
    ∀ op actual, decode code ≠ .error (.operandBytes op actual) := by
  refine ⟨fun is => decode_eq_ok_iff, fun e => ?_, fun op actual h => ?_⟩
  · rw [decode_eq_error_iff]
    constructor
    · rintro ⟨is, rest, rfl, hstop⟩
      refine ⟨is, rest, rfl, ?_, hstop⟩
      rintro js ⟨tail, htail⟩
      exact length_encode_le_of_prefix (prefix_of_stops hstop htail.symm)
    · rintro ⟨is, rest, hcode, -, hstop⟩
      exact ⟨is, rest, hcode, hstop⟩
  · obtain ⟨is, rest, -, hstop⟩ := decode_eq_error_iff.mp h
    cases hstop

end RegisterMachine.Code

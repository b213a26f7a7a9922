import Mathlib
import RegisterMachine.Instruction.Encoding
import RegisterMachine.Proofs.Bytes
import RegisterMachine.Proofs.Except

namespace RegisterMachine

/-- Eight bytes stand for the 64-bit number that is written as them. -/
theorem Binary.encode_quad_eq_iff {n : UInt64} {bs : Bytes} (h : bs.length = 8) :
    Binary.encode n = bs ↔ UInt64.ofNat bs.toNat = n := by
  have hn : n.toNat < Bytes.count 8 := n.toNat_lt
  have hb : bs.toNat < 2 ^ 64 := by
    have := Bytes.toNat_lt bs
    rwa [h] at this
  have key : Binary.encode n = bs ↔ bs.toNat = n.toNat := by
    change Bytes.ofNat 8 n.toNat = bs ↔ _
    rw [Bytes.ofNat_eq_iff hn]
    simp [h]
  rw [key, ← UInt64.toNat_inj, UInt64.toNat_ofNat', Nat.mod_eq_of_lt hb]

theorem Opcode.ofByte?_eq_some_iff {b : UInt8} {op : Opcode} :
    Opcode.ofByte? b = some op ↔ op.byte = b := by
  constructor
  · intro h
    have hnodup : Opcode.all.Nodup := by decide
    obtain ⟨hi, he⟩ := List.getElem?_eq_some_iff.mp h
    rw [← he, Opcode.byte, hnodup.idxOf_getElem, UInt8.ofNat_toNat]
  · rintro rfl
    exact Opcode.ofByte?_byte op

theorem Register.ofId?_eq_some_iff {b : UInt8} {r : Register} :
    Register.ofId? b = some r ↔ r.id = b :=
  ⟨Register.id_of_ofId?, fun h => h ▸ Register.ofId?_id r⟩

theorem Register.ofId_eq_ok_iff {b : UInt8} {r : Register} :
    Register.ofId b = .ok r ↔ r.id = b := by
  rw [← Register.ofId?_eq_some_iff, Register.ofId]
  cases Register.ofId? b <;> simp

/-- No register has this id. -/
def Register.isUnknown (b : UInt8) : Bool :=
  (Register.ofId? b).isNone

theorem Register.isUnknown_iff {b : UInt8} : Register.isUnknown b ↔ ∀ r : Register, r.id ≠ b := by
  rw [Register.isUnknown, Option.isNone_iff_eq_none, Option.eq_none_iff_forall_ne_some]
  exact forall_congr' fun r => not_congr Register.ofId?_eq_some_iff

theorem Register.ofId_eq_error_iff {b : UInt8} {e : CodeError} :
    Register.ofId b = .error e ↔ Register.isUnknown b ∧ e = .unknownRegister b := by
  rw [Register.ofId, Register.isUnknown]
  cases Register.ofId? b <;> simp [eq_comm]

namespace Operand

@[simp] theorem length_encode (o : Operand) : o.encode.length = o.kind.size := by
  cases o <;> rfl

theorem kind_eq_register_iff {o : Operand} : o.kind = .register ↔ ∃ r, o = register r := by
  cases o <;> simp [kind]

theorem kind_eq_target_iff {o : Operand} : o.kind = .target ↔ ∃ n, o = target n := by
  cases o <;> simp [kind]

theorem kind_eq_immediate_iff {o : Operand} : o.kind = .immediate ↔ ∃ n, o = immediate n := by
  cases o <;> simp [kind]

theorem kind_eq_number_iff {o : Operand} : o.kind = .number ↔ ∃ n, o = number n := by
  cases o <;> simp [kind]

theorem map_kind_eq_cons_iff {os : List Operand} {k : OperandKind} {ks : List OperandKind} :
    os.map kind = k :: ks ↔ ∃ o os', (o.kind = k ∧ os'.map kind = ks) ∧ o :: os' = os := by
  cases os <;> simp

/-- The bytes in the places of registers, among operand bytes of the given kinds. -/
def registerBytes : List OperandKind → Bytes → Bytes
  | [], _ => []
  | kind :: kinds, bs =>
    (if kind = .register then bs.take kind.size else []) ++ registerBytes kinds (bs.drop kind.size)

theorem decode_eq_ok_iff {kind : OperandKind} {bs : Bytes} {o : Operand}
    (h : bs.length = kind.size) : decode kind bs = .ok o ↔ o.kind = kind ∧ o.encode = bs := by
  cases kind with
  | register =>
    obtain ⟨b, rfl⟩ := List.length_eq_one_iff.mp h
    simp only [decode, Bytes.toNat_singleton, UInt8.ofNat_toNat, Except.map_eq_ok_iff,
      Register.ofId_eq_ok_iff]
    cases o <;> simp [kind, encode]
  | target | immediate | number =>
    cases o <;> simp [decode, kind, encode, Binary.encode_quad_eq_iff h]

theorem decode_eq_error_iff {kind : OperandKind} {bs : Bytes} {e : CodeError}
    (h : bs.length = kind.size) :
    decode kind bs = .error e ↔
      ∃ b, (if kind = .register then bs else []).find? Register.isUnknown = some b ∧
        e = .unknownRegister b := by
  cases kind with
  | register =>
    obtain ⟨b, rfl⟩ := List.length_eq_one_iff.mp h
    simp [decode, Bytes.toNat_singleton, Except.map_eq_error_iff, Register.ofId_eq_error_iff,
      List.find?_singleton]
  | target | immediate | number => simp [decode]

theorem exists_decode_eq_ok_iff {kind : OperandKind} {bs : Bytes} (h : bs.length = kind.size) :
    (∃ o, decode kind bs = .ok o) ↔
      (if kind = .register then bs else []).find? Register.isUnknown = none := by
  cases hd : decode kind bs with
  | ok o =>
    have hne : ∀ b, (if kind = .register then bs else []).find? Register.isUnknown ≠ some b := by
      intro b hb
      have he := (decode_eq_error_iff h).mpr ⟨b, hb, rfl⟩
      simp [hd] at he
    simp only [Except.ok.injEq, exists_eq', true_iff]
    exact Option.eq_none_iff_forall_ne_some.mpr hne
  | error e =>
    obtain ⟨b, hb, _⟩ := (decode_eq_error_iff h).mp hd
    simp [hb]

/-- The number of bytes of operands of the given kinds. -/
def totalSize (kinds : List OperandKind) : Nat :=
  kinds.foldr (fun kind n => kind.size + n) 0

theorem decodeAll_eq_ok_iff {kinds : List OperandKind} {bs : Bytes} {os : List Operand}
    (h : bs.length = totalSize kinds) :
    decodeAll kinds bs = .ok os ↔ os.map kind = kinds ∧ os.flatMap encode = bs := by
  induction kinds generalizing bs os with
  | nil =>
    have hbs : bs = [] := List.length_eq_zero_iff.mp h
    subst hbs
    cases os <;> simp [decodeAll]
  | cons k ks ih =>
    have hlen : bs.length = k.size + totalSize ks := h
    have htake : (bs.take k.size).length = k.size := by simp; omega
    have hdrop : (bs.drop k.size).length = totalSize ks := by simp; omega
    simp only [decodeAll, Except.bind_eq_ok_iff, decode_eq_ok_iff htake, ih hdrop, pure,
      Except.pure, Except.ok.injEq]
    constructor
    · rintro ⟨o, ⟨rfl, ho⟩, os', ⟨rfl, hos⟩, rfl⟩
      exact ⟨rfl, by rw [List.flatMap_cons, ho, hos, List.take_append_drop]⟩
    · rintro ⟨hk, hb⟩
      obtain ⟨o, os', rfl, rfl, rfl⟩ := List.map_eq_cons_iff.mp hk
      rw [List.flatMap_cons] at hb
      subst hb
      exact ⟨o, ⟨rfl, by simp [← length_encode]⟩, os', ⟨rfl, by simp [← length_encode]⟩, rfl⟩

/-- Reading operands fails at the first byte in the place of a register that is no id. -/
theorem decodeAll_eq_error_iff {kinds : List OperandKind} {bs : Bytes} {e : CodeError}
    (h : bs.length = totalSize kinds) :
    decodeAll kinds bs = .error e ↔
      ∃ b, (registerBytes kinds bs).find? Register.isUnknown = some b ∧ e = .unknownRegister b := by
  induction kinds generalizing bs with
  | nil => simp [decodeAll, registerBytes]
  | cons k ks ih =>
    have hlen : bs.length = k.size + totalSize ks := h
    have htake : (bs.take k.size).length = k.size := by simp; omega
    have hdrop : (bs.drop k.size).length = totalSize ks := by simp; omega
    have hrest : ∀ o : Operand, (do
        let operands ← decodeAll ks (bs.drop k.size)
        pure (o :: operands) : Except CodeError (List Operand)) = .error e ↔
          decodeAll ks (bs.drop k.size) = .error e := by
      intro o
      simp [Except.bind_eq_error_iff, pure, Except.pure]
    simp only [decodeAll, Except.bind_eq_error_iff (x := decode _ _), hrest, exists_and_right,
      exists_decode_eq_ok_iff htake, decode_eq_error_iff htake, ih hdrop, registerBytes,
      List.find?_append, Option.or_eq_some_iff]
    constructor
    · rintro (⟨b, hb, rfl⟩ | ⟨hnone, b, hb, rfl⟩)
      · exact ⟨b, .inl hb, rfl⟩
      · exact ⟨b, .inr ⟨hnone, hb⟩, rfl⟩
    · rintro ⟨b, hb | ⟨hnone, hb⟩, rfl⟩
      · exact .inl ⟨b, hb, rfl⟩
      · exact .inr ⟨hnone, b, hb, rfl⟩

end Operand

end RegisterMachine

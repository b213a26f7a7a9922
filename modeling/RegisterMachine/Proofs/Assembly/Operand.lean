import Mathlib
import RegisterMachine.Proofs.Assembly.Names
import RegisterMachine.Proofs.Code.Instruction

namespace RegisterMachine

theorem Register.ofName?_eq_some_iff {s : String} {r : Register} : ofName? s = some r ↔ r.name = s := by
  constructor
  · exact name_of_ofName?
  · rintro rfl
    exact ofName?_name r

/-- A literal does not begin with the mark of a value. -/
theorem Numeral.not_denotes_marked {s : List Char} {z : Int} : ¬ Denotes ('@' :: s) z := by
  intro h
  have hvalue : Hexadecimal.digitValue? '@' = none := by decide
  cases h with
  | natural hmagnitude _ =>
    cases hmagnitude with
    | decimal hdigits =>
      obtain ⟨v, hv, -⟩ := hdigits.value_lt '@' List.mem_cons_self
      rw [hvalue] at hv
      cases hv

namespace Assembly

theorem eq_marked {mark : Char} {token : String} {rest : List Char} (h : token.toList = mark :: rest) :
    token = String.singleton mark ++ String.ofList rest := by
  rw [← String.toList_inj, String.toList_append, String.toList_singleton, String.toList_ofList, h]
  rfl

theorem toList_marked (mark : Char) (text : String) :
    (String.singleton mark ++ text).toList = mark :: text.toList := by
  rw [String.toList_append, String.toList_singleton]
  rfl

namespace Scope

variable {s : Scope} {p : Source}

theorem register_eq_ok_iff {token : String} {r : Register} :
    register token = .ok r ↔ p.Resolves token (.register r) := by
  unfold register
  constructor
  · intro h
    split at h
    next r' hr =>
      obtain rfl := Except.ok.inj h
      obtain rfl := Register.ofName?_eq_some_iff.mp hr
      exact .register r'
    next => cases h
  · intro h
    cases h
    rw [Register.ofName?_name]

theorem number_eq_ok_iff {token : String} {n : UInt64} :
    number token = .ok n ↔ p.Resolves token (.number n) := by
  unfold number
  constructor
  · intro h
    split at h
    next digits hdigits =>
      cases hindex : Numeral.index? digits with
      | none => simp [hindex] at h
      | some m =>
        simp only [hindex, Except.ok.injEq] at h
        subst h
        rw [eq_marked hdigits]
        exact .markedNumber (by rwa [String.toList_ofList, ← Numeral.index?_eq_some_iff])
    next =>
      cases hindex : Numeral.index? token.toList with
      | none => simp [hindex] at h
      | some m =>
        simp only [hindex, Except.ok.injEq] at h
        subst h
        exact .number (Numeral.index?_eq_some_iff.mp hindex)
  · intro h
    -- A literal does not begin with `@`, so only one of the two rules applies to a token.
    cases h with
    | number hdenotes =>
      have hindex := Numeral.index?_eq_some_iff.mpr hdenotes
      split
      next digits hdigits => exact (Numeral.not_denotes_marked (hdigits ▸ hdenotes)).elim
      next => simp only [hindex]
    | @markedNumber text _ hdenotes =>
      have htext : ("@" ++ text).toList = '@' :: text.toList := toList_marked '@' text
      have hindex := Numeral.index?_eq_some_iff.mpr hdenotes
      simp only [htext, hindex]

theorem target_eq_ok_iff (h : s.Knows p) {token : String} {n : UInt64} :
    s.target token = .ok n ↔ p.Resolves token (.target n) := by
  unfold target
  constructor
  · intro htarget
    split at htarget
    next index hindex =>
      obtain rfl := Except.ok.inj htarget
      exact .target (h.label?_eq_some_iff.mp hindex)
    next => cases htarget
  · intro hresolves
    cases hresolves with
    | target hat => rw [h.label?_eq_some_iff.mpr hat]

/-- The place of a name is that of the label, or that of the constant if there is no label. -/
theorem address_eq_ok_iff (h : s.Knows p) {name : String} {n : UInt64} : s.address name = .ok n ↔
    (∃ index, p.LabelAt name index ∧ UInt64.ofNat index = n) ∨
      name ∉ p.labelNames ∧ ∃ before value, p.ConstantAt name before value ∧
        UInt64.ofNat (before.flatMap Constant.poolBytes).length = n := by
  unfold address
  cases hlabel : s.outline.label? name with
  | some index =>
    have hat := h.label?_eq_some_iff.mp hlabel
    have hmem : ¬ name ∉ p.labelNames := fun hnone => by
      simp [h.label?_eq_none_iff.mpr hnone] at hlabel
    constructor
    · intro haddress
      exact .inl ⟨index, hat, Except.ok.inj haddress⟩
    · rintro (⟨index', hat', rfl⟩ | ⟨hnone, -⟩)
      · have hsome := h.label?_eq_some_iff.mpr hat'
        rw [hlabel] at hsome
        rw [Option.some.inj hsome]
      · exact (hmem hnone).elim
  | none =>
    have hnone := h.label?_eq_none_iff.mp hlabel
    constructor
    · intro haddress
      cases hplace : s.declarations.address? name with
      | none => simp [hplace] at haddress
      | some place =>
        obtain ⟨before, value, hat, rfl⟩ := h.address?_eq_some_iff.mp hplace
        simp only [hplace] at haddress
        exact .inr ⟨hnone, before, value, hat, Except.ok.inj haddress⟩
    · rintro (⟨index, hat, rfl⟩ | ⟨-, before, value, hat, rfl⟩)
      · simp [h.label?_eq_some_iff.mpr hat] at hlabel
      · simp only [h.address?_eq_some_iff.mpr ⟨before, value, hat, rfl⟩]

/-- The size of a name is that of an address for a label, or that of the constant if there is no
label. -/
theorem size_eq_ok_iff (h : s.Knows p) {name : String} {n : UInt64} : s.size name = .ok n ↔
    name ∈ p.labelNames ∧ n = 8 ∨
      name ∉ p.labelNames ∧ ∃ before value, p.ConstantAt name before value ∧
        UInt64.ofNat value.poolBytes.length = n := by
  unfold size
  cases hlabel : s.outline.label? name with
  | some index =>
    have hmem : name ∈ p.labelNames := by
      by_contra hnone
      simp [h.label?_eq_none_iff.mpr hnone] at hlabel
    constructor
    · intro hsize
      exact .inl ⟨hmem, (Except.ok.inj hsize).symm⟩
    · rintro (⟨-, rfl⟩ | ⟨hnone, -⟩)
      · rfl
      · exact (hnone hmem).elim
  | none =>
    have hnone := h.label?_eq_none_iff.mp hlabel
    constructor
    · intro hsize
      cases hlength : s.declarations.size? name with
      | none => simp [hlength] at hsize
      | some length =>
        obtain ⟨before, value, hat, rfl⟩ := h.size?_eq_some_iff.mp hlength
        simp only [hlength] at hsize
        exact .inr ⟨hnone, before, value, hat, Except.ok.inj hsize⟩
    · rintro (⟨hmem, -⟩ | ⟨-, before, value, hat, rfl⟩)
      · exact (hnone hmem).elim
      · simp only [h.size?_eq_some_iff.mpr ⟨before, value, hat, rfl⟩]

theorem value_eq_ok_iff (h : s.Knows p) {token : String} {n : UInt64} :
    s.value token = .ok n ↔ p.Resolves token (.immediate n) := by
  unfold value
  constructor
  · intro hvalue
    split at hvalue
    next digits htoken =>
      split at hvalue
      next m hm =>
        obtain rfl := Except.ok.inj hvalue
        obtain ⟨z, hdenotes, hlow, hhigh, rfl⟩ := Numeral.quad?_eq_some_iff.mp hm
        rw [eq_marked htoken]
        exact .literal (by rwa [String.toList_ofList]) hlow hhigh
      next => cases hvalue
    next name htoken =>
      rw [eq_marked htoken]
      rcases (address_eq_ok_iff h).mp hvalue with ⟨index, hat, rfl⟩ | ⟨hnone, _, _, hat, rfl⟩
      · exact .labelAddress hat
      · exact .constantAddress hnone hat
    next name htoken =>
      rw [eq_marked htoken]
      rcases (size_eq_ok_iff h).mp hvalue with ⟨hmem, rfl⟩ | ⟨hnone, _, _, hat, rfl⟩
      · exact .labelSize hmem
      · exact .constantSize hnone hat
    next => cases hvalue
  · intro hresolves
    cases hresolves with
    | @literal text z hdenotes hlow hhigh =>
      have htext : ("@" ++ text).toList = '@' :: text.toList := toList_marked '@' text
      have hquad := Numeral.quad?_eq_some_iff.mpr ⟨z, hdenotes, hlow, hhigh, rfl⟩
      simp only [htext, hquad]
    | @labelAddress name index hat =>
      have htext : ("&" ++ name).toList = '&' :: name.toList := toList_marked '&' name
      simp only [htext, String.ofList_toList]
      exact (address_eq_ok_iff h).mpr (.inl ⟨index, hat, rfl⟩)
    | @constantAddress name before value hnone hat =>
      have htext : ("&" ++ name).toList = '&' :: name.toList := toList_marked '&' name
      simp only [htext, String.ofList_toList]
      exact (address_eq_ok_iff h).mpr (.inr ⟨hnone, before, value, hat, rfl⟩)
    | @labelSize name hmem =>
      have htext : ("#" ++ name).toList = '#' :: name.toList := toList_marked '#' name
      simp only [htext, String.ofList_toList]
      exact (size_eq_ok_iff h).mpr (.inl ⟨hmem, rfl⟩)
    | @constantSize name before value hnone hat =>
      have htext : ("#" ++ name).toList = '#' :: name.toList := toList_marked '#' name
      simp only [htext, String.ofList_toList]
      exact (size_eq_ok_iff h).mpr (.inr ⟨hnone, before, value, hat, rfl⟩)

/-- A token is read as the operand of some kind that it stands for. -/
theorem operand_eq_ok_iff (h : s.Knows p) {kind : OperandKind} {token : String} {o : Operand} :
    s.operand kind token = .ok o ↔ o.kind = kind ∧ p.Resolves token o := by
  constructor
  · intro ho
    cases kind with
    | register =>
      obtain ⟨r, hr, rfl⟩ := Except.map_eq_ok_iff.mp ho
      exact ⟨rfl, register_eq_ok_iff.mp hr⟩
    | target =>
      obtain ⟨n, hn, rfl⟩ := Except.map_eq_ok_iff.mp ho
      exact ⟨rfl, (target_eq_ok_iff h).mp hn⟩
    | immediate =>
      obtain ⟨n, hn, rfl⟩ := Except.map_eq_ok_iff.mp ho
      exact ⟨rfl, (value_eq_ok_iff h).mp hn⟩
    | number =>
      obtain ⟨n, hn, rfl⟩ := Except.map_eq_ok_iff.mp ho
      exact ⟨rfl, number_eq_ok_iff.mp hn⟩
  · rintro ⟨rfl, hresolves⟩
    cases o with
    | register r => exact Except.map_eq_ok_iff.mpr ⟨r, register_eq_ok_iff.mpr hresolves, rfl⟩
    | target n => exact Except.map_eq_ok_iff.mpr ⟨n, (target_eq_ok_iff h).mpr hresolves, rfl⟩
    | immediate n => exact Except.map_eq_ok_iff.mpr ⟨n, (value_eq_ok_iff h).mpr hresolves, rfl⟩
    | number n => exact Except.map_eq_ok_iff.mpr ⟨n, number_eq_ok_iff.mpr hresolves, rfl⟩

theorem operands_eq_ok_iff (h : s.Knows p) {kinds : List OperandKind} {tokens : List String}
    {os : List Operand} (hlength : tokens.length = kinds.length) :
    s.operands kinds tokens = .ok os ↔
      os.map Operand.kind = kinds ∧ List.Forall₂ p.Resolves tokens os := by
  induction kinds generalizing tokens os with
  | nil =>
    obtain rfl := List.length_eq_zero_iff.mp hlength
    simp [operands, eq_comm]
  | cons kind kinds ih =>
    obtain ⟨token, tokens, rfl⟩ := List.exists_cons_of_length_eq_add_one hlength
    have hrest : tokens.length = kinds.length := Nat.succ.inj hlength
    rw [operands]
    constructor
    · intro hos
      obtain ⟨o, ho, htail⟩ := Except.bind_eq_ok_iff.mp hos
      obtain ⟨os', hos', he⟩ := Except.bind_eq_ok_iff.mp htail
      obtain rfl := Except.ok.inj he
      obtain ⟨rfl, hresolves⟩ := (operand_eq_ok_iff h).mp ho
      obtain ⟨rfl, hforall⟩ := (ih hrest).mp hos'
      exact ⟨rfl, .cons hresolves hforall⟩
    · rintro ⟨hkinds, hall⟩
      obtain ⟨o, os', hresolves, hforall, rfl⟩ := List.forall₂_cons_left_iff.mp hall
      obtain ⟨rfl, rfl⟩ := List.cons.inj hkinds
      exact Except.bind_eq_ok_iff.mpr ⟨o, (operand_eq_ok_iff h).mpr ⟨rfl, hresolves⟩,
        Except.bind_eq_ok_iff.mpr ⟨os', (ih hrest).mpr ⟨rfl, hforall⟩, rfl⟩⟩

/-- A line of code becomes the instruction with its opcode and with what its operands stand for. -/
theorem instruction_eq_ok_iff (h : s.Knows p) {l : CodeLine} {i : Instruction} :
    s.instruction l = .ok i ↔ i.opcode = l.opcode ∧ List.Forall₂ p.Resolves l.operands i.operands := by
  unfold instruction
  constructor
  · intro hi
    split at hi
    next hlength =>
      obtain ⟨os, hos, hbuild⟩ := Except.bind_eq_ok_iff.mp hi
      obtain ⟨hkinds, hforall⟩ := (operands_eq_ok_iff h hlength).mp hos
      cases hof : Instruction.ofOperands? l.opcode os with
      | none => exact (Instruction.ofOperands?_ne_none hkinds hof).elim
      | some j =>
        rw [hof] at hbuild
        obtain rfl := Except.ok.inj hbuild
        obtain ⟨hop, rfl⟩ := (Instruction.ofOperands?_eq_some_iff hkinds).mp hof
        exact ⟨hop, hforall⟩
    next => cases hi
  · rintro ⟨hop, hforall⟩
    have hkinds : i.operands.map Operand.kind = l.opcode.operandKinds := by
      rw [Instruction.map_kind_operands, hop]
    have hlength : l.operands.length = l.opcode.arity := by
      rw [Opcode.arity, hforall.length_eq, ← hkinds, List.length_map]
    have hos := (operands_eq_ok_iff h hlength).mpr ⟨hkinds, hforall⟩
    have hof := (Instruction.ofOperands?_eq_some_iff hkinds).mpr ⟨hop, rfl⟩
    rw [if_pos hlength]
    exact Except.bind_eq_ok_iff.mpr ⟨i.operands, hos, by rw [hof]; rfl⟩

end Scope

/-- The lines of code become the instructions with their opcodes and with what their operands stand
for, in this order. -/
theorem instructions_eq_ok_iff {s : Scope} {p : Source} (h : s.Knows p) {ls : List CodeLine}
    {is : List Instruction} : (instructions s ls).1 = .ok is ↔
      List.Forall₂ (fun (l : CodeLine) (i : Instruction) => i.opcode = l.opcode ∧
        List.Forall₂ p.Resolves l.operands i.operands) ls is := by
  induction ls generalizing is with
  | nil => simp [instructions, eq_comm]
  | cons l ls ih =>
    unfold instructions
    constructor
    · intro his
      split at his
      next => cases his
      next i hi =>
        obtain ⟨is', hrest, rfl⟩ := Except.map_eq_ok_iff.mp his
        exact .cons ((Scope.instruction_eq_ok_iff h).mp hi) (ih.mp hrest)
    · intro hforall
      obtain ⟨i, is', hi, hrest, rfl⟩ := List.forall₂_cons_left_iff.mp hforall
      rw [(Scope.instruction_eq_ok_iff h).mpr hi]
      exact Except.map_eq_ok_iff.mpr ⟨is', ih.mpr hrest, rfl⟩

end Assembly

end RegisterMachine

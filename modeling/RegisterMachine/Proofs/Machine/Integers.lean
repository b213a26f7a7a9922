import Mathlib
import RegisterMachine.Proofs.Machine.Control

namespace RegisterMachine

/-- The contents of a register stand for the integer. -/
def StandsFor (v : UInt64) (z : Int) : Prop :=
  (v.toNat : Int) = z % 2 ^ 64

/-- The second integer is the first one divided by another, cut off toward zero: what is left over is less
than the divisor and has the sign of the first integer. -/
def Quotient (x y q : Int) : Prop :=
  ∃ r, x = q * y + r ∧ |r| < |y| ∧ (r = 0 ∨ r.sign = x.sign)

section

variable {a b : UInt64} {x y : Int}

theorem standsFor_toNat (v : UInt64) : StandsFor v v.toNat := by
  have hlt : (v.toNat : Int) < 2 ^ 64 := by exact_mod_cast v.toNat_lt
  exact (Int.emod_eq_of_lt (Int.natCast_nonneg _) hlt).symm

theorem standsFor_toInt (v : Int64) : StandsFor v.toUInt64 v.toInt := by
  have hbmod : v.toInt = (v.toUInt64.toNat : Int).bmod (2 ^ 64) := BitVec.toInt_eq_toNat_bmod v.toBitVec
  rw [StandsFor, hbmod]
  exact (standsFor_toNat v.toUInt64).trans Int.bmod_emod.symm

theorem StandsFor.add (ha : StandsFor a x) (hb : StandsFor b y) : StandsFor (a + b) (x + y) := by
  rw [StandsFor] at ha hb ⊢
  rw [UInt64.toNat_add]
  push_cast
  omega

theorem StandsFor.sub (ha : StandsFor a x) (hb : StandsFor b y) : StandsFor (a - b) (x - y) := by
  rw [StandsFor] at ha hb ⊢
  have hlt := b.toNat_lt
  rw [UInt64.toNat_sub]
  push_cast
  omega

theorem StandsFor.mul (ha : StandsFor a x) (hb : StandsFor b y) : StandsFor (a * b) (x * y) := by
  rw [StandsFor] at ha hb ⊢
  rw [UInt64.toNat_mul, Int.natCast_emod, Int.natCast_mul, ha, hb]
  exact (Int.mul_emod x y (2 ^ 64)).symm

theorem quotient_tdiv (hy : y ≠ 0) : Quotient x y (x.tdiv y) := by
  refine ⟨x.tmod y, ?_, ?_, ?_⟩
  · rw [Int.mul_comm]
    exact (Int.mul_tdiv_add_tmod x y).symm
  · rw [Int.abs_eq_natAbs, Int.abs_eq_natAbs, Int.natAbs_tmod]
    exact_mod_cast Nat.mod_lt _ (Int.natAbs_pos.mpr hy)
  · rw [Int.sign_tmod]
    split
    next hdvd => exact .inl (Int.tmod_eq_zero_of_dvd hdvd)
    next => exact .inr rfl

/-- A quotient of two integers, cut off toward zero, fits 64 bits with one exception. -/
theorem quotient_div (a b : Int64) (hb : b ≠ 0) (h : ¬ (a.toInt = -2 ^ 63 ∧ b.toInt = -1)) :
    Quotient a.toInt b.toInt (a / b).toInt := by
  have hy : b.toInt ≠ 0 := fun hzero => hb (Int64.toInt_inj.mp hzero)
  have hdiv : (a / b).toInt = a.toInt.tdiv b.toInt := by
    by_cases ha : a = Int64.minValue
    · exact Int64.toInt_div_of_ne_right a b fun hone => h ⟨by rw [ha]; rfl, by rw [hone]; rfl⟩
    · exact Int64.toInt_div_of_ne_left a b ha
  rw [hdiv]
  exact quotient_tdiv hy

namespace Comparison

theorem holds_less_iff : less.holds a b = true ↔ a.toInt64.toInt < b.toInt64.toInt :=
  decide_eq_true_iff.trans Int64.lt_iff_toInt_lt

theorem holds_greater_iff : greater.holds a b = true ↔ b.toInt64.toInt < a.toInt64.toInt :=
  decide_eq_true_iff.trans Int64.lt_iff_toInt_lt

theorem holds_equal_iff : equal.holds a b = true ↔ a.toInt64.toInt = b.toInt64.toInt := by
  rw [Int64.toInt_inj]
  exact beq_iff_eq.trans ⟨congrArg UInt64.toInt64, congrArg Int64.toUInt64⟩

/-- Of the three comparisons of two integers exactly one holds. -/
theorem existsUnique_holds (a b : UInt64) : ∃! c : Comparison, c.holds a b = true := by
  rcases lt_trichotomy a.toInt64.toInt b.toInt64.toInt with hlt | heq | hgt
  · refine ⟨less, holds_less_iff.mpr hlt, fun c hc => ?_⟩
    cases c with
    | less => rfl
    | greater => exact absurd (holds_greater_iff.mp hc) hlt.asymm
    | equal => exact absurd (holds_equal_iff.mp hc) hlt.ne
  · refine ⟨equal, holds_equal_iff.mpr heq, fun c hc => ?_⟩
    cases c with
    | less => exact absurd (holds_less_iff.mp hc) heq.not_lt
    | greater => exact absurd (holds_greater_iff.mp hc) heq.not_gt
    | equal => rfl
  · refine ⟨greater, holds_greater_iff.mpr hgt, fun c hc => ?_⟩
    cases c with
    | less => exact absurd (holds_less_iff.mp hc) hgt.asymm
    | greater => rfl
    | equal => exact absurd (holds_equal_iff.mp hc) hgt.ne'

end Comparison

end

namespace Machine

/-- A branch on the comparison of two registers is taken, wherever it goes to. -/
def Takes (p : Program) (ip : UInt64) (m : Machine) (c : Comparison) (lhs rhs : Register) : Prop :=
  ∀ target, m.exec p ip (.branch c lhs rhs target) = .ok (m.jump target)

section

variable {p : Program} {m : Machine} {ip : UInt64} {dest lhs rhs : Register} {c : Comparison}

theorem takes_iff : m.Takes p ip c lhs rhs ↔ c.holds (m.registers.get lhs) (m.registers.get rhs) = true := by
  have hexec : ∀ target, m.exec p ip (.branch c lhs rhs target) =
      .ok (m.jumpIf (c.holds (m.registers.get lhs) (m.registers.get rhs)) target) := fun _ => rfl
  constructor
  · intro h
    by_contra hfails
    -- A branch that is not taken cannot be told from one that goes to where the machine is anyway.
    have hnext := Except.ok.inj ((hexec (m.registers.ip + 1)).symm.trans (h (m.registers.ip + 1)))
    rw [jumpIf, if_neg hfails] at hnext
    have hip : m.registers.ip = m.registers.ip + 1 := congrArg (fun m => m.registers.ip) hnext
    simp at hip
  · intro h target
    rw [hexec, jumpIf, if_pos h]

theorem exec_branch_of_not_takes (h : ¬ m.Takes p ip c lhs rhs) (target : UInt64) :
    m.exec p ip (.branch c lhs rhs target) = .ok m := by
  show Except.ok (m.jumpIf _ target) = _
  rw [jumpIf, if_neg (mt takes_iff.mpr h)]

theorem getInt_eq_zero_iff {r : Register} : m.registers.getInt r = 0 ↔ m.registers.get r = 0 :=
  ⟨congrArg Int64.toUInt64, congrArg UInt64.toInt64⟩

theorem exec_div_of_ne (h : m.registers.get rhs ≠ 0) : m.exec p ip (.arith .div dest lhs rhs) =
    .ok (m.setRegister dest (m.registers.getInt lhs / m.registers.getInt rhs).toUInt64) := by
  show (IntegerOp.div.eval _ _ >>= _) = _
  rw [IntegerOp.eval, if_neg (mt getInt_eq_zero_iff.mp h)]
  rfl

theorem exec_div_fails_iff :
    (∃ f, m.exec p ip (.arith .div dest lhs rhs) = .error f) ↔ m.registers.get rhs = 0 := by
  constructor
  · rintro ⟨f, hf⟩
    cases exec_eq_error_iff.mp hf with
    | divide h => exact getInt_eq_zero_iff.mp h
  · intro h
    exact ⟨.divideByZero, exec_eq_error_iff.mpr (.divide (getInt_eq_zero_iff.mpr h))⟩

theorem exists_exec_div (h : m.registers.get rhs ≠ 0) :
    ∃ v, m.exec p ip (.arith .div dest lhs rhs) = .ok (m.setRegister dest v) ∧
      if (m.registers.getInt lhs).toInt = -2 ^ 63 ∧ (m.registers.getInt rhs).toInt = -1 then
        v.toInt64.toInt = -2 ^ 63
      else Quotient (m.registers.getInt lhs).toInt (m.registers.getInt rhs).toInt v.toInt64.toInt := by
  refine ⟨_, exec_div_of_ne h, ?_⟩
  split
  next hextreme =>
    have hlhs : m.registers.getInt lhs = Int64.minValue := Int64.toInt_inj.mp hextreme.1
    have hrhs : m.registers.getInt rhs = -1 := Int64.toInt_inj.mp hextreme.2
    rw [hlhs, hrhs]
    rfl
  next hextreme => exact quotient_div _ _ (mt getInt_eq_zero_iff.mp h) hextreme

end

/-- What the instructions on integers do, where the operands may be any registers and the destination may be
one of them. Sums, differences and products are exact modulo `2 ^ 64`, whatever integers the operands are
taken for. A division by zero stops the program; every other one gives the quotient, except that the only one
that does not fit is its own dividend. Shifts go by the remainder of the amount modulo 64. Branches follow the
order of the integers with their signs, and of three branches on the same registers exactly one is taken. -/
theorem integers_exact (p : Program) (m : Machine) (ip : UInt64) (dest lhs rhs : Register) :
    let a := m.registers.get lhs
    let b := m.registers.get rhs
    (∀ v : UInt64, StandsFor v v.toNat ∧ StandsFor v v.toInt64.toInt) ∧
    (∀ x y, StandsFor a x → StandsFor b y →
      (∃ v, m.exec p ip (.arith .add dest lhs rhs) = .ok (m.setRegister dest v) ∧ StandsFor v (x + y)) ∧
      (∃ v, m.exec p ip (.arith .sub dest lhs rhs) = .ok (m.setRegister dest v) ∧ StandsFor v (x - y)) ∧
      ∃ v, m.exec p ip (.arith .mul dest lhs rhs) = .ok (m.setRegister dest v) ∧ StandsFor v (x * y)) ∧
    ((∃ f, m.exec p ip (.arith .div dest lhs rhs) = .error f) ↔ b = 0) ∧
    (b ≠ 0 → ∃ v, m.exec p ip (.arith .div dest lhs rhs) = .ok (m.setRegister dest v) ∧
      if a.toInt64.toInt = -2 ^ 63 ∧ b.toInt64.toInt = -1 then v.toInt64.toInt = -2 ^ 63
      else Quotient a.toInt64.toInt b.toInt64.toInt v.toInt64.toInt) ∧
    (∀ n : Machine, n.fetched = m → p.fetch? n.registers.ip = some (.arith .div dest lhs rhs) →
      (b = 0 → n.advance p = m.kill n.registers.ip .divideByZero) ∧
      (b ≠ 0 → m.exec p n.registers.ip (.arith .div dest lhs rhs) = .ok (n.advance p))) ∧
    (∃ v, m.exec p ip (.bitwise .shiftLeft dest lhs rhs) = .ok (m.setRegister dest v) ∧
      v.toNat = a.toNat * 2 ^ (b.toNat % 64) % 2 ^ 64) ∧
    (∃ v, m.exec p ip (.bitwise .shiftRight dest lhs rhs) = .ok (m.setRegister dest v) ∧
      v.toNat = a.toNat / 2 ^ (b.toNat % 64)) ∧
    (m.Takes p ip .less lhs rhs ↔ a.toInt64.toInt < b.toInt64.toInt) ∧
    (m.Takes p ip .greater lhs rhs ↔ b.toInt64.toInt < a.toInt64.toInt) ∧
    (m.Takes p ip .equal lhs rhs ↔ a.toInt64.toInt = b.toInt64.toInt) ∧
    (∀ c target, ¬ m.Takes p ip c lhs rhs → m.exec p ip (.branch c lhs rhs target) = .ok m) ∧
    ∃! c, m.Takes p ip c lhs rhs := by
  intro a b
  have hstands : ∀ v : UInt64, StandsFor v v.toNat ∧ StandsFor v v.toInt64.toInt := fun v =>
    ⟨standsFor_toNat v, standsFor_toInt v.toInt64⟩
  refine ⟨hstands, fun x y hx hy => ⟨⟨a + b, rfl, hx.add hy⟩, ⟨a - b, rfl, hx.sub hy⟩, a * b, rfl, hx.mul hy⟩,
    exec_div_fails_iff, exists_exec_div, ?_, ⟨a <<< b, rfl, ?_⟩, ⟨a >>> b, rfl, ?_⟩,
    takes_iff.trans Comparison.holds_less_iff, takes_iff.trans Comparison.holds_greater_iff,
    takes_iff.trans Comparison.holds_equal_iff, fun c target h => exec_branch_of_not_takes h target, ?_⟩
  · rintro n rfl hfetch
    refine ⟨fun hb => advance_of_fails hfetch (.divide (getInt_eq_zero_iff.mpr hb)), fun hb => ?_⟩
    rw [exec_div_of_ne hb, advance_of_ok hfetch (exec_div_of_ne hb)]
  · rw [UInt64.toNat_shiftLeft, Nat.shiftLeft_eq]
  · rw [UInt64.toNat_shiftRight, Nat.shiftRight_eq_div_pow]
  · simp only [takes_iff]
    exact Comparison.existsUnique_holds a b

/-- The quotient that does not fit, put where its dividend is, and a shift by an amount of more than 32
bits. -/
theorem integers_exact_extreme :
    let p : Program :=
      { instructions := #[.arith .div (.int 0) (.int 0) (.int 1)], handlers := [], debug := .none,
        syscalls := #[] }
    let registers : Registers :=
      { Registers.initial with
        ints := ⟨#[0x8000000000000000, 0xFFFFFFFFFFFFFFFF, 0x700000041, 5, 0, 0, 0, 0, 0, 0], rfl⟩ }
    let n : Machine :=
      { registers, stack := Stack.empty 4, memory := Memory.empty, callStack := [],
        interruptsEnabled := false, pending := [], alive := true, fault := none, stats := {}, events := [] }
    (∃ v, n.fetched.exec p 0 (.arith .sub (.int 0) (.int 0) (.int 1)) =
        .ok (n.fetched.setRegister (.int 0) v) ∧ StandsFor v (2 ^ 63 - -1)) ∧
      (∃ v, n.advance p = n.fetched.setRegister (.int 0) v ∧ v.toInt64.toInt = -2 ^ 63) ∧
      ∃ v, n.exec p 0 (.bitwise .shiftLeft (.int 3) (.int 3) (.int 2)) = .ok (n.setRegister (.int 3) v) ∧
        v.toNat = 10 := by
  intro p registers n
  obtain ⟨-, hsums, -, hdiv, hcycle, -⟩ := integers_exact p n.fetched 0 (.int 0) (.int 0) (.int 1)
  have hlhs : StandsFor (n.fetched.registers.get (.int 0)) (2 ^ 63) := by
    rw [StandsFor]
    decide +kernel
  have hrhs : StandsFor (n.fetched.registers.get (.int 1)) (-1) := by
    rw [StandsFor]
    decide +kernel
  have hne : n.fetched.registers.get (.int 1) ≠ 0 := by decide +kernel
  have hextreme : (n.fetched.registers.get (.int 0)).toInt64.toInt = -2 ^ 63 ∧
      (n.fetched.registers.get (.int 1)).toInt64.toInt = -1 := by decide +kernel
  refine ⟨(hsums _ _ hlhs hrhs).2.1, ?_, ?_⟩
  · obtain ⟨v, hexec, hquotient⟩ := hdiv hne
    rw [if_pos hextreme] at hquotient
    exact ⟨v, Except.ok.inj (((hcycle n rfl rfl).2 hne).symm.trans hexec), hquotient⟩
  · obtain ⟨-, -, -, -, -, ⟨v, hexec, hv⟩, -⟩ := integers_exact p n 0 (.int 3) (.int 3) (.int 2)
    exact ⟨v, hexec, hv.trans (by decide +kernel)⟩

end Machine

end RegisterMachine

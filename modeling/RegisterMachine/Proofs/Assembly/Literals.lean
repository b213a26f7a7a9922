import Mathlib
import RegisterMachine.Proofs.Assembly.Operand

namespace RegisterMachine

namespace Numeral

def decimalDigits : List Char := ['0', '1', '2', '3', '4', '5', '6', '7', '8', '9']

/-- The letters that go on with the digits of hexadecimal numbers. -/
def letterDigits : List Char := ['a', 'b', 'c', 'd', 'e', 'f']

def hexadecimalDigits : List Char := decimalDigits ++ letterDigits ++ letterDigits.map Char.toUpper

/-- The value of a digit: its place among all of them, where case does not matter. -/
def digitValue (c : Char) : Nat := (decimalDigits ++ letterDigits).idxOf c.toLower

/-- The number with these digits to a base, the most significant one first. -/
def number (base : Nat) (digits : List Char) : Nat :=
  Nat.ofDigits base (digits.reverse.map digitValue)

/-- A number with a sign or without one. -/
inductive Signs : List Char → Nat → Int → Prop
  | plus (n : Nat) : Signs [] n n
  | minus (n : Nat) : Signs ['-'] n (-n)

/-- A text and the integer that it spells. -/
inductive Spells : List Char → Int → Prop
  | decimal {sign digits : List Char} {z : Int} : digits ≠ [] → (∀ c ∈ digits, c ∈ decimalDigits) →
      Signs sign (number 10 digits) z → Spells (sign ++ digits) z
  | hexadecimal {sign digits : List Char} {x : Char} {z : Int} : x = 'x' ∨ x = 'X' → digits ≠ [] →
      (∀ c ∈ digits, c ∈ hexadecimalDigits) → Signs sign (number 16 digits) z →
      Spells (sign ++ '0' :: x :: digits) z

/-- A character is read as a digit to the base exactly if it is one of these, and as its value. -/
def Reads (base : Nat) (digits : List Char) : Prop :=
  ∀ c v, Hexadecimal.digitValue? c = some v ∧ v < base ↔ c ∈ digits ∧ v = digitValue c

/-- Characters of more than seven bits are no digits, so only the others are to be tried. -/
theorem reads_of_ascii {base : Nat} {digits : List Char} (hdigits : digits.all (·.toNat < 128) = true)
    (h : ∀ i : Fin 128, (Hexadecimal.digitValue? (Char.ofNat i)).filter (· < base) =
      if Char.ofNat i ∈ digits then some (digitValue (Char.ofNat i)) else none) : Reads base digits := by
  intro c v
  rcases Nat.lt_or_ge c.toNat 128 with hlt | hge
  · have hc := h ⟨c.toNat, hlt⟩
    rw [Char.ofNat_toNat] at hc
    have hfilter : (Hexadecimal.digitValue? c).filter (· < base) = some v ↔
        Hexadecimal.digitValue? c = some v ∧ v < base := by
      rw [Option.filter_eq_some_iff, decide_eq_true_iff]
    rw [← hfilter, hc, Option.ite_none_right_eq_some, Option.some_inj, eq_comm (a := v)]
  · have hnone : Hexadecimal.digitValue? c = none := by
      have hle : ∀ d : Char, d.toNat < 128 → ¬ c ≤ d := fun d hd hcd => by
        have hle : c.toNat ≤ d.toNat := UInt32.le_iff_toNat_le.mp hcd
        omega
      rw [Hexadecimal.digitValue?, if_neg (mt And.right (hle '9' (by decide))),
        if_neg (mt And.right (hle 'f' (by decide))), if_neg (mt And.right (hle 'F' (by decide)))]
    rw [hnone]
    refine iff_of_false nofun fun hmem => ?_
    have hlt := List.all_eq_true.mp hdigits c hmem.1
    exact absurd (of_decide_eq_true hlt) (Nat.not_lt.mpr hge)

theorem reads_decimal : Reads 10 decimalDigits :=
  reads_of_ascii (by decide +kernel) (by decide +kernel)

theorem reads_hexadecimal : Reads 16 hexadecimalDigits :=
  reads_of_ascii (by decide +kernel) (by decide +kernel)

theorem number_concat (base : Nat) (s : List Char) (c : Char) :
    number base (s ++ [c]) = number base s * base + digitValue c := by
  rw [number, List.reverse_concat, List.map_cons, Nat.ofDigits_cons, Nat.mul_comm, Nat.add_comm]
  rfl

/-- Zeros in front do not matter. -/
theorem number_zeros (base k : Nat) (digits : List Char) :
    number base (List.replicate k '0' ++ digits) = number base digits := by
  have hzero : digitValue '0' = 0 := by decide
  rw [number, List.reverse_append, List.reverse_replicate, List.map_append, List.map_replicate, hzero,
    Nat.ofDigits_append_replicate_zero]
  rfl

/-- Rows of digits are told by their characters. -/
theorem digits_iff {base n : Nat} {digits s : List Char} (hreads : Reads base digits) :
    Digits base s n ↔ s ≠ [] ∧ (∀ c ∈ s, c ∈ digits) ∧ n = number base s := by
  constructor
  · intro h
    induction h with
    | @one c v hv hlt =>
      obtain ⟨hc, rfl⟩ := (hreads c v).mp ⟨hv, hlt⟩
      refine ⟨List.cons_ne_nil _ _, List.forall_mem_singleton.mpr hc, ?_⟩
      rw [← List.nil_append [c], number_concat, number]
      simp
    | @snoc s n c v _ hv hlt ih =>
      obtain ⟨hc, rfl⟩ := (hreads c v).mp ⟨hv, hlt⟩
      obtain ⟨-, hs, rfl⟩ := ih
      refine ⟨by simp, ?_, (number_concat base s c).symm⟩
      exact List.forall_mem_append.mpr ⟨hs, List.forall_mem_singleton.mpr hc⟩
  · rintro ⟨hne, hs, rfl⟩
    induction s using List.reverseRecOn with
    | nil => exact absurd rfl hne
    | append_singleton s c ih =>
      obtain ⟨hs, hc⟩ := List.forall_mem_append.mp hs
      obtain ⟨hv, hlt⟩ := (hreads c _).mpr ⟨hc c (List.mem_singleton.mpr rfl), rfl⟩
      rw [number_concat]
      rcases eq_or_ne s [] with rfl | hne
      · have hzero : number base [] = 0 := rfl
        rw [hzero, Nat.zero_mul, Nat.zero_add]
        exact .one hv hlt
      · exact .snoc (ih hne hs) hv hlt

theorem Signs.abs_eq {sign : List Char} {n : Nat} {z : Int} (h : Signs sign n z) : |z| = n := by
  cases h with
  | plus => exact abs_of_nonneg (Int.natCast_nonneg n)
  | minus => rw [abs_neg, abs_of_nonneg (Int.natCast_nonneg n)]

theorem spells_iff {s : List Char} {z : Int} :
    Spells s z ↔ ∃ sign t n, s = sign ++ t ∧ Magnitude t n ∧ Signs sign n z := by
  constructor
  · intro h
    cases h with
    | decimal hne hdigits hsigns =>
      exact ⟨_, _, _, rfl, .decimal ((digits_iff reads_decimal).mpr ⟨hne, hdigits, rfl⟩), hsigns⟩
    | hexadecimal hx hne hdigits hsigns =>
      exact ⟨_, _, _, rfl, .hexadecimal hx ((digits_iff reads_hexadecimal).mpr ⟨hne, hdigits, rfl⟩), hsigns⟩
  · rintro ⟨sign, t, n, rfl, hmagnitude, hsigns⟩
    cases hmagnitude with
    | decimal h =>
      obtain ⟨hne, hdigits, rfl⟩ := (digits_iff reads_decimal).mp h
      exact .decimal hne hdigits hsigns
    | hexadecimal hx h =>
      obtain ⟨hne, hdigits, rfl⟩ := (digits_iff reads_hexadecimal).mp h
      exact .hexadecimal hx hne hdigits hsigns

/-- The integers that texts denote are those that they spell, as far as these are small enough. -/
theorem denotes_iff {s : List Char} {z : Int} : Denotes s z ↔ Spells s z ∧ |z| < 2 ^ 127 := by
  rw [spells_iff]
  constructor
  · intro h
    cases h with
    | @natural _ n hmagnitude hlt =>
      refine ⟨⟨[], s, n, rfl, hmagnitude, .plus n⟩, ?_⟩
      rw [(Signs.plus n).abs_eq]
      exact_mod_cast hlt
    | @negative t n hmagnitude hlt =>
      refine ⟨⟨['-'], t, n, rfl, hmagnitude, .minus n⟩, ?_⟩
      rw [(Signs.minus n).abs_eq]
      exact_mod_cast hlt
  · rintro ⟨⟨sign, t, n, rfl, hmagnitude, hsigns⟩, hlt⟩
    rw [hsigns.abs_eq] at hlt
    have hlt : n < 2 ^ 127 := by exact_mod_cast hlt
    cases hsigns with
    | plus => exact .natural hmagnitude hlt
    | minus => exact .negative hmagnitude hlt

/-- The decimal digits of an integer, with its sign, spell it. -/
theorem spells_toString (z : Int) : Spells (toString z).toList z := by
  rw [spells_iff]
  cases z with
  | ofNat n =>
    have htext : (toString (Int.ofNat n)).toList = Nat.toDigits 10 n := Nat.toList_repr
    exact ⟨[], _, n, htext, .decimal (digits_toDigits n), .plus n⟩
  | negSucc n =>
    have htext : (toString (Int.negSucc n)).toList = ['-'] ++ Nat.toDigits 10 (n + 1) := by
      rw [← Nat.toList_repr]
      exact String.toList_append
    exact ⟨['-'], _, n + 1, htext, .decimal (digits_toDigits (n + 1)), .minus (n + 1)⟩

/-- A word is that of an integer exactly if it is this integer modulo `2 ^ 64`. -/
theorem eq_ofInt_iff {n : UInt64} {z : Int} : n = UInt64.ofInt z ↔ (n.toNat : Int) = z % 2 ^ 64 := by
  have hmod : ((UInt64.ofInt z).toNat : Int) = z % 2 ^ 64 := by
    have hlt : (z % 2 ^ 64).toNat < 2 ^ 64 := by omega
    rw [UInt64.ofInt, UInt64.toNat_ofNat_of_lt' hlt]
    omega
  rw [← hmod, Nat.cast_inj, UInt64.toNat_inj]

end Numeral

namespace Assembly

/-- A text and the integer that it spells, which is one of a range. -/
def SpellsWithin (low bound : Int) (text : String) (z : Int) : Prop :=
  Numeral.Spells text.toList z ∧ low ≤ z ∧ z < bound

theorem spellsWithin_iff {low bound z : Int} {text : String} (hlow : -2 ^ 127 < low)
    (hbound : bound ≤ 2 ^ 127) :
    SpellsWithin low bound text z ↔ Numeral.Denotes text.toList z ∧ low ≤ z ∧ z < bound := by
  rw [SpellsWithin, Numeral.denotes_iff, and_assoc]
  refine and_congr_right fun _ => ⟨fun h => ⟨abs_lt.mpr ⟨?_, ?_⟩, h⟩, And.right⟩
  · exact hlow.trans_le h.1
  · exact h.2.trans_le hbound

theorem spellsWithin_toString {low bound z : Int} (hlow : low ≤ z) (hbound : z < bound) :
    SpellsWithin low bound (toString z) z :=
  ⟨Numeral.spells_toString z, hlow, hbound⟩

namespace IntegerType

/-- The value of a constant, if it is of the type. -/
def value? : IntegerType → Constant → Option Int
  | u8, .u8 v => some v.toNat
  | u16, .u16 v => some v.toNat
  | u32, .u32 v => some v.toNat
  | u64, .u64 v => some v.toNat
  | i8, .i8 v => some v.toInt
  | i16, .i16 v => some v.toInt
  | i32, .i32 v => some v.toInt
  | i64, .i64 v => some v.toInt
  | _, _ => none

variable {t : IntegerType} {z : Int} {c c' : Constant}

theorem value?_constant (hlow : t.low ≤ z) (hhigh : z < t.bound) : t.value? (t.constant z) = some z := by
  cases t with
  | u8 =>
    have hlow : 0 ≤ z := hlow
    have hhigh : z < 2 ^ 8 := hhigh
    have hlt : (z % 2 ^ 8).toNat < 2 ^ 8 := by omega
    have hvalue : ((UInt8.ofInt z).toNat : Int) = z := by
      rw [UInt8.ofInt, UInt8.toNat_ofNat_of_lt' hlt]
      omega
    exact congrArg some hvalue
  | u16 =>
    have hlow : 0 ≤ z := hlow
    have hhigh : z < 2 ^ 16 := hhigh
    have hlt : (z % 2 ^ 16).toNat < 2 ^ 16 := by omega
    have hvalue : ((UInt16.ofInt z).toNat : Int) = z := by
      rw [UInt16.ofInt, UInt16.toNat_ofNat_of_lt' hlt]
      omega
    exact congrArg some hvalue
  | u32 =>
    have hlow : 0 ≤ z := hlow
    have hhigh : z < 2 ^ 32 := hhigh
    have hlt : (z % 2 ^ 32).toNat < 2 ^ 32 := by omega
    have hvalue : ((UInt32.ofInt z).toNat : Int) = z := by
      rw [UInt32.ofInt, UInt32.toNat_ofNat_of_lt' hlt]
      omega
    exact congrArg some hvalue
  | u64 => exact congrArg some (Numeral.toNat_ofInt hlow hhigh)
  | i8 => exact congrArg some (Int8.toInt_ofInt_of_le hlow hhigh)
  | i16 => exact congrArg some (Int16.toInt_ofInt_of_le hlow hhigh)
  | i32 => exact congrArg some (Int32.toInt_ofInt_of_le hlow hhigh)
  | i64 => exact congrArg some (Int64.toInt_ofInt_of_le hlow hhigh)

theorem low_gt (t : IntegerType) : -2 ^ 127 < t.low := by
  cases t <;> decide

theorem bound_le (t : IntegerType) : t.bound ≤ 2 ^ 127 := by
  cases t <;> decide

end IntegerType

namespace Scope

variable (s : Scope) (text token : String)

theorem value_marked : s.value ("@" ++ text) =
    (Numeral.quad? text.toList).elim (.error (.valueRange ("@" ++ text))) .ok := by
  have htext : ("@" ++ text).toList = '@' :: text.toList := toList_marked '@' text
  rw [value]
  simp only [htext]
  cases Numeral.quad? text.toList <;> rfl

theorem kind_of_number {cause : Cause} (h : number token = .error cause) : cause.kind = .valueOutOfRange := by
  simp only [number] at h
  generalize Numeral.index? _ = n at h
  cases n with
  | none =>
    obtain rfl := Except.error.inj h
    rfl
  | some n => cases h

theorem kind_of_value_marked {cause : Cause} (h : s.value ("@" ++ text) = .error cause) :
    cause.kind = .valueOutOfRange := by
  rw [value_marked] at h
  cases hquad : Numeral.quad? text.toList with
  | none =>
    rw [hquad] at h
    obtain rfl := Except.error.inj h
    rfl
  | some n =>
    rw [hquad] at h
    cases h

/-- The values behind `@` are the integers of 64 bits with and without sign, modulo `2 ^ 64`. -/
theorem operand_immediate_eq_ok_iff {o : Operand} : s.operand .immediate ("@" ++ text) = .ok o ↔
    ∃ n z, SpellsWithin (-2 ^ 63) (2 ^ 64) text z ∧ (n.toNat : Int) = z % 2 ^ 64 ∧ o = .immediate n := by
  have hvalue : ∀ n, s.value ("@" ++ text) = .ok n ↔
      ∃ z, SpellsWithin (-2 ^ 63) (2 ^ 64) text z ∧ (n.toNat : Int) = z % 2 ^ 64 := by
    intro n
    have hquad : s.value ("@" ++ text) = .ok n ↔ Numeral.quad? text.toList = some n := by
      rw [value_marked]
      cases Numeral.quad? text.toList <;> simp
    rw [hquad, Numeral.quad?_eq_some_iff]
    refine exists_congr fun z => ?_
    rw [spellsWithin_iff (by decide) (by decide), and_assoc, and_assoc, Numeral.eq_ofInt_iff]
  rw [operand, Except.map_eq_ok_iff]
  refine exists_congr fun n => ?_
  rw [hvalue, ← exists_and_right]
  exact exists_congr fun z => and_assoc.trans (and_congr_right' (and_congr_right' eq_comm))

/-- The numbers of system calls and debug marks are those of 64 bits, with the mark or without it. -/
theorem operand_number_eq_ok_iff {o : Operand} : s.operand .number token = .ok o ↔
    ∃ (n : UInt64) (text : String), (token = text ∨ token = "@" ++ text) ∧
      SpellsWithin 0 (2 ^ 64) text n.toNat ∧ o = .number n := by
  have hspells : ∀ (n : UInt64) (text : String),
      SpellsWithin 0 (2 ^ 64) text n.toNat ↔ Numeral.Denotes text.toList n.toNat := by
    intro n text
    have hlt : (n.toNat : Int) < 2 ^ 64 := by exact_mod_cast n.toNat_lt
    rw [spellsWithin_iff (by decide) (by decide)]
    exact and_iff_left ⟨Int.natCast_nonneg _, hlt⟩
  simp only [operand, Except.map_eq_ok_iff, number_eq_ok_iff (p := ⟨"", [], []⟩), hspells]
  refine exists_congr fun n => ?_
  constructor
  · rintro ⟨h, rfl⟩
    cases h with
    | number hdenotes => exact ⟨token, .inl rfl, hdenotes, rfl⟩
    | @markedNumber text _ hdenotes => exact ⟨text, .inr rfl, hdenotes, rfl⟩
  · rintro ⟨text, rfl | rfl, hdenotes, rfl⟩
    · exact ⟨.number hdenotes, rfl⟩
    · exact ⟨.markedNumber hdenotes, rfl⟩

end Scope

/-- The constants of an integer type are those whose values are in its range. -/
theorem constant_eq_ok_iff_spells {t : IntegerType} {text : String} {c : Constant} :
    Declarations.constant t.directive text = .ok c ↔
      ∃ z, SpellsWithin t.low t.bound text z ∧ t.constant z = c := by
  rw [constant_integer, Except.map_eq_ok_iff]
  refine exists_congr fun z => and_congr_left fun _ => ?_
  rw [integer_eq_ok_iff, spellsWithin_iff t.low_gt t.bound_le, Int.le_sub_one_iff]

theorem kind_of_constant {t : IntegerType} {text : String} {cause : Cause}
    (h : Declarations.constant t.directive text = .error cause) : cause.kind = .valueOutOfRange := by
  rw [constant_integer, Except.map_eq_error_iff, Declarations.integer] at h
  split at h
  next => cases h
  next =>
    obtain rfl := Except.error.inj h
    rfl

/-- A literal is read exactly if it is a row of digits to the base ten, or of digits to the base sixteen
behind their mark, with a minus sign or without one, and if its magnitude is below `2 ^ 127`; it then stands
for the integer that it spells, where zeros in front do not matter. Behind the mark of a value it has to be
from `-2 ^ 63` to `2 ^ 64 - 1` and is taken modulo `2 ^ 64`, as a number of a system call or a debug mark from
`0` to `2 ^ 64 - 1`, as a constant in the range of its type, whose value it then is. All else is out of range.
The decimal text of each integer in the range is read back as this integer. -/
theorem literals_exact :
    (∀ text z, Numeral.parse? text = some z ↔ Numeral.Spells text z ∧ |z| < 2 ^ 127) ∧
    (∀ base k digits, Numeral.number base (List.replicate k '0' ++ digits) = Numeral.number base digits) ∧
    (∀ (s : Scope) text o, s.operand .immediate ("@" ++ text) = .ok o ↔
      ∃ n z, SpellsWithin (-2 ^ 63) (2 ^ 64) text z ∧ (n.toNat : Int) = z % 2 ^ 64 ∧ o = .immediate n) ∧
    (∀ (s : Scope) token o, s.operand .number token = .ok o ↔
      ∃ (n : UInt64) (text : String), (token = text ∨ token = "@" ++ text) ∧
        SpellsWithin 0 (2 ^ 64) text n.toNat ∧ o = .number n) ∧
    (∀ (t : IntegerType) text,
      (∀ c, Declarations.constant t.directive text = .ok c →
        ∃ z, SpellsWithin t.low t.bound text z ∧ t.value? c = some z) ∧
      ∀ z, SpellsWithin t.low t.bound text z →
        ∃ c, Declarations.constant t.directive text = .ok c ∧ t.value? c = some z) ∧
    (∀ (s : Scope) (t : IntegerType) text cause,
      s.operand .immediate ("@" ++ text) = .error cause ∨ s.operand .number text = .error cause ∨
        Declarations.constant t.directive text = .error cause → cause.kind = .valueOutOfRange) ∧
    (∀ z : Int, |z| < 2 ^ 127 → Numeral.parse? (toString z).toList = some z) ∧
    (∀ (s : Scope) z, -2 ^ 63 ≤ z → z < 2 ^ 64 →
      s.operand .immediate ("@" ++ toString z) = .ok (.immediate (UInt64.ofInt z))) ∧
    (∀ (s : Scope) (n : UInt64), s.operand .number (toString n.toNat) = .ok (.number n)) ∧
    ∀ (t : IntegerType) z, t.low ≤ z → z < t.bound →
      ∃ c, Declarations.constant t.directive (toString z) = .ok c ∧ t.value? c = some z := by
  have hparse : ∀ text z, Numeral.parse? text = some z ↔ Numeral.Spells text z ∧ |z| < 2 ^ 127 :=
    fun text z => Numeral.parse?_eq_some_iff.trans Numeral.denotes_iff
  have hconstant : ∀ (t : IntegerType) text z, SpellsWithin t.low t.bound text z →
      ∃ c, Declarations.constant t.directive text = .ok c ∧ t.value? c = some z :=
    fun t text z h => ⟨t.constant z, constant_eq_ok_iff_spells.mpr ⟨z, h, rfl⟩,
      IntegerType.value?_constant h.2.1 h.2.2⟩
  refine ⟨hparse, Numeral.number_zeros, fun s text o => s.operand_immediate_eq_ok_iff text,
    fun s token o => s.operand_number_eq_ok_iff token, ?_, ?_, ?_, ?_, ?_, ?_⟩
  · intro t text
    refine ⟨fun c hc => ?_, hconstant t text⟩
    obtain ⟨z, hz, rfl⟩ := constant_eq_ok_iff_spells.mp hc
    exact ⟨z, hz, IntegerType.value?_constant hz.2.1 hz.2.2⟩
  · rintro s t text cause (h | h | h)
    · exact s.kind_of_value_marked text (Except.map_eq_error_iff.mp h)
    · exact Scope.kind_of_number text (Except.map_eq_error_iff.mp h)
    · exact kind_of_constant h
  · exact fun z hz => (hparse _ z).mpr ⟨Numeral.spells_toString z, hz⟩
  · intro s z hlow hhigh
    exact (s.operand_immediate_eq_ok_iff _).mpr
      ⟨_, z, spellsWithin_toString hlow hhigh, Numeral.eq_ofInt_iff.mp rfl, rfl⟩
  · intro s n
    have hlt : (n.toNat : Int) < 2 ^ 64 := by exact_mod_cast n.toNat_lt
    exact (s.operand_number_eq_ok_iff _).mpr
      ⟨n, _, .inl rfl, spellsWithin_toString (Int.natCast_nonneg _) hlt, rfl⟩
  · exact fun t z hlow hhigh => hconstant t _ z (spellsWithin_toString hlow hhigh)

/-- The least integer in range is read at the places that take it. -/
theorem literals_exact_least :
    let s : Scope := ⟨{}, {}⟩
    SpellsWithin (-2 ^ 63) (2 ^ 64) "-0X08000000000000000" (-2 ^ 63) ∧
      s.operand .immediate ("@" ++ "-0X08000000000000000") = .ok (.immediate 0x8000000000000000) ∧
      Numeral.parse? (toString (-2 ^ 63 : Int)).toList = some (-2 ^ 63) ∧
      (∃ c, Declarations.constant IntegerType.i64.directive "-0X08000000000000000" = .ok c ∧
        IntegerType.i64.value? c = some (-2 ^ 63)) ∧
      s.operand .number "-0" = .ok (.number 0) := by
  intro s
  obtain ⟨-, -, himmediate, hnumber, hconstant, -, hdecimal, -⟩ := literals_exact
  have hdigits : ∀ c ∈ '0' :: '8' :: List.replicate 15 '0', c ∈ Numeral.hexadecimalDigits := by
    simp [Numeral.hexadecimalDigits, Numeral.decimalDigits]
  have hleast : Numeral.Signs ['-'] (Numeral.number 16 ('0' :: '8' :: List.replicate 15 '0')) (-2 ^ 63) :=
    .minus (2 ^ 63)
  have hspells : Numeral.Spells "-0X08000000000000000".toList (-2 ^ 63) :=
    .hexadecimal (.inr rfl) (List.cons_ne_nil _ _) hdigits hleast
  have hzero : Numeral.Spells "-0".toList 0 :=
    .decimal (List.cons_ne_nil '0' []) (List.forall_mem_singleton.mpr List.mem_cons_self) (.minus 0)
  refine ⟨⟨hspells, by decide, by decide⟩, ?_, ?_, ?_, ?_⟩
  · exact (himmediate s _ _).mpr ⟨_, _, ⟨hspells, by decide, by decide⟩, by decide, rfl⟩
  · exact hdecimal _ (by norm_num)
  · exact (hconstant .i64 _).2 _ ⟨hspells, by decide, by decide⟩
  · exact (hnumber s _ _).mpr ⟨0, _, .inl rfl, ⟨hzero, by decide, by decide⟩, rfl⟩

/-- Zeros in front do not matter, nor does the sign of zero. -/
example : Numeral.parse? ['-', '0', '0'] = some 0 ∧ Numeral.parse? ['0', '0', '0', '7'] = some 7 := by
  decide

end Assembly

end RegisterMachine

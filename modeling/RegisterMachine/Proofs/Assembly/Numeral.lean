import Mathlib
import RegisterMachine.Numeral

namespace RegisterMachine.Numeral

/-- A row of digits to the given base, and the number that it stands for. -/
inductive Digits (base : Nat) : List Char → Nat → Prop
  | one {c : Char} {v : Nat} : Hexadecimal.digitValue? c = some v → v < base → Digits base [c] v
  | snoc {s : List Char} {n : Nat} {c : Char} {v : Nat} : Digits base s n →
      Hexadecimal.digitValue? c = some v → v < base → Digits base (s ++ [c]) (n * base + v)

/-- A literal without sign, and the number that it stands for. -/
inductive Magnitude : List Char → Nat → Prop
  | decimal {s : List Char} {n : Nat} : Digits 10 s n → Magnitude s n
  | hexadecimal {x : Char} {s : List Char} {n : Nat} : x = 'x' ∨ x = 'X' → Digits 16 s n →
      Magnitude ('0' :: x :: s) n

/-- A literal and the integer that it stands for. -/
inductive Denotes : List Char → Int → Prop
  | natural {s : List Char} {n : Nat} : Magnitude s n → n < 2 ^ 127 → Denotes s n
  | negative {s : List Char} {n : Nat} : Magnitude s n → n < 2 ^ 127 → Denotes ('-' :: s) (-n)

theorem Digits.ne_nil {base n : Nat} {s : List Char} (h : Digits base s n) : s ≠ [] := by
  cases h <;> simp

theorem Denotes.ne_nil {s : List Char} {z : Int} (h : Denotes s z) : s ≠ [] := by
  cases h with
  | natural hmagnitude =>
    cases hmagnitude with
    | decimal hdigits => exact hdigits.ne_nil
    | hexadecimal => exact List.cons_ne_nil _ _
  | negative => exact List.cons_ne_nil _ _

theorem Digits.value_lt {base n : Nat} {s : List Char} (h : Digits base s n) :
    ∀ c ∈ s, ∃ v, Hexadecimal.digitValue? c = some v ∧ v < base := by
  induction h with
  | one hv hb => simpa using ⟨_, hv, hb⟩
  | snoc _ hv hb ih =>
    intro c hc
    rcases List.mem_append.mp hc with hc | hc
    · exact ih c hc
    · cases List.mem_singleton.mp hc
      exact ⟨_, hv, hb⟩

/-- The number of the digits read so far, with one more digit behind them. -/
def pushDigit (base : Nat) (n : Option Nat) (c : Char) : Option Nat := do
  let n ← n
  let v ← Hexadecimal.digitValue? c
  if v < base then some (n * base + v) else none

theorem pushDigit_eq_some_iff {base m : Nat} {n : Option Nat} {c : Char} :
    pushDigit base n c = some m ↔
      ∃ k v, n = some k ∧ Hexadecimal.digitValue? c = some v ∧ v < base ∧ m = k * base + v := by
  cases n with
  | none => simp [pushDigit]
  | some k =>
    cases hv : Hexadecimal.digitValue? c with
    | none => simp [pushDigit, hv]
    | some v =>
      by_cases hb : v < base <;> simp [pushDigit, hv, hb, eq_comm]

theorem foldl_pushDigit_eq_some_iff {base n : Nat} {s : List Char} (hs : s ≠ []) :
    s.foldl (pushDigit base) (some 0) = some n ↔ Digits base s n := by
  induction s using List.reverseRecOn generalizing n with
  | nil => exact absurd rfl hs
  | append_singleton s c ih =>
    rw [List.foldl_append, List.foldl_cons, List.foldl_nil, pushDigit_eq_some_iff]
    constructor
    · rintro ⟨k, v, hk, hv, hb, rfl⟩
      rcases eq_or_ne s [] with rfl | hne
      · cases hk
        rw [Nat.zero_mul, Nat.zero_add]
        exact .one hv hb
      · exact .snoc ((ih hne).mp hk) hv hb
    · intro h
      generalize ht : s ++ [c] = t at h
      cases h with
      | one hv hb =>
        obtain ⟨rfl, hc⟩ := List.append_inj' (ht.trans (List.nil_append _).symm) rfl
        cases hc
        exact ⟨0, _, rfl, hv, hb, by simp⟩
      | snoc hd hv hb =>
        obtain ⟨rfl, hc⟩ := List.append_inj' ht rfl
        cases hc
        exact ⟨_, _, (ih hd.ne_nil).mpr hd, hv, hb, rfl⟩

theorem digits?_eq_some_iff {base n : Nat} {s : List Char} :
    digits? base s = some n ↔ Digits base s n := by
  rcases eq_or_ne s [] with rfl | hne
  · simp only [digits?, if_pos, reduceCtorEq, false_iff]
    exact fun h => h.ne_nil rfl
  · rw [digits?, if_neg hne]
    exact foldl_pushDigit_eq_some_iff hne

/-- The mark of a base is no decimal digit. -/
theorem not_digits_marked {x : Char} {s : List Char} {n : Nat} (hx : x = 'x' ∨ x = 'X') :
    ¬ Digits 10 ('0' :: x :: s) n := by
  intro h
  obtain ⟨v, hv, -⟩ := h.value_lt x (by simp)
  have hnone : Hexadecimal.digitValue? x = none := by rcases hx with rfl | rfl <;> decide
  simp [hnone] at hv

theorem magnitude?_eq_some_iff {n : Nat} {s : List Char} :
    magnitude? s = some n ↔ Magnitude s n := by
  have hmarked : ∀ (x : Char) (t : List Char), x = 'x' ∨ x = 'X' →
      (Digits 16 t n ↔ Magnitude ('0' :: x :: t) n) := by
    intro x t hx
    constructor
    · exact .hexadecimal hx
    · rintro (h | ⟨-, h⟩)
      · exact (not_digits_marked hx h).elim
      · exact h
  unfold magnitude?
  split
  case h_1 t => rw [digits?_eq_some_iff, hmarked 'x' t (.inl rfl)]
  case h_2 t => rw [digits?_eq_some_iff, hmarked 'X' t (.inr rfl)]
  case h_3 hx hX =>
    rw [digits?_eq_some_iff]
    constructor
    · exact .decimal
    · rintro (h | ⟨rfl | rfl, h⟩)
      · exact h
      · exact (hx _ rfl).elim
      · exact (hX _ rfl).elim

/-- No literal without sign begins with a minus sign. -/
theorem not_magnitude_minus {s : List Char} {n : Nat} : ¬ Magnitude ('-' :: s) n := by
  rintro (h | _)
  obtain ⟨v, hv, -⟩ := h.value_lt '-' (by simp)
  have hnone : Hexadecimal.digitValue? '-' = none := by decide
  simp [hnone] at hv

theorem bounded_eq_some_iff {f : Nat → Int} {z : Int} {s : List Char} :
    (match magnitude? s with
      | none => none
      | some n => if n < bound then some (f n) else none) = some z ↔
      ∃ n, Magnitude s n ∧ n < 2 ^ 127 ∧ f n = z := by
  have hbound : bound = 2 ^ 127 := by decide
  simp only [← magnitude?_eq_some_iff]
  cases magnitude? s with
  | none => simp
  | some n => simp [hbound]

/-- The literals that are read are those that denote an integer, and this integer is their value. -/
theorem parse?_eq_some_iff {z : Int} {s : List Char} : parse? s = some z ↔ Denotes s z := by
  unfold parse?
  split
  next negative digits hsplit =>
    split at hsplit
    case h_1 t =>
      cases hsplit
      refine (bounded_eq_some_iff (f := fun n => -(n : Int))).trans ?_
      constructor
      · rintro ⟨n, hn, hlt, rfl⟩
        exact .negative hn hlt
      · rintro (⟨h, -⟩ | ⟨hn, hlt⟩)
        · exact (not_magnitude_minus h).elim
        · exact ⟨_, hn, hlt, rfl⟩
    case h_2 hne =>
      cases hsplit
      refine (bounded_eq_some_iff (f := fun n => (n : Int))).trans ?_
      constructor
      · rintro ⟨n, hn, hlt, rfl⟩
        exact .natural hn hlt
      · rintro (⟨hn, hlt⟩ | ⟨-, -⟩)
        · exact ⟨_, hn, hlt, rfl⟩
        · exact (hne _ rfl).elim

theorem Denotes.unique {s : List Char} {y z : Int} (hy : Denotes s y) (hz : Denotes s z) : y = z :=
  Option.some.inj ((parse?_eq_some_iff.mpr hy).symm.trans (parse?_eq_some_iff.mpr hz))

theorem parseWithin?_eq_some_iff {low high z : Int} {s : List Char} :
    parseWithin? low high s = some z ↔ Denotes s z ∧ low ≤ z ∧ z ≤ high := by
  unfold parseWithin?
  cases hp : parse? s with
  | none =>
    have hnone : ¬ Denotes s z := fun h => by simp [parse?_eq_some_iff.mpr h] at hp
    simp [hnone]
  | some y =>
    have hy := parse?_eq_some_iff.mp hp
    by_cases hr : low ≤ y ∧ y ≤ high
    · simp only [if_pos hr, Option.some.injEq]
      constructor
      · rintro rfl
        exact ⟨hy, hr⟩
      · rintro ⟨hz, -⟩
        exact hy.unique hz
    · simp only [if_neg hr, reduceCtorEq, false_iff]
      rintro ⟨hz, hr'⟩
      exact hr (hy.unique hz ▸ hr')

/-- A value of 64 bits is read from a literal in its range, modulo `2 ^ 64`. -/
theorem quad?_eq_some_iff {n : UInt64} {s : List Char} :
    quad? s = some n ↔ ∃ z, Denotes s z ∧ -2 ^ 63 ≤ z ∧ z < 2 ^ 64 ∧ n = UInt64.ofInt z := by
  simp only [quad?, Option.map_eq_some_iff, parseWithin?_eq_some_iff]
  constructor
  · rintro ⟨z, ⟨hz, hlow, hhigh⟩, rfl⟩
    exact ⟨z, hz, hlow, Int.lt_of_le_sub_one hhigh, rfl⟩
  · rintro ⟨z, hz, hlow, hhigh, rfl⟩
    exact ⟨z, ⟨hz, hlow, Int.le_sub_one_of_lt hhigh⟩, rfl⟩

/-- Reduction modulo `2 ^ 64` leaves the numbers of 64 bits as they are. -/
theorem toNat_ofInt {z : Int} (hlow : 0 ≤ z) (hhigh : z < 2 ^ 64) :
    ((UInt64.ofInt z).toNat : Int) = z := by
  have hmod : z % 2 ^ 64 = z := Int.emod_eq_of_lt hlow hhigh
  have hlt : z.toNat < UInt64.size := by simp only [UInt64.size]; omega
  rw [UInt64.ofInt, hmod, UInt64.toNat_ofNat_of_lt' hlt]
  exact Int.toNat_of_nonneg hlow

/-- A natural number of 64 bits is read from the literals that denote it. -/
theorem index?_eq_some_iff {n : UInt64} {s : List Char} :
    index? s = some n ↔ Denotes s n.toNat := by
  simp only [index?, Option.map_eq_some_iff, parseWithin?_eq_some_iff]
  constructor
  · rintro ⟨z, ⟨hz, hlow, hhigh⟩, rfl⟩
    rwa [toNat_ofInt hlow (Int.lt_of_le_sub_one hhigh)]
  · intro h
    have hlow : (0 : Int) ≤ n.toNat := Int.natCast_nonneg _
    have hhigh : (n.toNat : Int) < 2 ^ 64 := by exact_mod_cast n.toNat_lt
    refine ⟨n.toNat, ⟨h, hlow, Int.le_sub_one_of_lt hhigh⟩, ?_⟩
    apply UInt64.toNat_inj.mp
    exact_mod_cast toNat_ofInt hlow hhigh

theorem digitValue?_digitChar {v : Nat} (h : v < 10) :
    Hexadecimal.digitValue? v.digitChar = some v := by
  have hall : ∀ v : Fin 10, Hexadecimal.digitValue? (Nat.digitChar v) = some v.val := by decide
  exact hall ⟨v, h⟩

theorem digits_toDigits (n : Nat) : Digits 10 (Nat.toDigits 10 n) n := by
  induction n using Nat.strongRecOn with
  | ind n ih =>
    rw [Nat.toDigits_eq_if (by decide)]
    split
    next hlt => exact .one (digitValue?_digitChar hlt) hlt
    next hge =>
      have hdiv : n / 10 < n := by omega
      have hmod : n % 10 < 10 := Nat.mod_lt n (by decide)
      have hsnoc := (ih (n / 10) hdiv).snoc (digitValue?_digitChar hmod) hmod
      rwa [Nat.div_add_mod'] at hsnoc

/-- A number is denoted by its decimal digits. -/
theorem denotes_toString {n : Nat} (h : n < 2 ^ 127) : Denotes (toString n).toList n := by
  rw [Nat.toString_eq_repr, Nat.toList_repr]
  exact .natural (.decimal (digits_toDigits n)) h

end RegisterMachine.Numeral

namespace RegisterMachine

/-- A sequence of bytes, first byte at the head. -/
abbrev Bytes := List UInt8

namespace Bytes

/-- The number of byte sequences of a length. -/
def count (length : Nat) : Nat := Nat.pow 256 length

/-- The `width` low-order bytes of a number, most significant byte first. -/
def ofNat : (width : Nat) → Nat → Bytes
  | 0, _ => []
  | width + 1, n => UInt8.ofNat (n / count width) :: ofNat width n

/-- The number whose big-endian digits to base 256 are the given bytes. -/
def toNat (bs : Bytes) : Nat :=
  bs.foldl (fun n b => n * 256 + b.toNat) 0

@[simp] theorem count_zero : count 0 = 1 := rfl

theorem count_succ (length : Nat) : count (length + 1) = count length * 256 := rfl

theorem count_pos (length : Nat) : 0 < count length :=
  Nat.pow_pos (by decide)

@[simp] theorem length_ofNat (width n : Nat) : (ofNat width n).length = width := by
  induction width with
  | zero => rfl
  | succ width ih => simp [ofNat, ih]

theorem foldl_toNat (bs : Bytes) (k : Nat) :
    bs.foldl (fun n b => n * 256 + b.toNat) k = k * count bs.length + toNat bs := by
  induction bs generalizing k with
  | nil => simp [toNat]
  | cons b bs ih =>
    simp only [toNat, List.foldl_cons, List.length_cons]
    rw [ih, ih (0 * 256 + b.toNat), count_succ]
    simp only [Nat.zero_mul, Nat.zero_add, Nat.add_mul]
    rw [Nat.mul_assoc, Nat.mul_comm 256, Nat.add_assoc]

theorem toNat_cons (b : UInt8) (bs : Bytes) :
    toNat (b :: bs) = b.toNat * count bs.length + toNat bs := by
  rw [toNat, List.foldl_cons, foldl_toNat, Nat.zero_mul, Nat.zero_add]

theorem toNat_append (as bs : Bytes) :
    toNat (as ++ bs) = toNat as * count bs.length + toNat bs := by
  rw [toNat, List.foldl_append, foldl_toNat]; rfl

theorem toNat_lt (bs : Bytes) : toNat bs < count bs.length := by
  induction bs with
  | nil => simp [toNat]
  | cons b bs ih =>
    rw [toNat_cons, List.length_cons, count_succ]
    have hb : b.toNat < 256 := b.toNat_lt
    have : b.toNat * count bs.length ≤ 255 * count bs.length :=
      Nat.mul_le_mul_right _ (by omega)
    omega

theorem toNat_ofNat (width n : Nat) : toNat (ofNat width n) = n % count width := by
  induction width with
  | zero => simp [ofNat, toNat, Nat.mod_one]
  | succ width ih =>
    have hb : (UInt8.ofNat (n / count width)).toNat = n / count width % 256 := UInt8.toNat_ofNat'
    rw [ofNat, toNat_cons, length_ofNat, ih, hb, count_succ, Nat.mod_mul (a := count width)]
    rw [Nat.add_comm, Nat.mul_comm]

theorem ofNat_toNat (bs : Bytes) : ofNat bs.length (toNat bs) = bs := by
  have key : ∀ (bs : Bytes) (k : Nat), ofNat bs.length (k * count bs.length + toNat bs) = bs := by
    intro bs
    induction bs with
    | nil => intro k; rfl
    | cons b bs ih =>
      intro k
      have hlt := toNat_lt bs
      have hpos : 0 < count bs.length := count_pos _
      have hsplit : k * count (bs.length + 1) + toNat (b :: bs) =
          (k * 256 + b.toNat) * count bs.length + toNat bs := by
        rw [toNat_cons, count_succ, Nat.add_mul, Nat.mul_assoc, Nat.mul_comm 256, Nat.add_assoc]
      rw [List.length_cons, hsplit, ofNat, ih]
      have hdiv : ((k * 256 + b.toNat) * count bs.length + toNat bs) / count bs.length =
          k * 256 + b.toNat := by
        rw [Nat.mul_comm, Nat.mul_add_div hpos, Nat.div_eq_of_lt hlt, Nat.add_zero]
      rw [hdiv]
      congr 1
      apply UInt8.toNat_inj.mp
      have hb : b.toNat < 256 := b.toNat_lt
      rw [UInt8.toNat_ofNat']
      omega
  simpa using key bs 0

end Bytes

end RegisterMachine

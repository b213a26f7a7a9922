import Mathlib
import RegisterMachine.Bytes
import RegisterMachine.Machine.Memory
import RegisterMachine.Numeral

namespace RegisterMachine.Checked

/-- The sum of two words. -/
def add (a b : Nat) : Option Nat :=
  if a + b < UInt64.size then some (a + b) else none

/-- The difference of two words. -/
def sub (a b : Nat) : Option Nat :=
  if b ≤ a then some (a - b) else none

/-- The negative of a number of 128 bits in two's complement. -/
def neg (z : Int) : Option Int :=
  if -(Numeral.bound : Int) ≤ -z ∧ -z < Numeral.bound then some (-z) else none

/-- The quotient of two integers, cut off toward zero. -/
def div (a b : Int64) : Option Int64 :=
  if b = 0 then none else some (a / b)

section

variable {α : Type}

/-- The entry at an index. -/
def entry (l : List α) (index : Nat) : Option α :=
  l[index]?

/-- The entries from the first index on, up to but not including the last one. -/
def slice (l : List α) (first last : Nat) : Option (List α) :=
  if first ≤ last ∧ last ≤ l.length then some ((l.take last).drop first) else none

/-- The entries with another one at an index. -/
def update (entries : Array α) (index : Nat) (a : α) : Option (Array α) :=
  if index < entries.size then some (entries.set! index a) else none

/-- The entries after they have been copied to a place of their length. -/
def copy (place l : List α) : Option (List α) :=
  if place.length = l.length then some l else none

end

/-- The number of bytes of a text in UTF-8. -/
def byteLength : List Char → Nat
  | [] => 0
  | c :: s => c.utf8Size + byteLength s

/-- The bytes of a text in UTF-8. -/
def bytes (s : List Char) : Bytes :=
  s.flatMap String.utf8EncodeChar

/-- The characters before and behind a byte, which has to lie between two characters or at an end. -/
def cut : List Char → Nat → Option (List Char × List Char)
  | s, 0 => some ([], s)
  | [], _ + 1 => none
  | c :: s, offset + 1 =>
    if c.utf8Size ≤ offset + 1 then
      (cut s (offset + 1 - c.utf8Size)).map fun (front, back) => (c :: front, back)
    else none

/-- The characters between two bytes. -/
def text (s : List Char) (first last : Nat) : Option (List Char) := do
  let (front, _) ← cut s last
  let (_, middle) ← cut front first
  return middle

section

variable {α : Type} {a b : Nat} {l l' : List α}

theorem add_of_lt (h : a + b < UInt64.size) : add a b = some (a + b) :=
  if_pos h

theorem eq_of_add {c : Nat} (h : add a b = some c) : c = a + b := by
  rw [add] at h
  split at h
  next => exact (Option.some.inj h).symm
  next => cases h

theorem sub_of_le (h : b ≤ a) : sub a b = some (a - b) :=
  if_pos h

theorem neg_of_lt {n : Nat} (h : n < Numeral.bound) : neg n = some (-(n : Int)) :=
  if_pos ⟨by omega, by omega⟩

theorem slice_of_le (h : a ≤ b) (h' : b ≤ l.length) : slice l a b = some ((l.take b).drop a) :=
  if_pos ⟨h, h'⟩

theorem slice_front (h : a ≤ l.length) : slice l 0 a = some (l.take a) :=
  slice_of_le (Nat.zero_le a) h

theorem slice_back (h : a ≤ l.length) : slice l a l.length = some (l.drop a) := by
  rw [slice_of_le h (Nat.le_refl _), List.take_length]

theorem slice_append_left (l l' : List α) : slice (l ++ l') 0 l.length = some l := by
  rw [slice_front (by simp), List.take_left]

theorem slice_append_right (l l' : List α) : slice (l ++ l') l.length (l ++ l').length = some l' := by
  rw [slice_back (by simp), List.drop_left]

theorem update_of_lt {entries : Array α} {index : Nat} (h : index < entries.size) (a : α) :
    update entries index a = some (entries.set! index a) :=
  if_pos h

theorem copy_of_length (h : l.length = l'.length) : copy l l' = some l' :=
  if_pos h

end

section

variable {s front back : List Char} {offset : Nat}

theorem byteLength_append (s t : List Char) : byteLength (s ++ t) = byteLength s + byteLength t := by
  induction s with
  | nil => exact (Nat.zero_add _).symm
  | cons c s ih => rw [List.cons_append, byteLength, byteLength, ih, Nat.add_assoc]

theorem length_bytes (s : List Char) : (bytes s).length = byteLength s := by
  induction s with
  | nil => rfl
  | cons c s ih =>
    rw [bytes, List.flatMap_cons, List.length_append, String.length_utf8EncodeChar, byteLength, ← ih]
    rfl

theorem cut_append (front back : List Char) :
    cut (front ++ back) (byteLength front) = some (front, back) := by
  induction front with
  | nil =>
    rw [byteLength, List.nil_append]
    cases back <;> rfl
  | cons c front ih =>
    have hsize : 0 < c.utf8Size := c.utf8Size_pos
    obtain ⟨n, hn⟩ := Nat.exists_eq_add_one_of_ne_zero (n := byteLength (c :: front)) (by
      rw [byteLength]
      omega)
    have hle : c.utf8Size ≤ n + 1 := by
      rw [byteLength] at hn
      omega
    have hrest : n + 1 - c.utf8Size = byteLength front := by
      rw [byteLength] at hn
      omega
    rw [hn, List.cons_append, cut, if_pos hle, hrest, ih]
    rfl

/-- A byte lies between two characters if and only if there are as many bytes as in some of the
characters at the front. -/
theorem cut_eq_some_iff : cut s offset = some (front, back) ↔
    s = front ++ back ∧ offset = byteLength front := by
  constructor
  · intro h
    induction s generalizing offset front with
    | nil =>
      cases offset with
      | zero =>
        obtain ⟨rfl, rfl⟩ := Prod.mk.inj (Option.some.inj h)
        exact ⟨rfl, rfl⟩
      | succ n => cases h
    | cons c s ih =>
      cases offset with
      | zero =>
        obtain ⟨rfl, rfl⟩ := Prod.mk.inj (Option.some.inj h)
        exact ⟨rfl, rfl⟩
      | succ n =>
        rw [cut] at h
        split at h
        next hle =>
          obtain ⟨⟨front', back'⟩, hcut, hpair⟩ := Option.map_eq_some_iff.mp h
          obtain ⟨rfl, rfl⟩ := Prod.mk.inj hpair
          obtain ⟨rfl, hrest⟩ := ih hcut
          refine ⟨rfl, ?_⟩
          rw [byteLength]
          omega
        next => cases h
  · rintro ⟨rfl, rfl⟩
    exact cut_append front back

theorem text_append (front middle back : List Char) :
    text (front ++ middle ++ back) (byteLength front) (byteLength (front ++ middle)) = some middle := by
  rw [text, cut_append (front ++ middle) back]
  simp only [Option.bind_eq_bind, Option.bind_some, cut_append, Option.pure_def]

theorem text_front (front back : List Char) :
    text (front ++ back) 0 (byteLength front) = some front :=
  text_append [] front back

theorem text_back (front back : List Char) :
    text (front ++ back) (byteLength front) (byteLength (front ++ back)) = some back := by
  have h := text_append front back []
  rwa [List.append_nil] at h

end

end RegisterMachine.Checked

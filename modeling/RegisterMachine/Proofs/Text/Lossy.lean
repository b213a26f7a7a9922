import Mathlib
import RegisterMachine.Bytes
import RegisterMachine.Text.Lossy

namespace RegisterMachine.Text

theorem toUTF8_ofList (s : List Char) :
    (String.ofList s).toUTF8.data.toList = s.flatMap String.utf8EncodeChar := by
  rw [String.toUTF8_eq_toByteArray, String.toByteArray_ofList, List.utf8Encode,
    List.toList_data_toByteArray]

section

variable {b d : Nat}

theorem nextByte_one (h : b < 0x80) : nextByte none b = ([Char.ofNat b], none) :=
  if_pos h

theorem nextByte_two (hlow : 0xC2 ≤ b) (hhigh : b ≤ 0xDF) :
    nextByte none b = ([], some ⟨b - 0xC0, 1, 0x80, 0xBF⟩) := by
  rw [nextByte, firstByte, if_neg (by omega), if_pos ⟨hlow, hhigh⟩]

/-- The first of three bytes. What the second one may be rules out numbers that need fewer bytes, and
surrogates. -/
theorem nextByte_three (hlow : 0xE0 ≤ b) (hhigh : b ≤ 0xEF) (htail : 0x80 ≤ d ∧ d ≤ 0xBF)
    (hlong : b = 0xE0 → 0xA0 ≤ d) (hsurrogate : b = 0xED → d ≤ 0x9F) :
    ∃ low high, nextByte none b = ([], some ⟨b - 0xE0, 2, low, high⟩) ∧ low ≤ d ∧ d ≤ high := by
  rw [nextByte, firstByte, if_neg (by omega), if_neg (by omega)]
  by_cases hfirst : b = 0xE0
  · exact ⟨0xA0, 0xBF, by rw [if_pos hfirst, hfirst], hlong hfirst, htail.2⟩
  rw [if_neg hfirst]
  by_cases hmiddle : b = 0xED
  · exact ⟨0x80, 0x9F, by rw [if_pos hmiddle, hmiddle], htail.1, hsurrogate hmiddle⟩
  rw [if_neg hmiddle, if_pos (by omega)]
  exact ⟨0x80, 0xBF, rfl, htail⟩

/-- The first of four bytes. What the second one may be rules out numbers that need fewer bytes, and those
above all characters. -/
theorem nextByte_four (hlow : 0xF0 ≤ b) (hhigh : b ≤ 0xF4) (htail : 0x80 ≤ d ∧ d ≤ 0xBF)
    (hlong : b = 0xF0 → 0x90 ≤ d) (hbound : b = 0xF4 → d ≤ 0x8F) :
    ∃ low high, nextByte none b = ([], some ⟨b - 0xF0, 3, low, high⟩) ∧ low ≤ d ∧ d ≤ high := by
  rw [nextByte, firstByte, if_neg (by omega), if_neg (by omega), if_neg (by omega), if_neg (by omega),
    if_neg (by omega)]
  by_cases hfirst : b = 0xF0
  · exact ⟨0x90, 0xBF, by rw [if_pos hfirst, hfirst], hlong hfirst, htail.2⟩
  rw [if_neg hfirst]
  by_cases hlast : b = 0xF4
  · exact ⟨0x80, 0x8F, by rw [if_neg (by omega), if_pos hlast, hlast], htail.1, hbound hlast⟩
  rw [if_pos (by omega)]
  exact ⟨0x80, 0xBF, rfl, htail⟩

end

section

variable {bits n low high b : Nat}

/-- A byte that is not the last one leaves the character begun, with six bits more. -/
theorem nextByte_tail (hlow : low ≤ b) (hhigh : b ≤ high) :
    nextByte (some ⟨bits, n + 2, low, high⟩) b =
      ([], some ⟨bits * 64 + (b - 0x80), n + 1, 0x80, 0xBF⟩) := by
  simp only [nextByte, if_pos (And.intro hlow hhigh)]
  rw [if_neg (by omega)]
  rfl

theorem nextByte_last (hlow : low ≤ b) (hhigh : b ≤ high) :
    nextByte (some ⟨bits, 1, low, high⟩) b = ([Char.ofNat (bits * 64 + (b - 0x80))], none) := by
  simp only [nextByte, if_pos (And.intro hlow hhigh)]
  rfl

end

theorem ofBytesFrom_cons {begun begun' : Option Partial} {b : Nat} {text : List Char} (hb : b < 256)
    (h : nextByte begun b = (text, begun')) (rest : List UInt8) :
    ofBytesFrom begun (UInt8.ofNat b :: rest) = text ++ ofBytesFrom begun' rest := by
  rw [ofBytesFrom, UInt8.toNat_ofNat_of_lt' hb, h]

/-- The bytes of a character are read as the character. -/
theorem ofBytesFrom_utf8EncodeChar (c : Char) (rest : List UInt8) :
    ofBytesFrom none (String.utf8EncodeChar c ++ rest) = c :: ofBytesFrom none rest := by
  have hvalid : c.val.toNat < 0xD800 ∨ 0xDFFF < c.val.toNat ∧ c.val.toNat < 0x110000 := c.valid
  have hchar : ∀ n : Nat, n = c.val.toNat →
      [Char.ofNat n] ++ ofBytesFrom none rest = c :: ofBytesFrom none rest := by
    rintro n rfl
    rw [← Char.toNat, Char.ofNat_toNat]
    rfl
  rw [String.utf8EncodeChar]
  -- One case for each number of bytes; the bits of the bytes are those of the number.
  generalize c.val.toNat = v at hvalid hchar
  split
  next =>
    refine (ofBytesFrom_cons (by omega) (nextByte_one (by omega)) rest).trans ?_
    exact hchar _ rfl
  split
  next =>
    refine (ofBytesFrom_cons (by omega) (nextByte_two (by omega) (by omega)) _).trans ?_
    refine (ofBytesFrom_cons (by omega) (nextByte_last (by omega) (by omega)) _).trans ?_
    exact hchar _ (by omega)
  split
  next =>
    obtain ⟨low, high, hfirst, hlow, hhigh⟩ := nextByte_three (b := v / 4096 % 16 + 0xE0)
      (d := v / 64 % 64 + 0x80) (by omega) (by omega) (by omega) (by omega) (by omega)
    refine (ofBytesFrom_cons (by omega) hfirst _).trans ?_
    refine (ofBytesFrom_cons (by omega) (nextByte_tail (n := 0) hlow hhigh) _).trans ?_
    refine (ofBytesFrom_cons (by omega) (nextByte_last (by omega) (by omega)) _).trans ?_
    exact hchar _ (by omega)
  next =>
    obtain ⟨low, high, hfirst, hlow, hhigh⟩ := nextByte_four (b := v / 262144 % 8 + 0xF0)
      (d := v / 4096 % 64 + 0x80) (by omega) (by omega) (by omega) (by omega) (by omega)
    refine (ofBytesFrom_cons (by omega) hfirst _).trans ?_
    refine (ofBytesFrom_cons (by omega) (nextByte_tail (n := 1) hlow hhigh) _).trans ?_
    refine (ofBytesFrom_cons (by omega) (nextByte_tail (n := 0) (by omega) (by omega)) _).trans ?_
    refine (ofBytesFrom_cons (by omega) (nextByte_last (by omega) (by omega)) _).trans ?_
    exact hchar _ (by omega)

/-- The bytes of a text are read as the text. -/
theorem ofBytesLossy_toUTF8 (s : String) : ofBytesLossy s.toUTF8.data.toList = s := by
  have hchars : ∀ chars : List Char, ofBytesFrom none (chars.flatMap String.utf8EncodeChar) = chars := by
    intro chars
    induction chars with
    | nil => rfl
    | cons c chars ih => rw [List.flatMap_cons, ofBytesFrom_utf8EncodeChar, ih]
  conv_lhs => rw [← String.ofList_toList (s := s)]
  rw [ofBytesLossy, toUTF8_ofList, hchars, String.ofList_toList]

end RegisterMachine.Text

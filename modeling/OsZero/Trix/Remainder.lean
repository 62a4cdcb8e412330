import Mathlib.Data.BitVec

set_option autoImplicit false

namespace OsZero.Trix

-- A sum of the digits to base 2 ^ n; mask has n bits.
def digits (n : Nat) (mask a : BitVec 32) : BitVec 32 := (a >>> n) + (a &&& mask)

-- The returns at the end of the three routines.
def subtracted (m a : BitVec 32) : BitVec 32 := if a < m then a else if a < 2 * m then a - m else a - 2 * m

def mod15u32 (a : BitVec 32) : BitVec 32 := subtracted 15 (digits 4 0xf (digits 8 0xff (digits 16 0xffff a)))

def mod255u32 (a : BitVec 32) : BitVec 32 := subtracted 255 (digits 8 0xff (digits 16 0xffff a))

def mod65535u32 (a : BitVec 32) : BitVec 32 := subtracted 65535 (digits 16 0xffff a)

-- k, p and s are ints, and the shift of k keeps its sign.
def mprimod (k p : BitVec 32) (s : Nat) : BitVec 32 :=
  let i := (k &&& p) + k.sshiftRight s
  if p.sle i then i - p else i

theorem digits_toNat (n : Nat) (a : BitVec 32) (low : n < 32) :
    (digits n (BitVec.ofNat 32 (2 ^ n - 1)) a).toNat = a.toNat / 2 ^ n + a.toNat % 2 ^ n := by
  have word := a.isLt
  have base : 2 ^ n < 2 ^ 32 := Nat.pow_lt_pow_right (by decide) low
  have fits : a.toNat / 2 ^ n + a.toNat % 2 ^ n < 2 ^ 32 := by
    have whole := Nat.div_add_mod a.toNat (2 ^ n)
    have less : a.toNat / 2 ^ n ≤ 2 ^ n * (a.toNat / 2 ^ n) := Nat.le_mul_of_pos_left _ (Nat.two_pow_pos n)
    omega
  rw [digits, BitVec.toNat_add, BitVec.toNat_ushiftRight, BitVec.toNat_and, BitVec.toNat_ofNat,
    Nat.mod_eq_of_lt (show 2 ^ n - 1 < 2 ^ 32 by omega), Nat.shiftRight_eq_div_pow, Nat.and_two_pow_sub_one_eq_mod, Nat.mod_eq_of_lt fits]

-- Two subtractions are enough below three times the modulus.
theorem subtracted_iff (m a : BitVec 32) (n : Nat) (value : m.toNat = n) (positive : 0 < n) (low : 2 * n < 4294967296) :
    (subtracted m a).toNat = a.toNat % n ↔ a.toNat < 3 * n := by
  subst value
  have word := a.isLt
  have double : (2 * m).toNat = 2 * m.toNat := by
    rw [BitVec.toNat_mul, Nat.mod_eq_of_lt]
    · rfl
    · exact low
  have remains := Nat.mod_lt a.toNat positive
  simp only [subtracted, BitVec.lt_def, double]
  split_ifs with one two
  · rw [Nat.mod_eq_of_lt one]
    omega
  · rw [BitVec.toNat_sub_of_le (BitVec.le_def.mpr (by omega)), Nat.mod_eq_sub_mod (by omega), Nat.mod_eq_of_lt (by omega)]
    omega
  · rw [BitVec.toNat_sub_of_le (BitVec.le_def.mpr (by omega)), double]
    constructor
    · intro same
      omega
    · intro three
      rw [Nat.mod_eq_sub_mod (by omega), Nat.mod_eq_sub_mod (by omega), Nat.mod_eq_of_lt (by omega)]
      omega

section Digits

variable (a : BitVec 32)

theorem halves_toNat : (digits 16 0xffff a).toNat = a.toNat / 65536 + a.toNat % 65536 := digits_toNat 16 a (by decide)

theorem bytes_toNat : (digits 8 0xff a).toNat = a.toNat / 256 + a.toNat % 256 := digits_toNat 8 a (by decide)

theorem nibbles_toNat : (digits 4 0xf a).toNat = a.toNat / 16 + a.toNat % 16 := digits_toNat 4 a (by decide)

end Digits

def byte (n : Nat) (a : BitVec 32) : Nat := a.toNat / 256 ^ n % 256

-- The sum of the bytes as the second round leaves it: a carry out of the lower half counts one there.
def bytesum (a : BitVec 32) : Nat :=
  byte 0 a + byte 1 a + byte 2 a + byte 3 a - 255 * ((byte 0 a + byte 2 a) / 256)

theorem byte_small (n : Nat) (a : BitVec 32) : byte n a < 256 := Nat.mod_lt _ (by decide)

theorem toNat_halves (a : BitVec 32) :
    a.toNat / 65536 = byte 2 a + 256 * byte 3 a ∧ a.toNat % 65536 = byte 0 a + 256 * byte 1 a := by
  have word := a.isLt
  simp only [byte, Nat.reducePow, Nat.div_one]
  omega

theorem bytesum_toNat (a : BitVec 32) : (digits 8 0xff (digits 16 0xffff a)).toNat = bytesum a := by
  obtain ⟨high, low⟩ := toNat_halves a
  have first := byte_small 0 a
  have second := byte_small 1 a
  have third := byte_small 2 a
  rw [bytes_toNat, halves_toNat, high, low, bytesum]
  omega

theorem mod15u32_iff (a : BitVec 32) : (mod15u32 a).toNat = a.toNat % 15 ↔ bytesum a / 16 + bytesum a % 16 < 45 := by
  have folded : (digits 4 0xf (digits 8 0xff (digits 16 0xffff a))).toNat % 15 = a.toNat % 15 := by
    rw [nibbles_toNat, bytes_toNat, halves_toNat]
    omega
  rw [mod15u32, ← folded, subtracted_iff 15 _ 15 rfl (by decide) (by decide), nibbles_toNat, bytesum_toNat]

theorem mod255u32_iff (a : BitVec 32) : (mod255u32 a).toNat = a.toNat % 255 ↔
    ¬ (byte 3 a = 255 ∧ byte 1 a = 255 ∧ (byte 2 a + byte 0 a = 255 ∨ byte 2 a + byte 0 a = 510)) := by
  have folded : (digits 8 0xff (digits 16 0xffff a)).toNat % 255 = a.toNat % 255 := by
    rw [bytes_toNat, halves_toNat]
    omega
  have first := byte_small 0 a
  have second := byte_small 1 a
  have third := byte_small 2 a
  have fourth := byte_small 3 a
  rw [mod255u32, ← folded, subtracted_iff 255 _ 255 rfl (by decide) (by decide), bytesum_toNat, bytesum]
  omega

theorem mod65535u32_mod (a : BitVec 32) : (mod65535u32 a).toNat = a.toNat % 65535 := by
  have word := a.isLt
  have folded : (digits 16 0xffff a).toNat % 65535 = a.toNat % 65535 := by
    rw [halves_toNat]
    omega
  rw [mod65535u32, ← folded, subtracted_iff 65535 _ 65535 rfl (by decide) (by decide), halves_toNat]
  omega

-- A number of two digits of the base q, with one subtraction of q - 1.
theorem two_digits (q high low : Nat) (base : 2 ≤ q) (highDigit : high < q) (lowDigit : low < q) :
    (if q - 1 ≤ low + high then low + high - (q - 1) else low + high) = (q * high + low) % (q - 1) ↔ q * high + low ≠ q * q - 1 := by
  have square : q * q - 1 = q * (q - 1) + (q - 1) := by
    obtain ⟨p, rfl⟩ := Nat.exists_eq_add_of_le' (Nat.le_of_succ_le base)
    rw [Nat.add_sub_cancel, Nat.mul_add, Nat.mul_one, ← Nat.add_assoc, Nat.add_sub_cancel]
  have digit : q * high + low = (q - 1) * high + (low + high) := by
    rw [Nat.sub_mul, Nat.one_mul]
    have less : high ≤ q * high := Nat.le_mul_of_pos_left _ (by omega)
    omega
  have top : q * high + low = q * (q - 1) + (q - 1) ↔ high = q - 1 ∧ low = q - 1 := by
    constructor
    · intro same
      rcases Nat.lt_or_ge high (q - 1) with less | most
      · have before : q * (high + 1) ≤ q * (q - 1) := Nat.mul_le_mul_left q less
        rw [Nat.mul_add, Nat.mul_one] at before
        omega
      · have last : high = q - 1 := by omega
        rw [last] at same
        exact ⟨last, Nat.add_left_cancel same⟩
    · rintro ⟨rfl, rfl⟩
      rfl
  rw [Ne, square, top, digit, Nat.mul_add_mod]
  have remains := Nat.mod_lt (low + high) (show 0 < q - 1 by omega)
  split_ifs with large
  · rw [Nat.mod_eq_sub_mod large]
    rcases Nat.lt_or_ge (low + high - (q - 1)) (q - 1) with less | twice
    · rw [Nat.mod_eq_of_lt less]
      omega
    · rw [show low + high - (q - 1) = q - 1 by omega, Nat.mod_self]
      omega
  · rw [Nat.mod_eq_of_lt (Nat.lt_of_not_le large)]
    omega

theorem mprimod_toNat (s k : Nat) (low : 2 ≤ s) (high : s ≤ 15) (digitsTwo : k < 2 ^ (2 * s)) :
    (mprimod (BitVec.ofNat 32 k) (BitVec.ofNat 32 (2 ^ s - 1)) s).toNat =
      if 2 ^ s - 1 ≤ k % 2 ^ s + k / 2 ^ s then k % 2 ^ s + k / 2 ^ s - (2 ^ s - 1) else k % 2 ^ s + k / 2 ^ s := by
  have base : 2 ^ s ≤ 2 ^ 15 := Nat.pow_le_pow_right (by decide) high
  have square : 2 ^ (2 * s) = 2 ^ s * 2 ^ s := by rw [Nat.two_mul, Nat.pow_add]
  have small : 2 ^ (2 * s) ≤ 2 ^ 30 := Nat.pow_le_pow_right (by decide) (by omega)
  have quotient : k / 2 ^ s < 2 ^ s := Nat.div_lt_of_lt_mul (square ▸ digitsTwo)
  have remainder : k % 2 ^ s < 2 ^ s := Nat.mod_lt _ (Nat.two_pow_pos s)
  have below : k % 2 ^ s + k / 2 ^ s < 2 ^ 15 + 2 ^ 15 := by omega
  have kWord : (BitVec.ofNat 32 k).toNat = k := by
    rw [BitVec.toNat_ofNat]
    omega
  have pWord : (BitVec.ofNat 32 (2 ^ s - 1)).toNat = 2 ^ s - 1 := by
    rw [BitVec.toNat_ofNat]
    omega
  have sign : (BitVec.ofNat 32 k).msb = false := by
    rw [BitVec.msb_eq_decide, kWord, decide_eq_false_iff_not]
    omega
  have i : ((BitVec.ofNat 32 k &&& BitVec.ofNat 32 (2 ^ s - 1)) + (BitVec.ofNat 32 k).sshiftRight s).toNat = k % 2 ^ s + k / 2 ^ s := by
    rw [BitVec.toNat_add, BitVec.toNat_and, kWord, pWord, Nat.and_two_pow_sub_one_eq_mod, BitVec.sshiftRight_eq_of_msb_false sign,
      BitVec.toNat_ushiftRight, kWord, Nat.shiftRight_eq_div_pow, Nat.mod_eq_of_lt (Nat.lt_of_lt_of_le below (by decide))]
  rw [mprimod]
  generalize (BitVec.ofNat 32 k &&& BitVec.ofNat 32 (2 ^ s - 1)) + (BitVec.ofNat 32 k).sshiftRight s = sum at i ⊢
  have order : (BitVec.ofNat 32 (2 ^ s - 1)).sle sum = decide (2 ^ s - 1 ≤ sum.toNat) := by
    rw [BitVec.sle_eq_decide, BitVec.toInt_eq_toNat_of_lt (by omega), BitVec.toInt_eq_toNat_of_lt (by omega), pWord]
    exact decide_eq_decide.mpr Int.ofNat_le
  rw [← i, order]
  simp only [decide_eq_true_eq]
  split_ifs with large
  · rw [BitVec.toNat_sub_of_le (BitVec.le_def.mpr (by rw [pWord]; exact large)), pWord]
  · rfl

theorem mprimod_iff (s k : Nat) (low : 2 ≤ s) (high : s ≤ 15) (digitsTwo : k < 2 ^ (2 * s)) :
    (mprimod (BitVec.ofNat 32 k) (BitVec.ofNat 32 (2 ^ s - 1)) s).toNat = k % (2 ^ s - 1) ↔ k ≠ 2 ^ (2 * s) - 1 := by
  have square : 2 ^ (2 * s) = 2 ^ s * 2 ^ s := by rw [Nat.two_mul, Nat.pow_add]
  have base : 2 ≤ 2 ^ s := Nat.pow_le_pow_right (by decide : 0 < 2) (show 1 ≤ s by omega)
  rw [mprimod_toNat s k low high digitsTwo]
  have both := two_digits (2 ^ s) (k / 2 ^ s) (k % 2 ^ s) base (Nat.div_lt_of_lt_mul (square ▸ digitsTwo)) (Nat.mod_lt _ (Nat.two_pow_pos s))
  rw [Nat.div_add_mod, ← square] at both
  exact both

theorem remainders_iff (a : BitVec 32) (s k : Nat) (low : 2 ≤ s) (high : s ≤ 15) (range : k < 2 ^ (2 * s)) :
    ((mod15u32 a).toNat = a.toNat % 15 ↔ bytesum a / 16 + bytesum a % 16 < 45) ∧
      ((mod255u32 a).toNat = a.toNat % 255 ↔
        ¬ (byte 3 a = 255 ∧ byte 1 a = 255 ∧ (byte 2 a + byte 0 a = 255 ∨ byte 2 a + byte 0 a = 510))) ∧
      (mod65535u32 a).toNat = a.toNat % 65535 ∧
      ((mprimod (BitVec.ofNat 32 k) (BitVec.ofNat 32 (2 ^ s - 1)) s).toNat = k % (2 ^ s - 1) ↔ k ≠ 2 ^ (2 * s) - 1) := by
  exact ⟨mod15u32_iff a, mod255u32_iff a, mod65535u32_mod a, mprimod_iff s k low high range⟩

theorem remainders_thirty_one : (mprimod 961 31 5).toNat = 0 := by
  have exactly := (remainders_iff 0 5 961 (by decide) (by decide) (by decide)).2.2.2
  exact exactly.mpr (by decide)

theorem remainders_wrong : (mod15u32 0xfffff100).toNat ≠ 0xfffff100 % 15 ∧ (mod255u32 0xffffffff).toNat ≠ 0xffffffff % 255 ∧
    (mprimod 15 3 2).toNat ≠ 15 % 3 := by decide

end OsZero.Trix

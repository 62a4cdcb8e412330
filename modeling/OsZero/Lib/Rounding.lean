import Mathlib.Algebra.Group.Nat.Defs

set_option autoImplicit false

namespace Rounding

variable {w : Nat}

-- Masking with the high bits takes a word down to a multiple of a power of two.
theorem and_high_eq (word : BitVec w) (k : Nat) : word &&& (BitVec.allOnes w <<< k) = (word >>> k) <<< k := by
  ext i inside
  simp only [BitVec.getElem_and, BitVec.getElem_shiftLeft, BitVec.getElem_allOnes]
  by_cases low : i < k
  · simp [low]
  · have place : k + (i - k) = i := by omega
    simp [low, place, inside]

theorem toNat_high (word : BitVec w) (k : Nat) : (word &&& (BitVec.allOnes w <<< k)).toNat = word.toNat / 2 ^ k * 2 ^ k := by
  have bound : word.toNat / 2 ^ k * 2 ^ k < 2 ^ w := Nat.lt_of_le_of_lt (Nat.div_mul_le_self _ _) word.isLt
  rw [and_high_eq, BitVec.toNat_shiftLeft, BitVec.toNat_ushiftRight, Nat.shiftRight_eq_div_pow, Nat.shiftLeft_eq, Nat.mod_eq_of_lt bound]

end Rounding

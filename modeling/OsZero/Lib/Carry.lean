import Mathlib.Algebra.Group.Nat.Defs
import Mathlib.Data.BitVec

set_option autoImplicit false

namespace Carry

-- The sum of two numbers of w bits with the carry added at the low end.
def around (w : Nat) (x y : BitVec w) : BitVec w := BitVec.ofNat w ((x.toNat + y.toNat) % 2 ^ w + (x.toNat + y.toNat) / 2 ^ w)

def carrysum (w : Nat) : List (BitVec w) → BitVec w
  | [] => 0
  | x :: xs => around w x (carrysum w xs)

def total (w : Nat) : List (BitVec w) → Nat
  | [] => 0
  | x :: xs => x.toNat + total w xs

-- Equal modulo m, where zero is told from the other multiples of m.
def Same (m x y : Nat) : Prop := x % m = y % m ∧ (x = 0 ↔ y = 0)

section Numbers

variable {m x y z : Nat}

theorem same_refl (m x : Nat) : Same m x x := ⟨rfl, Iff.rfl⟩

theorem same_symm (same : Same m x y) : Same m y x := ⟨same.1.symm, same.2.symm⟩

theorem same_trans (first : Same m x y) (second : Same m y z) : Same m x z := ⟨first.1.trans second.1, first.2.trans second.2⟩

theorem same_add {x' y' : Nat} (first : Same m x y) (second : Same m x' y') : Same m (x + x') (y + y') := by
  constructor
  · rw [Nat.add_mod, first.1, second.1, ← Nat.add_mod]
  · rw [Nat.add_eq_zero_iff, Nat.add_eq_zero_iff, first.2, second.2]

theorem same_add_left (z : Nat) (same : Same m x y) : Same m (z + x) (z + y) := same_add (same_refl m z) same

theorem same_add_right (z : Nat) (same : Same m x y) : Same m (x + z) (y + z) := same_add same (same_refl m z)

-- A carry of weight b counts as one.
theorem same_carry (b : Nat) (one : b % m = 1 % m) (positive : 0 < b) (low high : Nat) : Same m (low + high) (low + b * high) := by
  constructor
  · rw [Nat.add_mod, Nat.add_mod low, Nat.mul_mod, one, ← Nat.mul_mod, Nat.one_mul]
  · rw [Nat.add_eq_zero_iff, Nat.add_eq_zero_iff, Nat.mul_eq_zero]
    constructor
    · rintro ⟨none, nohigh⟩
      exact ⟨none, .inr nohigh⟩
    · rintro ⟨none, zero | nohigh⟩
      · omega
      · exact ⟨none, nohigh⟩

theorem same_halves (b : Nat) (one : b % m = 1 % m) (positive : 0 < b) (x : Nat) : Same m (x % b + x / b) x := by
  have whole := same_carry b one positive (x % b) (x / b)
  rwa [Nat.mod_add_div] at whole

-- Below m + 1 there is one number of each kind.
theorem same_unique (small : x ≤ m) (other : y ≤ m) (same : Same m x y) : x = y := by
  obtain ⟨residue, zero⟩ := same
  by_cases atx : x = m
  · by_cases aty : y = m
    · omega
    · rw [atx, Nat.mod_self, Nat.mod_eq_of_lt (by omega)] at residue
      omega
  · by_cases aty : y = m
    · rw [aty, Nat.mod_self, Nat.mod_eq_of_lt (by omega)] at residue
      omega
    · rwa [Nat.mod_eq_of_lt (by omega), Nat.mod_eq_of_lt (by omega)] at residue

end Numbers

section Words

variable {w m : Nat}

theorem around_toNat (x y : BitVec w) : (around w x y).toNat = (x.toNat + y.toNat) % 2 ^ w + (x.toNat + y.toNat) / 2 ^ w := by
  have first := x.isLt
  have second := y.isLt
  rw [around, BitVec.toNat_ofNat]
  apply Nat.mod_eq_of_lt
  by_cases carry : x.toNat + y.toNat < 2 ^ w
  · rw [Nat.mod_eq_of_lt carry, Nat.div_eq_of_lt carry]
    exact carry
  · have quotient : (x.toNat + y.toNat) / 2 ^ w = 1 := Nat.div_eq_of_lt_le (by omega) (by omega)
    have rest := Nat.mod_add_div (x.toNat + y.toNat) (2 ^ w)
    rw [quotient] at rest ⊢
    omega

theorem around_same (one : 2 ^ w % m = 1 % m) (x y : BitVec w) : Same m (around w x y).toNat (x.toNat + y.toNat) := by
  rw [around_toNat]
  exact same_halves _ one (Nat.two_pow_pos w) _

-- The carry found by comparing the sum with a summand.
theorem around_compare (x y : BitVec w) : (if x + y < y then x + y + 1 else x + y) = around w x y := by
  have first := x.isLt
  have second := y.isLt
  apply BitVec.eq_of_toNat_eq
  rw [around_toNat]
  by_cases carry : x.toNat + y.toNat < 2 ^ w
  · have sum : (x + y).toNat = x.toNat + y.toNat := by rw [BitVec.toNat_add, Nat.mod_eq_of_lt carry]
    rw [if_neg (by rw [BitVec.lt_def, sum]; omega), sum, Nat.mod_eq_of_lt carry, Nat.div_eq_of_lt carry, Nat.add_zero]
  · have quotient : (x.toNat + y.toNat) / 2 ^ w = 1 := Nat.div_eq_of_lt_le (by omega) (by omega)
    have rest := Nat.mod_add_div (x.toNat + y.toNat) (2 ^ w)
    rw [quotient, Nat.mul_one] at rest
    have sum : (x + y).toNat = (x.toNat + y.toNat) % 2 ^ w := BitVec.toNat_add ..
    have bit : (1 : BitVec w).toNat = 1 := by
      rw [show (1 : BitVec w) = BitVec.ofNat w 1 from rfl, BitVec.toNat_ofNat]
      exact Nat.mod_eq_of_lt (by omega)
    rw [if_pos (by rw [BitVec.lt_def, sum]; omega), BitVec.toNat_add, bit, sum, quotient]
    exact Nat.mod_eq_of_lt (by omega)

theorem carrysum_same (one : 2 ^ w % m = 1 % m) (xs : List (BitVec w)) : Same m (carrysum w xs).toNat (total w xs) := by
  induction xs with
  | nil => exact same_refl m 0
  | cons x xs ih => exact same_trans (around_same one x _) (same_add_left x.toNat ih)

theorem word_unique (x y : BitVec w) (same : Same (2 ^ w - 1) x.toNat y.toNat) : x = y := by
  have first := x.isLt
  have second := y.isLt
  exact BitVec.eq_of_toNat_eq (same_unique (by omega) (by omega) same)

end Words

end Carry

import Mathlib.Algebra.Group.Nat.Defs
import Mathlib.Data.Nat.Log
import Mathlib.Logic.Basic
import Mathlib.Tactic.ByContra

set_option autoImplicit false

namespace Magic

-- Division by d as a product with a multiplier that is a fixed-point reciprocal of
-- d, rounded up. A power of two D is the point's place, and e is what rounding adds.

theorem roundup_div (n m d e D : Nat) (product : m * d = D + e) (small : n * e < D) : n * m / D = n / d := by
  have positive : 0 < d := by
    rcases Nat.eq_zero_or_pos d with zero | positive
    · rw [zero, Nat.mul_zero] at product
      omega
    · exact positive
  have scaled : n * m * d = n * D + n * e := by rw [Nat.mul_assoc, product, Nat.mul_add]
  apply Nat.div_eq_of_lt_le
  · apply Nat.le_of_mul_le_mul_right _ positive
    calc n / d * D * d = n / d * d * D := Nat.mul_right_comm _ _ _
      _ ≤ n * D := Nat.mul_le_mul_right D (Nat.div_mul_le_self n d)
      _ ≤ n * m * d := by omega
  · apply Nat.lt_of_mul_lt_mul_right (a := d)
    have next : n + 1 ≤ (n / d + 1) * d := by
      have parts := Nat.div_add_mod n d
      have less := Nat.mod_lt n positive
      rw [Nat.add_mul, Nat.one_mul, Nat.mul_comm]
      omega
    calc n * m * d < (n + 1) * D := by rw [scaled, Nat.add_mul, Nat.one_mul]; omega
      _ ≤ (n / d + 1) * d * D := Nat.mul_le_mul_right D next
      _ = (n / d + 1) * D * d := Nat.mul_right_comm _ _ _

-- The multiplier after the quotient of D: rounding up by what the remainder lacks.
theorem next_mul (D d : Nat) (positive : 0 < d) : (D / d + 1) * d = D + (d - D % d) := by
  have parts := Nat.div_add_mod D d
  have less := Nat.mod_lt D positive
  rw [Nat.add_mul, Nat.one_mul, Nat.mul_comm]
  omega

theorem next_div (n D d : Nat) (positive : 0 < d) (small : n * (d - D % d) < D) : n * (D / d + 1) / D = n / d :=
  roundup_div n (D / d + 1) d (d - D % d) D (next_mul D d positive) small

-- One bit more of the reciprocal, taken from the quotient and the remainder at hand.
theorem double_div (D d : Nat) (positive : 0 < d) :
    2 * D / d = 2 * (D / d) + if d ≤ 2 * (D % d) then 1 else 0 := by
  have parts := Nat.div_add_mod D d
  have less := Nat.mod_lt D positive
  have split : 2 * D = d * (2 * (D / d)) + 2 * (D % d) := by
    rw [Nat.mul_left_comm, ← Nat.mul_add, parts]
  rw [split, Nat.mul_add_div positive]
  by_cases carry : d ≤ 2 * (D % d)
  · have once : 2 * (D % d) / d = 1 := Nat.div_eq_of_lt_le (by omega) (by omega)
    rw [if_pos carry, once]
  · have none : 2 * (D % d) / d = 0 := Nat.div_eq_of_lt (by omega)
    rw [if_neg carry, none]

-- A multiplier one bit too wide for the word W: the product's high part without
-- that bit, averaged with n.
theorem averaged_div (n m W s : Nat) (positive : 0 < W) (low : m < W) :
    ((n - n * m / W) / 2 + n * m / W) / 2 ^ s = n * (W + m) / (2 ^ (s + 1) * W) := by
  have below : n * m / W ≤ n := by
    apply Nat.div_le_of_le_mul
    rw [Nat.mul_comm W]
    exact Nat.mul_le_mul_left n (Nat.le_of_lt low)
  have half : (n - n * m / W) / 2 + n * m / W = (n + n * m / W) / 2 := by omega
  have whole : n + n * m / W = n * (W + m) / W := by
    rw [Nat.mul_add, Nat.mul_comm n W, Nat.mul_add_div positive]
  rw [half, whole, Nat.div_div_eq_div_mul, Nat.div_div_eq_div_mul, Nat.pow_succ, Nat.mul_comm _ W, Nat.mul_comm _ 2]

theorem log_between (d : Nat) (positive : 0 < d) : 2 ^ d.log2 ≤ d ∧ d < 2 ^ (d.log2 + 1) :=
  ⟨Nat.log2_self_le (by omega), Nat.lt_log2_self⟩

theorem power_of_two_eq (d : Nat) (positive : 0 < d) : d &&& (d - 1) = 0 ↔ d = 2 ^ d.log2 := by
  rw [Nat.and_sub_one_eq_zero_iff_isPowerOfTwo (by omega)]
  constructor
  · rintro ⟨k, rfl⟩
    rw [Nat.log2_two_pow]
  · intro same
    exact ⟨d.log2, same⟩

-- Masking the low bits away.
theorem and_high (x k : Nat) (small : x < 18446744073709551616) (low : k ≤ 64) :
    x &&& (18446744073709551616 - 2 ^ k) = x / 2 ^ k * 2 ^ k := by
  have mask : 18446744073709551616 - 2 ^ k = (2 ^ (64 - k) - 1) <<< k := by
    rw [Nat.shiftLeft_eq, Nat.sub_mul, Nat.one_mul, ← Nat.pow_add, Nat.sub_add_cancel low]
  rw [mask, ← Nat.shiftRight_eq_div_pow, ← Nat.shiftLeft_eq]
  apply Nat.eq_of_testBit_eq
  intro i
  rw [Nat.testBit_and, Nat.testBit_shiftLeft, Nat.testBit_shiftLeft, Nat.testBit_two_pow_sub_one, Nat.testBit_shiftRight]
  by_cases high : k ≤ i
  · rw [decide_eq_true high, Bool.true_and, Bool.true_and, Nat.add_sub_cancel' high]
    by_cases top : i < 64
    · rw [decide_eq_true (by omega), Bool.and_true]
    · rw [Nat.testBit_lt_two_pow (Nat.lt_of_lt_of_le small (Nat.pow_le_pow_right (by decide : 0 < 2) (by omega : 64 ≤ i)))]
      rfl
  · rw [decide_eq_false high]
    simp

end Magic

namespace Halving

-- The place of the first set bit is looked for in a window that is halved over and over:
-- its first half is passed when nothing in it is set.
def search (bit : Nat → Bool) : List Nat → Nat → Nat
  | [], place => place
  | half :: halves, place => search bit halves (if ∀ i < half, bit (place + i) = false then place + half else place)

def Halves : List Nat → Nat → Prop
  | [], width => width = 1
  | half :: halves, width => width = half + half ∧ Halves halves half

structure First (bit : Nat → Bool) (place : Nat) : Prop where
  before : ∀ i < place, bit i = false
  here : bit place = true

theorem first_unique (bit : Nat → Bool) (place other : Nat) (first : First bit place) (second : First bit other) : place = other := by
  by_contra different
  rcases Nat.lt_or_gt_of_ne different with less | more
  · exact absurd ((second.before place less).symm.trans first.here) Bool.false_ne_true
  · exact absurd ((first.before other more).symm.trans second.here) Bool.false_ne_true

theorem search_append (bit : Nat → Bool) (front back : List Nat) (place : Nat) :
    search bit (front ++ back) place = search bit back (search bit front place) := by
  induction front generalizing place with
  | nil => rfl
  | cons half front ih => exact ih _

theorem search_first (bit : Nat → Bool) (halves : List Nat) (width place : Nat) (halved : Halves halves width)
    (before : ∀ i < place, bit i = false) (window : ∃ i < width, bit (place + i) = true) : First bit (search bit halves place) := by
  induction halves generalizing width place with
  | nil =>
      obtain ⟨i, small, set⟩ := window
      have zero : i = 0 := by
        have one : width = 1 := halved
        omega
      rw [zero] at set
      exact ⟨before, set⟩
  | cons half halves ih =>
      obtain ⟨double, rest⟩ := halved
      obtain ⟨i, small, set⟩ := window
      rw [search]
      by_cases clear : ∀ i < half, bit (place + i) = false
      · rw [if_pos clear]
        have far : half ≤ i := by
          by_contra near
          exact absurd ((clear i (by omega)).symm.trans set) Bool.false_ne_true
        apply ih half (place + half) rest
        · intro j less
          by_cases early : j < place
          · exact before j early
          · have passed := clear (j - place) (by omega)
            rwa [Nat.add_sub_cancel' (by omega)] at passed
        · refine ⟨i - half, by omega, ?_⟩
          rwa [show place + half + (i - half) = place + i by omega]
      · rw [if_neg clear]
        simp only [not_forall, Bool.not_eq_false] at clear
        obtain ⟨j, near, here⟩ := clear
        exact ih half place rest before ⟨j, near, here⟩

end Halving

import Mathlib.Data.BitVec
import OsZero.Lib.Lanes

set_option autoImplicit false

namespace OsZero.Trix

open Lanes

def bitcnt1u32a (a : BitVec 32) : BitVec 32 :=
  let a := (a >>> 1 &&& 0x55555555) + (a &&& 0x55555555)
  let a := (a >>> 2 &&& 0x33333333) + (a &&& 0x33333333)
  let a := (a >>> 4 &&& 0x0F0F0F0F) + (a &&& 0x0F0F0F0F)
  let a := (a >>> 8 &&& 0x00FF00FF) + (a &&& 0x00FF00FF)
  (a >>> 16) + (a &&& 0x0000FFFF)

def bitcnt1u32 (a : BitVec 32) : BitVec 32 :=
  let a := (a >>> 1 &&& 0x55555555) + (a &&& 0x55555555)
  let a := (a >>> 2 &&& 0x33333333) + (a &&& 0x33333333)
  let a := (a >>> 4 &&& 0x07070707) + (a &&& 0x07070707)
  let a := (a >>> 8 &&& 0x000f000f) + (a &&& 0x000f000f)
  (a >>> 16) + (a &&& 0x0000001f)

-- What the macro leaves in r, an unsigned word of 32 bits.
def onebits_32 (u32 : BitVec 32) : BitVec 32 :=
  let r := u32
  let r := r - (r >>> 1 &&& 0x55555555)
  let r := (r >>> 2 &&& 0x33333333) + (r &&& 0x33333333)
  let r := ((r >>> 4) + r) &&& 0x0f0f0f0f
  let r := r + (r >>> 8)
  let r := r + (r >>> 16)
  r &&& 0x3f

def onebits_32b (u32 : BitVec 32) : BitVec 32 :=
  let r := u32
  let r := r - (r >>> 1 &&& 0x55555555)
  let r := (r >>> 2 &&& 0x33333333) + (r &&& 0x33333333)
  ((((r >>> 4) + r) &&& 0x0f0f0f0f) * 0x01010101) >>> 24

-- Unlike the others it shifts to the left, which drops the highest field of each stage.
def bitcnt1u64 (a : BitVec 64) : BitVec 64 :=
  let val := a <<< 1
  let val := val &&& 0x5555555555555555
  let a := a &&& 0x5555555555555555
  let a := a + val
  let val := a <<< 2
  let val := val &&& 0x3333333333333333
  let a := a &&& 0x3333333333333333
  let a := a + val
  let val := a <<< 4
  let val := val &&& 0x0f0f0f0f0f0f0f0f
  let a := a &&& 0x0f0f0f0f0f0f0f0f
  let a := a + val
  let val := a <<< 8
  let val := val &&& 0x00ff00ff00ff00ff
  let a := a &&& 0x00ff00ff00ff00ff
  let a := a + val
  let val := a <<< 16
  let val := val &&& 0x0000ffff0000ffff
  let a := a &&& 0x0000ffff0000ffff
  let a := a + val
  let val := a <<< 32
  a + val

-- The number of one bits of a word.
def ones {w : Nat} (a : BitVec w) : Nat := (List.range w).countP fun i => a.getLsbD i

theorem total_bits (n word : Nat) : total (lanes 1 n word) = (List.range n).countP fun i => word.testBit i := by
  induction n generalizing word with
  | zero => rfl
  | succ n ih =>
      have later : ((fun i => word.testBit i) ∘ Nat.succ) = fun i => (word / 2 ^ 1).testBit i := by
        funext i
        rw [Nat.pow_one]
        exact Nat.testBit_succ ..
      rw [lanes, total, ih, List.range_succ_eq_map, List.countP_cons, List.countP_map, later, Nat.testBit_zero, Nat.pow_one, Nat.add_comm]
      congr 1
      split
      · simp_all
      · simp_all

theorem ones_total {w : Nat} (a : BitVec w) : total (lanes 1 w a.toNat) = ones a := total_bits w a.toNat

theorem ones_le {w : Nat} (a : BitVec w) : ones a ≤ w := by
  have all := List.countP_le_length (l := List.range w) (p := fun i => a.getLsbD i)
  rwa [List.length_range] at all

theorem ones_zero {w : Nat} (a : BitVec w) (none : ones a = 0) : a = 0 := by
  rw [ones, List.countP_eq_zero] at none
  apply BitVec.eq_of_getLsbD_eq
  intro i inside
  simpa using none i (List.mem_range.mpr inside)

theorem ones_of_zero (w : Nat) : ones (0 : BitVec w) = 0 := by
  rw [ones, List.countP_eq_zero]
  intro i _
  simp

section Stages

variable {w : Nat} (a m : BitVec w) (k c n bound count : Nat)

theorem bit_sums : Sums 1 w 1 (ones a) a.toNat := by
  have sums := sums_lanes w a.toNat a.isLt
  rwa [ones_total] at sums

theorem stage (masked : m.toNat = mask (2 * k) c n) (sums : Sums k (2 * n) bound count a.toNat) (fits : bound < 2 ^ k)
    (kept : ∀ x, x ≤ bound → x &&& c = x) (small : c < 2 ^ k) (room : mask (2 * k) (2 * bound) n < 2 ^ w) :
    Sums (2 * k) n (2 * bound) count ((a >>> k &&& m) + (a &&& m)).toNat := by
  have staged := sums_stage k c n bound count a.toNat sums fits kept small
  have whole := sums_le _ _ _ _ _ staged
  rw [BitVec.toNat_add, BitVec.toNat_and, BitVec.toNat_and, BitVec.toNat_ushiftRight, masked, Nat.mod_eq_of_lt (by omega)]
  exact staged

theorem late_stage (masked : m.toNat = mask (2 * k) c n) (sums : Sums k (2 * n) bound count a.toNat) (fits : 2 * bound < 2 ^ k)
    (kept : ∀ x, x ≤ 2 * bound → x &&& c = x) (small : c < 2 ^ k) (room : 2 * mask k bound (2 * n) < 2 ^ w) :
    Sums (2 * k) n (2 * bound) count (((a >>> k) + a) &&& m).toNat := by
  have staged := sums_late k c n bound count a.toNat sums fits kept small
  have whole := sums_le _ _ _ _ _ sums
  have shifted : a.toNat >>> k ≤ a.toNat := by
    rw [Nat.shiftRight_eq_div_pow]
    exact Nat.div_le_self ..
  rw [BitVec.toNat_and, BitVec.toNat_add, BitVec.toNat_ushiftRight, masked, Nat.mod_eq_of_lt (by omega)]
  exact staged

-- Taking the odd bits from the word leaves the sum of the odd and the even bits.
theorem first_stage (masked : m.toNat = mask 2 1 n) (bits : w = 2 * n) : a - (a >>> 1 &&& m) = (a >>> 1 &&& m) + (a &&& m) := by
  obtain ⟨xs, packed, length, below, -⟩ := bit_sums a
  have each : ∀ x ∈ xs, x &&& 1 = x := fun x member => by
    have bit : x < 2 := below x member
    rw [Nat.and_one_is_mod]
    omega
  have halves := stage_whole 1 1 xs n (by omega) below each (by decide)
  rw [← packed, ← masked] at halves
  have whole : a = (a >>> 1 &&& m) + ((a >>> 1 &&& m) + (a &&& m)) := by
    apply BitVec.eq_of_toNat_eq
    have small := a.isLt
    rw [BitVec.toNat_add, BitVec.toNat_add, BitVec.toNat_and, BitVec.toNat_and, BitVec.toNat_ushiftRight, Nat.add_mod_mod,
      Nat.mod_eq_of_lt (by omega)]
    omega
  calc a - (a >>> 1 &&& m) = (a >>> 1 &&& m) + ((a >>> 1 &&& m) + (a &&& m)) - (a >>> 1 &&& m) := by rw [← whole]
    _ = (a >>> 1 &&& m) + (a &&& m) := by rw [BitVec.add_comm, BitVec.add_sub_cancel]

-- Of two lanes the shift alone leaves the upper one.
theorem last_stage (masked : m.toNat = c) (sums : Sums k 2 bound count a.toNat) (fits : bound < 2 ^ k)
    (kept : ∀ x, x ≤ bound → x &&& c = x) (small : c < 2 ^ k) (room : 2 * bound < 2 ^ w) : ((a >>> k) + (a &&& m)).toNat = count := by
  obtain ⟨xs, packed, length, below, rfl⟩ := sums
  obtain ⟨x, y, rfl⟩ := List.length_eq_two.mp length
  have first := below_head below
  have second := below_head (below_tail below)
  have lane := land_lane k x y c 0 (by omega) small
  have word : a.toNat = 2 ^ k * y + x := packed.trans (by simp [pack])
  rw [Nat.mul_zero, Nat.zero_add, Nat.and_zero, Nat.mul_zero, Nat.zero_add, kept x (by omega)] at lane
  rw [BitVec.toNat_add, BitVec.toNat_and, BitVec.toNat_ushiftRight, masked, word, lane, shift_lane k x y (by omega), Nat.mod_eq_of_lt (by omega)]
  simp only [total]
  omega

end Stages

section Words

variable (a : BitVec 32)

theorem bit_pairs : Sums 2 16 2 (ones a) ((a >>> 1 &&& 0x55555555) + (a &&& 0x55555555)).toNat :=
  stage a 0x55555555 1 1 16 1 (ones a) (by decide) (bit_sums a) (by decide) (by decide) (by decide) (by decide)

theorem nibbles (count : Nat) (sums : Sums 2 16 2 count a.toNat) : Sums 4 8 4 count ((a >>> 2 &&& 0x33333333) + (a &&& 0x33333333)).toNat :=
  stage a 0x33333333 2 3 8 2 count (by decide) sums (by decide) (by decide) (by decide) (by decide)

theorem bitcnt1u32a_ones : (bitcnt1u32a a).toNat = ones a := by
  have fourth := nibbles _ _ (bit_pairs a)
  have eighth := stage _ 0x0F0F0F0F 4 15 4 4 _ (by decide) fourth (by decide) (by decide) (by decide) (by decide)
  have half := stage _ 0x00FF00FF 8 255 2 8 _ (by decide) eighth (by decide) (by decide) (by decide) (by decide)
  exact last_stage _ 0x0000FFFF 16 0xFFFF 16 _ (by decide) half (by decide) (by decide) (by decide) (by decide)

theorem bitcnt1u32_ones : (bitcnt1u32 a).toNat = ones a := by
  have fourth := nibbles _ _ (bit_pairs a)
  have eighth := stage _ 0x07070707 4 7 4 4 _ (by decide) fourth (by decide) (by decide) (by decide) (by decide)
  have half := stage _ 0x000f000f 8 15 2 8 _ (by decide) eighth (by decide) (by decide) (by decide) (by decide)
  exact last_stage _ 0x0000001f 16 31 16 _ (by decide) half (by decide) (by decide) (by decide) (by decide)

-- The bytes of both macros before they are added up.
def bytes : BitVec 32 :=
  let r := a
  let r := r - (r >>> 1 &&& 0x55555555)
  let r := (r >>> 2 &&& 0x33333333) + (r &&& 0x33333333)
  ((r >>> 4) + r) &&& 0x0f0f0f0f

theorem bytes_sums : Sums 8 4 8 (ones a) (bytes a).toNat := by
  have first := first_stage a 0x55555555 16 (by decide) (by decide)
  have fourth := nibbles _ _ (bit_pairs a)
  rw [bytes, first]
  exact late_stage _ 0x0f0f0f0f 4 15 4 4 _ (by decide) fourth (by decide) (by decide) (by decide) (by decide)

theorem bytes_four : ∃ p q r s, (bytes a).toNat = p + 256 * q + 65536 * r + 16777216 * s ∧ p ≤ 8 ∧ q ≤ 8 ∧ r ≤ 8 ∧ s ≤ 8 ∧
    p + q + r + s = ones a := by
  obtain ⟨xs, packed, length, below, sum⟩ := bytes_sums a
  obtain ⟨p, xs, rfl⟩ := List.exists_cons_of_length_eq_add_one length
  obtain ⟨q, r, s, rfl⟩ := List.length_eq_three.mp (Nat.succ.inj length)
  have first := below_head below
  have second := below_head (below_tail below)
  have third := below_head (below_tail (below_tail below))
  have fourth := below_head (below_tail (below_tail (below_tail below)))
  simp only [pack, total] at packed sum
  exact ⟨p, q, r, s, by omega, by omega, by omega, by omega, by omega, by omega⟩

theorem onebits_32_ones : (onebits_32 a).toNat = ones a := by
  obtain ⟨p, q, r, s, word, first, second, third, fourth, sum⟩ := bytes_four a
  have early : onebits_32 a = (bytes a + (bytes a >>> 8) + ((bytes a + (bytes a >>> 8)) >>> 16)) &&& 0x3f := rfl
  have last : (0x3f : BitVec 32).toNat = 2 ^ 6 - 1 := by decide
  have eighth : (bytes a + (bytes a >>> 8)).toNat = (p + q) + 256 * (q + r) + 65536 * (r + s) + 16777216 * s := by
    rw [BitVec.toNat_add, BitVec.toNat_ushiftRight, Nat.shiftRight_eq_div_pow, word]
    have shifted : (p + 256 * q + 65536 * r + 16777216 * s) / 2 ^ 8 = q + 256 * r + 65536 * s := by omega
    omega
  have shifted : ((p + q) + 256 * (q + r) + 65536 * (r + s) + 16777216 * s) / 2 ^ 16 = (r + s) + 256 * s := by omega
  rw [early, BitVec.toNat_and, last, Nat.and_two_pow_sub_one_eq_mod, BitVec.toNat_add, BitVec.toNat_ushiftRight, Nat.shiftRight_eq_div_pow, eighth,
    shifted]
  omega

theorem onebits_32b_ones : (onebits_32b a).toNat = ones a := by
  obtain ⟨p, q, r, s, word, first, second, third, fourth, sum⟩ := bytes_four a
  have early : onebits_32b a = (bytes a * 0x01010101) >>> 24 := rfl
  rw [early, BitVec.toNat_ushiftRight, BitVec.toNat_mul, word, Nat.shiftRight_eq_div_pow]
  have factor : (0x01010101 : BitVec 32).toNat = 16843009 := by decide
  have product : (p + 256 * q + 65536 * r + 16777216 * s) * 16843009 =
      2 ^ 32 * (q + r + s + 256 * (r + s) + 65536 * s) + (16777216 * ones a + (p + 256 * (p + q) + 65536 * (p + q + r))) := by omega
  have rest : (16777216 * ones a + (p + 256 * (p + q) + 65536 * (p + q + r))) / 2 ^ 24 = ones a := by omega
  rw [factor, product, Nat.mul_add_mod, Nat.mod_eq_of_lt (by omega), rest]

end Words

-- A mask of bitcnt1u64 leaves half of each field of its last two.
def fields : BitVec 64 := 0x0000ffff0000ffff

theorem masked_fields (a : BitVec 64) : ∃ x y, (a &&& fields).toNat = 2 ^ 32 * y + x ∧ x < 2 ^ 16 ∧ y < 2 ^ 16 := by
  have halves : a.toNat = 2 ^ 32 * (a.toNat / 2 ^ 32) + a.toNat % 2 ^ 32 := (Nat.div_add_mod ..).symm
  have lane := land_lane 32 (a.toNat % 2 ^ 32) (a.toNat / 2 ^ 32) 0xffff 0xffff (Nat.mod_lt _ (by decide)) (by decide)
  rw [← halves] at lane
  refine ⟨_, _, lane, ?_, ?_⟩
  · exact Nat.lt_of_le_of_lt Nat.and_le_right (by decide)
  · exact Nat.lt_of_le_of_lt Nat.and_le_right (by decide)

-- The last step adds the lower field to the upper one and keeps the lower one.
theorem spread_zero (a b sum : BitVec 64) (whole : sum = (a &&& fields) + (b &&& fields)) (small : (sum + sum <<< 32).toNat ≤ 64) :
    (sum + sum <<< 32).toNat = 0 := by
  obtain ⟨p, q, first, low, high⟩ := masked_fields a
  obtain ⟨r, s, second, lower, higher⟩ := masked_fields b
  have both : sum.toNat = 2 ^ 32 * (q + s) + (p + r) := by
    rw [whole, BitVec.toNat_add, first, second]
    omega
  have shifted : (2 ^ 32 * (q + s) + (p + r)) * 2 ^ 32 % 2 ^ 64 = 2 ^ 32 * (p + r) := by omega
  have inside : 2 ^ 32 * (q + s) + (p + r) + 2 ^ 32 * (p + r) < 2 ^ 64 := by omega
  rw [BitVec.toNat_add, BitVec.toNat_shiftLeft, both, Nat.shiftLeft_eq, shifted, Nat.mod_eq_of_lt inside] at small ⊢
  have low : p + r = 0 := by omega
  have high : q + s = 0 := by omega
  rw [low, high, Nat.mul_zero]

theorem bitcnt1u64_zero (a : BitVec 64) (small : (bitcnt1u64 a).toNat ≤ 64) : (bitcnt1u64 a).toNat = 0 := by
  rw [bitcnt1u64] at small ⊢
  exact spread_zero _ _ _ rfl small

-- The shifts to the left spoil the count of every word but zero.
theorem bitcnt1u64_ones (a : BitVec 64) : (bitcnt1u64 a).toNat = ones a ↔ a = 0 := by
  constructor
  · intro same
    have few := ones_le a
    have zero := bitcnt1u64_zero a (by omega)
    exact ones_zero a (by omega)
  · rintro rfl
    rw [ones_of_zero]
    decide

theorem popcounts_agree_iff (u : BitVec 32) (a : BitVec 64) :
    ((bitcnt1u32a u).toNat = ones u ∧ (bitcnt1u32 u).toNat = ones u ∧ (onebits_32 u).toNat = ones u ∧ (onebits_32b u).toNat = ones u) ∧
      ((bitcnt1u64 a).toNat = ones a ↔ a = 0) :=
  ⟨⟨bitcnt1u32a_ones u, bitcnt1u32_ones u, onebits_32_ones u, onebits_32b_ones u⟩, bitcnt1u64_ones a⟩

-- The one bit of the word 1 is counted in both halves of the result.
theorem bitcnt1u64_of_one : (bitcnt1u64 1).toNat = 4294967297 ∧ ones (1 : BitVec 64) = 1 ∧ (bitcnt1u64 1).toNat ≠ ones (1 : BitVec 64) := by
  decide

end OsZero.Trix

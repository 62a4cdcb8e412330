import Mathlib.Algebra.Group.Nat.Defs
import Mathlib.Data.BitVec
import OsZero.Lib.Sieves

set_option autoImplicit false

namespace OsZero.Prime

open Sieves

-- long and size_t of the 64-bit machine.
abbrev Word := BitVec 64

-- A table of n bytes.
structure Bitmap where
  n : Nat
  byte : Nat → BitVec 8

def rounduppow2 (a b2 : Word) : Word := (a + (b2 - 1)) &&& -b2

-- A table index is a long; none outside of the table.
def clrbit (tab : Bitmap) (b : Word) : Option Bitmap :=
  let i := (b.sshiftRight 3).toNat
  if i < tab.n then some { tab with byte := Function.update tab.byte i (tab.byte i &&& ~~~(1#8 <<< (b &&& 7).toNat)) } else none

def bitset (tab : Bitmap) (b : Word) : Option Bool :=
  let i := (b.sshiftRight 3).toNat
  if i < tab.n then some (tab.byte i &&& (1#8 <<< (b &&& 7).toNat) ≠ 0) else none

-- n = rounduppow2(lim, 8) >> 3;
def nbyte (lim : Word) : Nat := (rounduppow2 lim 8 >>> 3).toNat

-- memset(tab, 0xff, n);
def filled (lim : Word) : Bitmap := ⟨nbyte lim, fun _ => 0xff⟩

section Loops

variable (lim : Word)

-- for ( ; m < lim ; m += step) clrbit(tab, m); the comparison is one of unsigned numbers.
def cross (step : Word) : Nat → Word → Bitmap → Option Bitmap
  | 0, _, _ => none
  | fuel + 1, m, tab => if m.ult lim then clrbit tab m >>= cross step fuel (m + step) else some tab

-- for ( ; l < lim ; l += step) if (bitset(tab, l)) break;
def seek (step : Word) (tab : Bitmap) : Nat → Word → Option Word
  | 0, _ => none
  | fuel + 1, l => if l.ult lim then bitset tab l >>= fun found => if found then some l else seek step tab fuel (l + step) else some l

def loop1 (fuel : Nat) : Nat → Word → Bitmap → Option Bitmap
  | 0, _, _ => none
  | turns + 1, l, tab =>
      cross lim l fuel (l * l) tab >>= fun tab =>
        seek lim 1 tab fuel (l + 1) >>= fun l => if l = lim then some tab else loop1 fuel turns l tab

def sieve1 (fuel : Nat) : Option Bitmap := loop1 lim fuel fuel 2 (filled lim)

-- The step of the candidate l, and how the next odd number is made of l + 1. Whether the
-- loop came round again is kept as well.
def loop (step odd : Word → Word) (fuel : Nat) : Nat → Word → Bitmap → Bool → Option (Bitmap × Bool)
  | 0, _, _, _ => none
  | turns + 1, l, tab, again =>
      cross lim (step l) fuel (l * l) tab >>= fun tab =>
        seek lim 2 tab fuel (odd (l + 1)) >>= fun l => if lim.ule l then some (tab, again) else loop step odd fuel turns l tab true

-- if (!(l & 0x01)) l++;
def sieve2 (fuel : Nat) : Option Bitmap :=
  (loop lim (fun l => l) (fun l => if l &&& 1 = 0 then l + 1 else l) fuel fuel 2 (filled lim) false).map Prod.fst

-- l += !(l & 0x01);
def tick (l : Word) : Word := l + if l &&& 1 = 0 then 1 else 0

def sieve3 (fuel : Nat) : Option Bitmap := (loop lim (fun l => l) tick fuel fuel 2 (filled lim) false).map Prod.fst

def sieve4 (fuel : Nat) : Option Bitmap :=
  cross lim 2 fuel (2 * 2) (filled lim) >>= fun tab => (loop lim (fun l => l <<< 1) tick fuel fuel 3 tab false).map Prod.fst

end Loops

-- The bit of a number.
def bit (tab : Bitmap) (i : Nat) : Bool := (tab.byte (i / 8)).getLsbD (i % 8)

-- From 2 on exactly the primes are left; the bits outside of that are as memset left them.
structure Sieved (lim : Word) (tab : Bitmap) : Prop where
  size : tab.n = nbyte lim
  primes : ∀ i, 2 ≤ i → i < lim.toNat → (bit tab i = true ↔ i.Prime)
  rest : ∀ i, i < 2 ∨ lim.toNat ≤ i → bit tab i = true

section Bits

theorem index_toNat (b : Word) (low : b.toNat < 2 ^ 63) : (b.sshiftRight 3).toNat = b.toNat / 8 := by
  have positive : b.msb = false := BitVec.msb_eq_false_iff_two_mul_lt.mpr (by omega)
  rw [BitVec.sshiftRight_eq_of_msb_false positive, BitVec.toNat_ushiftRight]
  exact Nat.shiftRight_eq_div_pow b.toNat 3

theorem offset_toNat (b : Word) : (b &&& 7).toNat = b.toNat % 8 := Nat.and_two_pow_sub_one_eq_mod b.toNat 3

theorem nbyte_eq (lim : Word) (small : lim.toNat ≤ 2 ^ 31) : nbyte lim = (lim.toNat + 7) / 8 := by
  have mask : (-8 : Word) >>> 3 = BitVec.allOnes 64 >>> 3 := by decide
  have whole : ((lim + (8 - 1)) &&& -8) >>> 3 = (lim + 7) >>> 3 := by
    rw [BitVec.ushiftRight_and_distrib, mask, ← BitVec.ushiftRight_and_distrib, BitVec.and_allOnes]
    rfl
  have seven : (7 : Word).toNat = 7 := rfl
  rw [nbyte, rounduppow2, whole, BitVec.toNat_ushiftRight, BitVec.toNat_add, seven, Nat.mod_eq_of_lt (by omega)]
  exact Nat.shiftRight_eq_div_pow (lim.toNat + 7) 3

theorem clrbit_bit (tab : Bitmap) (b : Word) (low : b.toNat < 2 ^ 63) (inside : b.toNat < 8 * tab.n) :
    ∃ after, clrbit tab b = some after ∧ after.n = tab.n ∧ ∀ i, bit after i = (bit tab i && decide (i ≠ b.toNat)) := by
  refine ⟨_, if_pos (by rw [index_toNat b low]; omega), rfl, fun i => ?_⟩
  simp only [bit, index_toNat b low, offset_toNat]
  by_cases here : i / 8 = b.toNat / 8
  · rw [here, Function.update_self, BitVec.getLsbD_and, BitVec.getLsbD_not, ← BitVec.twoPow_eq, BitVec.getLsbD_twoPow]
    have less : i % 8 < 8 := Nat.mod_lt i (by decide)
    have less' : b.toNat % 8 < 8 := Nat.mod_lt b.toNat (by decide)
    by_cases same : i = b.toNat
    · simp [same, less']
    · have other : b.toNat % 8 ≠ i % 8 := by omega
      simp [same, other, less]
  · have other : i ≠ b.toNat := fun same => here (congrArg (· / 8) same)
    rw [Function.update_of_ne here, decide_eq_true other, Bool.and_true]

theorem twoPow_nonzero (b : Word) : BitVec.twoPow 8 (b.toNat % 8) ≠ 0#8 := by
  have less : b.toNat % 8 < 8 := Nat.mod_lt b.toNat (by decide)
  intro zero
  have chosen := congrArg (fun bits => bits.getLsbD (b.toNat % 8)) zero
  simp [less] at chosen

theorem bitset_bit (tab : Bitmap) (b : Word) (low : b.toNat < 2 ^ 63) (inside : b.toNat < 8 * tab.n) : bitset tab b = some (bit tab b.toNat) := by
  have index : (b.sshiftRight 3).toNat < tab.n := by rw [index_toNat b low]; omega
  rw [bitset, if_pos index, index_toNat b low, offset_toNat, ← BitVec.twoPow_eq, BitVec.and_twoPow, bit]
  cases (tab.byte (b.toNat / 8)).getLsbD (b.toNat % 8) with
  | false => rfl
  | true => exact congrArg some (decide_eq_true (twoPow_nonzero b))

end Bits

section Crossing

theorem progression_from (m step lim i : Nat) (less : m < lim) :
    (i ≠ m ∧ ¬(i < lim ∧ ∃ k, i = m + step + k * step)) ↔ ¬(i < lim ∧ ∃ k, i = m + k * step) := by
  constructor
  · rintro ⟨other, later⟩ ⟨below, k, same⟩
    cases k with
    | zero => exact other (by omega)
    | succ k => exact later ⟨below, k, by rw [same, Nat.succ_mul]; omega⟩
  · intro clear
    refine ⟨fun same => clear ⟨by omega, 0, by omega⟩, ?_⟩
    rintro ⟨below, k, same⟩
    exact clear ⟨below, k + 1, by rw [same, Nat.succ_mul]; omega⟩

variable (lim : Word) (small : lim.toNat ≤ 2 ^ 31)
include small

-- What is crossed out: the numbers below lim that are m and a multiple of the step.
theorem cross_bits (step : Word) (some_step : 0 < step.toNat) (short : step.toNat ≤ 2 ^ 33) (fuel : Nat) (m : Word) (tab : Bitmap)
    (low : m.toNat < 2 ^ 63) (size : lim.toNat ≤ 8 * tab.n) (enough : lim.toNat - m.toNat < fuel) :
    ∃ after, cross lim step fuel m tab = some after ∧ after.n = tab.n ∧
      ∀ i, bit after i = true ↔ bit tab i = true ∧ ¬(i < lim.toNat ∧ ∃ k, i = m.toNat + k * step.toNat) := by
  induction fuel generalizing m tab with
  | zero => exact absurd enough (Nat.not_lt_zero _)
  | succ fuel ih =>
    rw [cross]
    by_cases less : m.toNat < lim.toNat
    · have below : m.ult lim = true := decide_eq_true less
      obtain ⟨next, cleared, size', bits⟩ := clrbit_bit tab m low (by omega)
      have moved : (m + step).toNat = m.toNat + step.toNat := by
        rw [BitVec.toNat_add, Nat.mod_eq_of_lt (by omega)]
      obtain ⟨after, done, kept, crossed⟩ := ih (m + step) next (by omega) (by omega) (by omega)
      refine ⟨after, ?_, kept.trans size', fun i => ?_⟩
      · rw [if_pos below, cleared]
        exact done
      · rw [crossed, bits, moved, Bool.and_eq_true, decide_eq_true_eq, and_assoc, progression_from _ _ _ _ less]
    · have above : ¬m.ult lim = true := fun below => less (of_decide_eq_true below)
      refine ⟨tab, if_neg above, rfl, fun i => ⟨fun set => ⟨set, ?_⟩, And.left⟩⟩
      rintro ⟨before, k, same⟩
      omega

-- The next candidate: the first one of the progression whose bit is set, or one behind lim.
theorem seek_first (step : Word) (some_step : 0 < step.toNat) (short : step.toNat ≤ 2) (tab : Bitmap) (size : lim.toNat ≤ 8 * tab.n) (fuel : Nat)
    (l : Word) (low : l.toNat < 2 ^ 33) (enough : lim.toNat - l.toNat < fuel) :
    ∃ next, seek lim step tab fuel l = some next ∧ l.toNat ≤ next.toNat ∧ (next.toNat ≤ l.toNat ∨ next.toNat < lim.toNat + step.toNat) ∧
      (next.toNat < lim.toNat → bit tab next.toNat = true) ∧
      (∀ k, l.toNat + k * step.toNat < next.toNat → l.toNat + k * step.toNat < lim.toNat ∧ bit tab (l.toNat + k * step.toNat) = false) := by
  induction fuel generalizing l with
  | zero => exact absurd enough (Nat.not_lt_zero _)
  | succ fuel ih =>
    rw [seek]
    by_cases less : l.toNat < lim.toNat
    · have below : l.ult lim = true := decide_eq_true less
      rw [if_pos below, bitset_bit tab l (by omega) (by omega), Option.bind_eq_bind, Option.bind_some]
      cases found : bit tab l.toNat with
      | true =>
        exact ⟨l, if_pos rfl, Nat.le_refl _, .inl (Nat.le_refl _), fun _ => found, fun k before => by omega⟩
      | false =>
        have moved : (l + step).toNat = l.toNat + step.toNat := by
          rw [BitVec.toNat_add, Nat.mod_eq_of_lt (by omega)]
        obtain ⟨next, done, above, bound, set, clear⟩ := ih (l + step) (by omega) (by omega)
        refine ⟨next, done, by omega, .inr (by omega), set, fun k before => ?_⟩
        cases k with
        | zero => exact ⟨by omega, by rw [Nat.zero_mul, Nat.add_zero]; exact found⟩
        | succ k =>
          have same : l.toNat + (k + 1) * step.toNat = (l + step).toNat + k * step.toNat := by
            rw [moved, Nat.succ_mul]
            omega
          rw [same] at before ⊢
          exact clear k before
    · have above : ¬l.ult lim = true := fun below => less (of_decide_eq_true below)
      exact ⟨l, if_neg above, Nat.le_refl _, .inl (Nat.le_refl _), fun before => absurd before less, fun k before => by omega⟩

end Crossing

section Candidates

variable (lim : Word) (small : lim.toNat ≤ 2 ^ 31)
include small

-- The table when l is the candidate: only multiples of smaller primes are crossed out.
structure Sifted (l : Nat) (tab : Bitmap) : Prop where
  size : tab.n = nbyte lim
  bits : ∀ i, 2 ≤ i → i < lim.toNat → (bit tab i = true ↔ Kept l i)
  rest : ∀ i, i < 2 ∨ lim.toNat ≤ i → bit tab i = true

theorem sifted_size (l : Nat) (tab : Bitmap) (sifted : Sifted lim l tab) : lim.toNat ≤ 8 * tab.n := by
  rw [sifted.size, nbyte_eq lim small]
  omega

omit small in
theorem filled_sifted : Sifted lim 2 (filled lim) := by
  have set : ∀ i, bit (filled lim) i = true := by
    intro i
    have less : i % 8 < 8 := Nat.mod_lt i (by decide)
    have ones : (0xff : BitVec 8) = BitVec.allOnes 8 := rfl
    rw [bit, filled]
    dsimp only
    rw [ones, BitVec.getLsbD_allOnes, decide_eq_true less]
  exact ⟨rfl, fun i _ _ => iff_of_true (set i) (kept_two i), fun i _ => set i⟩

omit small in
theorem sifted_all (l : Nat) (tab : Bitmap) (sifted : Sifted lim l tab) (above : lim.toNat ≤ l) : Sieved lim tab := by
  refine ⟨sifted.size, fun i large less => ?_, sifted.rest⟩
  rw [sifted.bits i large less]
  exact kept_all l i large (by omega)

-- One pass over the multiples of a candidate with either step.
theorem cross_sifted (fuel : Nat) (l step : Word) (tab : Bitmap) (large : 2 ≤ l.toNat) (before : l.toNat ≤ 2 ^ 31) (some_step : 0 < step.toNat)
    (short : step.toNat ≤ 2 ^ 33) (enough : lim.toNat < fuel) (sifted : Sifted lim l.toNat tab)
    (crosses : ∀ i, 0 < i → (Kept (l.toNat + 1) i ↔ Kept l.toNat i ∧ ¬∃ k, i = l.toNat * l.toNat + k * step.toNat)) :
    ∃ after, cross lim step fuel (l * l) tab = some after ∧ Sifted lim (l.toNat + 1) after := by
  have square : (l * l).toNat = l.toNat * l.toNat := by
    have bound : l.toNat * l.toNat ≤ 2 ^ 31 * 2 ^ 31 := Nat.mul_le_mul before before
    rw [BitVec.toNat_mul, Nat.mod_eq_of_lt (by omega)]
  have least : 2 * 2 ≤ l.toNat * l.toNat := Nat.mul_le_mul large large
  have most : l.toNat * l.toNat ≤ 2 ^ 31 * 2 ^ 31 := Nat.mul_le_mul before before
  obtain ⟨after, done, size, bits⟩ := cross_bits lim small step some_step short fuel (l * l) tab (by omega) (sifted_size lim small _ tab sifted) (by omega)
  refine ⟨after, done, size.trans sifted.size, fun i low less => ?_, fun i outside => ?_⟩
  · rw [bits, square, sifted.bits i low less, crosses i (by omega)]
    exact and_congr_right fun _ => not_congr ⟨And.right, fun some_k => ⟨less, some_k⟩⟩
  · refine (bits i).mpr ⟨sifted.rest i outside, ?_⟩
    rintro ⟨below, k, same⟩
    omega

omit small in
-- The candidates between two were crossed out or are even, so they are not prime.
theorem next_sifted (l next : Nat) (tab : Bitmap) (sifted : Sifted lim (l + 1) tab) (low : l + 1 ≤ next)
    (none : ∀ j, l + 1 ≤ j → j < next → ¬j.Prime) : Sifted lim next tab := by
  refine ⟨sifted.size, fun i large less => ?_, sifted.rest⟩
  rw [sifted.bits i large less]
  exact (kept_skip (l + 1) next i low none).symm

omit small in
theorem next_prime (next : Nat) (tab : Bitmap) (large : 2 ≤ next) (sifted : Sifted lim next tab) (less : next < lim.toNat) (set : bit tab next = true) :
    next.Prime := kept_self next large ((sifted.bits next large less).mp set)

end Candidates

section Sieves

variable (lim : Word) (small : lim.toNat ≤ 2 ^ 31) (fuel : Nat) (enough : lim.toNat < fuel)

theorem succ_toNat (l : Word) (low : l.toNat ≤ 2 ^ 31) : (l + 1).toNat = l.toNat + 1 := by
  have one : (1 : Word).toNat = 1 := rfl
  rw [BitVec.toNat_add, one, Nat.mod_eq_of_lt (by omega)]

-- A number whose bit is not set is no prime.
theorem clear_not_prime (l j : Nat) (tab : Bitmap) (large : 2 ≤ j) (sifted : Sifted lim l tab) (less : j < lim.toNat) (clear : bit tab j = false) :
    ¬j.Prime := by
  intro prime
  have set := (sifted.bits j large less).mpr (kept_prime l j prime)
  exact Bool.false_ne_true (clear.symm.trans set)

include small enough

theorem loop1_sieves (turns : Nat) (l : Word) (tab : Bitmap) (prime : l.toNat.Prime) (less : l.toNat < lim.toNat) (left : lim.toNat - l.toNat < turns)
    (sifted : Sifted lim l.toNat tab) : ∃ after, loop1 lim fuel turns l tab = some after ∧ Sieved lim after := by
  induction turns generalizing l tab with
  | zero => exact absurd left (Nat.not_lt_zero _)
  | succ turns ih =>
    have one : (1 : Word).toNat = 1 := rfl
    have bump := succ_toNat l (by omega)
    obtain ⟨crossed, done, kept⟩ := cross_sifted lim small fuel l l tab prime.two_le (by omega) prime.pos (by omega) enough sifted
      fun i positive => kept_cross l.toNat i positive prime
    obtain ⟨next, found, above, bound, set, clear⟩ := seek_first lim small 1 (by decide) (by decide) crossed (sifted_size lim small _ crossed kept) fuel
      (l + 1) (by omega) (by omega)
    have sifts : Sifted lim next.toNat crossed := by
      refine next_sifted lim l.toNat next.toNat crossed kept (by omega) fun j low high => ?_
      have here := clear (j - (l.toNat + 1)) (by rw [bump, one]; omega)
      rw [bump, one, Nat.mul_one, Nat.add_sub_cancel' low] at here
      exact clear_not_prime lim (l.toNat + 1) j crossed (by have large := prime.two_le; omega) kept here.1 here.2
    rw [loop1, done, Option.bind_eq_bind, Option.bind_some, found, Option.bind_eq_bind, Option.bind_some]
    by_cases last : next = lim
    · exact ⟨crossed, if_pos last, sifted_all lim next.toNat crossed sifts (by rw [last])⟩
    · have other : next.toNat ≠ lim.toNat := fun same => last (BitVec.eq_of_toNat_eq same)
      have inside : next.toNat < lim.toNat := by
        rw [one] at bound
        omega
      have prime' := next_prime lim next.toNat crossed (by have large := prime.two_le; omega) sifts inside (set inside)
      obtain ⟨after, looped, sieved⟩ := ih next crossed prime' inside (by omega) sifts
      exact ⟨after, (if_neg last).trans looped, sieved⟩

-- What the loops that go through the odd numbers need of their steps.
structure Strides (first : Nat) (step odd : Word → Word) : Prop where
  odd : ∀ l : Word, l.toNat ≤ 2 ^ 32 → (odd l).toNat = l.toNat + (l.toNat + 1) % 2
  positive : ∀ l : Word, l.toNat.Prime → l.toNat ≤ 2 ^ 31 → 0 < (step l).toNat ∧ (step l).toNat ≤ 2 ^ 33
  crosses : ∀ l : Word, l.toNat.Prime → first ≤ l.toNat → l.toNat ≤ 2 ^ 31 →
    ∀ i, 0 < i → (Kept (l.toNat + 1) i ↔ Kept l.toNat i ∧ ¬∃ k, i = l.toNat * l.toNat + k * (step l).toNat)

theorem loop_sieves (first : Nat) (step odd : Word → Word) (strides : Strides first step odd) (turns : Nat) (l : Word) (tab : Bitmap) (again : Bool)
    (prime : l.toNat.Prime) (start : first ≤ l.toNat) (low : l.toNat ≤ 2 ^ 31) (left : lim.toNat - l.toNat < turns) (sifted : Sifted lim l.toNat tab) :
    ∃ after came, loop lim step odd fuel turns l tab again = some (after, came) ∧ Sieved lim after := by
  induction turns generalizing l tab again with
  | zero => exact absurd left (Nat.not_lt_zero _)
  | succ turns ih =>
    have two : (2 : Word).toNat = 2 := rfl
    have large := prime.two_le
    have bump := succ_toNat l low
    have begins := strides.odd (l + 1) (by omega)
    obtain ⟨positive, short⟩ := strides.positive l prime low
    obtain ⟨crossed, done, kept⟩ := cross_sifted lim small fuel l (step l) tab large low positive short enough sifted (strides.crosses l prime start low)
    obtain ⟨next, found, above, bound, set, clear⟩ := seek_first lim small 2 (by decide) (by decide) crossed (sifted_size lim small _ crossed kept) fuel
      (odd (l + 1)) (by omega) (by omega)
    have sifts : Sifted lim next.toNat crossed := by
      refine next_sifted lim l.toNat next.toNat crossed kept (by omega) fun j from_l high => ?_
      rcases Nat.mod_two_eq_zero_or_one j with even | uneven
      · intro prime'
        have whole := (Nat.prime_dvd_prime_iff_eq Nat.prime_two prime').mp (Nat.dvd_of_mod_eq_zero even)
        omega
      · have reach : (odd (l + 1)).toNat + (j - (odd (l + 1)).toNat) / 2 * 2 = j := by omega
        have here := clear ((j - (odd (l + 1)).toNat) / 2) (by rw [two, reach]; exact high)
        rw [two, reach] at here
        exact clear_not_prime lim (l.toNat + 1) j crossed (by omega) kept here.1 here.2
    rw [loop, done, Option.bind_eq_bind, Option.bind_some, found, Option.bind_eq_bind, Option.bind_some]
    by_cases last : lim.toNat ≤ next.toNat
    · exact ⟨crossed, again, if_pos (decide_eq_true last), sifted_all lim next.toNat crossed sifts last⟩
    · have prime' := next_prime lim next.toNat crossed (by omega) sifts (by omega) (set (by omega))
      obtain ⟨after, came, looped, sieved⟩ := ih next crossed true prime' (by omega) (by omega) (by omega) sifts
      exact ⟨after, came, (if_neg fun behind => last (of_decide_eq_true behind)).trans looped, sieved⟩

end Sieves

section Strides

theorem parity (l : Word) : (l &&& 1 = 0) ↔ l.toNat % 2 = 0 := by
  have low : (l &&& 1).toNat = l.toNat % 2 := Nat.and_two_pow_sub_one_eq_mod l.toNat 1
  rw [← BitVec.toNat_inj, low]
  rfl

theorem tick_toNat (l : Word) (low : l.toNat ≤ 2 ^ 32) : (tick l).toNat = l.toNat + (l.toNat + 1) % 2 := by
  have one : (1 : Word).toNat = 1 := rfl
  have zero : (0 : Word).toNat = 0 := rfl
  rw [tick, BitVec.toNat_add]
  by_cases even : l.toNat % 2 = 0
  · rw [if_pos ((parity l).mpr even), one]
    omega
  · rw [if_neg fun same => even ((parity l).mp same), zero]
    omega

theorem whole_strides (odd : Word → Word) (odds : ∀ l : Word, l.toNat ≤ 2 ^ 32 → (odd l).toNat = l.toNat + (l.toNat + 1) % 2) :
    Strides 2 (fun l => l) odd :=
  ⟨odds, fun _ prime low => ⟨prime.pos, by omega⟩, fun l prime _ _ i positive => kept_cross l.toNat i positive prime⟩

theorem double_strides : Strides 3 (fun l => l <<< 1) tick := by
  have double : ∀ l : Word, l.toNat ≤ 2 ^ 31 → (l <<< 1).toNat = 2 * l.toNat := by
    intro l low
    rw [BitVec.toNat_shiftLeft, Nat.shiftLeft_eq, Nat.pow_one, Nat.mod_eq_of_lt (by omega), Nat.mul_comm]
  refine ⟨tick_toNat, fun l prime low => ?_, fun l prime start low i positive => ?_⟩
  · have some_l := prime.pos
    have twice := double l low
    omega
  · rw [double l low]
    exact kept_cross_odd l.toNat i positive prime start

end Strides

section Results

variable (lim : Word) (high : lim.toNat ≤ 2 ^ 31) (fuel : Nat) (enough : lim.toNat < fuel)
include high enough

theorem sieve1_sieves (low : 4 ≤ lim.toNat) : ∃ tab, sieve1 lim fuel = some tab ∧ Sieved lim tab :=
  loop1_sieves lim high fuel enough fuel 2 (filled lim) Nat.prime_two (show 2 < lim.toNat by omega) (by omega) (filled_sifted lim)

theorem loop_from_two (odd : Word → Word) (odds : ∀ l : Word, l.toNat ≤ 2 ^ 32 → (odd l).toNat = l.toNat + (l.toNat + 1) % 2) :
    ∃ tab, (loop lim (fun l => l) odd fuel fuel 2 (filled lim) false).map Prod.fst = some tab ∧ Sieved lim tab := by
  obtain ⟨after, came, looped, sieved⟩ := loop_sieves lim high fuel enough 2 _ odd (whole_strides odd odds) fuel 2 (filled lim) false Nat.prime_two
    (Nat.le_refl 2) (by decide) (by omega) (filled_sifted lim)
  exact ⟨after, by rw [looped]; rfl, sieved⟩

theorem sieve2_sieves : ∃ tab, sieve2 lim fuel = some tab ∧ Sieved lim tab := by
  refine loop_from_two lim high fuel enough _ fun l low => ?_
  have one : (1 : Word).toNat = 1 := rfl
  split_ifs with even
  · rw [BitVec.toNat_add, one]
    have zero := (parity l).mp even
    omega
  · have other : l.toNat % 2 ≠ 0 := fun zero => even ((parity l).mpr zero)
    omega

theorem sieve3_sieves : ∃ tab, sieve3 lim fuel = some tab ∧ Sieved lim tab := loop_from_two lim high fuel enough tick tick_toNat

-- The even numbers go first, in the table of any limit.
theorem sieve4_loop : ∃ tab after came, cross lim 2 fuel (2 * 2) (filled lim) = some tab ∧
    loop lim (fun l => l <<< 1) tick fuel fuel 3 tab false = some (after, came) ∧ Sieved lim after := by
  obtain ⟨tab, crossed, sifted⟩ := cross_sifted lim high fuel 2 2 (filled lim) (Nat.le_refl 2) (by decide) (by decide) (by decide) enough (filled_sifted lim)
    fun i positive => kept_cross 2 i positive Nat.prime_two
  obtain ⟨after, came, looped, sieved⟩ := loop_sieves lim high fuel enough 3 _ tick double_strides fuel 3 tab false Nat.prime_three (Nat.le_refl 3)
    (by decide) (by omega) sifted
  exact ⟨tab, after, came, crossed, looped, sieved⟩

theorem sieve4_sieves : ∃ tab, sieve4 lim fuel = some tab ∧ Sieved lim tab := by
  obtain ⟨tab, after, came, crossed, looped, sieved⟩ := sieve4_loop lim high fuel enough
  exact ⟨after, by rw [sieve4, crossed, Option.bind_eq_bind, Option.bind_some, looped]; rfl, sieved⟩

end Results

theorem sieves_agree (lim : Word) (low : 4 ≤ lim.toNat) (high : lim.toNat ≤ 2 ^ 31) :
    ∃ enough, ∀ fuel, enough ≤ fuel → ∀ sieve ∈ [sieve1, sieve2, sieve3, sieve4], ∃ tab, sieve lim fuel = some tab ∧ Sieved lim tab := by
  refine ⟨lim.toNat + 1, fun fuel enough sieve member => ?_⟩
  simp only [List.mem_cons, List.not_mem_nil, or_false] at member
  rcases member with rfl | rfl | rfl | rfl
  · exact sieve1_sieves lim high fuel enough low
  · exact sieve2_sieves lim high fuel enough
  · exact sieve3_sieves lim high fuel enough
  · exact sieve4_sieves lim high fuel enough

theorem sieves_agree_million :
    ∃ enough, ∀ fuel, enough ≤ fuel → ∀ sieve ∈ [sieve1, sieve2, sieve3, sieve4], ∃ tab, sieve 1000000 fuel = some tab ∧ Sieved 1000000 tab :=
  sieves_agree 1000000 (by decide) (by decide)

end OsZero.Prime

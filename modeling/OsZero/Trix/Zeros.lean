import OsZero.Lib.Magic
import OsZero.Trix.Mulrange
import OsZero.UserMem.Slot

set_option autoImplicit false

namespace OsZero.Trix.Zeros

open Halving

section Macros

variable {w : Nat}

-- __tmp, __mask and r.
structure Count (w : Nat) where
  tmp : BitVec w
  mask : BitVec w
  r : Nat

-- if (!(__tmp & __mask)), with the mask that is to be used.
def turn (shift : BitVec w → Nat → BitVec w) (n : Nat) (count : Count w) : Count w :=
  if count.tmp &&& count.mask = 0 then ⟨shift count.tmp n, count.mask, count.r + n⟩ else count

def turns (shift : BitVec w → Nat → BitVec w) : List Nat → Count w → Count w
  | [], count => count
  | n :: ns, count => turns shift ns (turn shift n { count with mask := shift count.mask n })

-- The macros are one text, up to the way they shift and the masks and sizes they start with.
-- The last test is of one bit, and nothing is shifted behind it.
def zeros (shift : BitVec w → Nat → BitVec w) (bit mask : BitVec w) (n : Nat) (ns : List Nat) (u : BitVec w) : Nat :=
  if u = 0 then w
  else if u &&& bit = 0 then
    let count := turns shift ns (turn shift n ⟨u, mask, 0⟩)
    if count.tmp &&& shift count.mask 1 = 0 then count.r + 1 else count.r
  else 0

end Macros

def tzero32 (u32 : BitVec 32) : Nat := zeros (· >>> ·) 0x01 0xffff 16 [8, 4, 2] u32

def lzero32 (u32 : BitVec 32) : Nat := zeros (· <<< ·) (0x01 <<< 31) (0xffffffff <<< 16) 16 [8, 4, 2] u32

def tzero64 (u64 : BitVec 64) : Nat := zeros (· >>> ·) 0x01 0xffffffff 32 [16, 8, 4, 2] u64

def lzero64 (u64 : BitVec 64) : Nat := zeros (· <<< ·) (0x01 <<< 63) (0xffffffff <<< 32) 32 [16, 8, 4, 2] u64

section Counts

variable {w : Nat}

-- The bits counted from the end that a shift drops.
structure View (get : BitVec w → Nat → Bool) (shift : BitVec w → Nat → BitVec w) : Prop where
  shifted : ∀ x n i, get (shift x n) i = get x (i + n)
  both : ∀ x y i, get (x &&& y) i = (get x i && get y i)
  zero : ∀ x, x = 0 ↔ ∀ i, get x i = false

variable (get : BitVec w → Nat → Bool) (shift : BitVec w → Nat → BitVec w) (view : View get shift)

def Masks (mask : BitVec w) (n : Nat) : Prop := ∀ i, get mask i = decide (i < n)

include view

theorem masked_zero (x mask : BitVec w) (n : Nat) (masks : Masks get mask n) : x &&& mask = 0 ↔ ∀ i < n, get x i = false := by
  rw [view.zero]
  apply forall_congr'
  intro i
  rw [view.both, masks i]
  by_cases low : i < n <;> simp [low]

theorem masks_shift (mask : BitVec w) (n m : Nat) (masks : Masks get mask (n + m)) : Masks get (shift mask n) m := by
  intro i
  rw [view.shifted, masks (i + n)]
  by_cases low : i < m
  · simp only [low, decide_true, decide_eq_true_eq]
    omega
  · simp only [low, decide_false, decide_eq_false_iff_not]
    omega

theorem turn_search (u : BitVec w) (n : Nat) (count : Count w) (place : ∀ i, get count.tmp i = get u (count.r + i)) (masks : Masks get count.mask n) :
    (turn shift n count).mask = count.mask ∧
      (turn shift n count).r = (if ∀ i < n, get u (count.r + i) = false then count.r + n else count.r) ∧
      ∀ i, get (turn shift n count).tmp i = get u ((turn shift n count).r + i) := by
  have test := masked_zero get shift view count.tmp count.mask n masks
  simp only [place] at test
  by_cases clear : ∀ i < n, get u (count.r + i) = false
  · have turned : turn shift n count = ⟨shift count.tmp n, count.mask, count.r + n⟩ := if_pos (test.mpr clear)
    refine ⟨by rw [turned], by rw [turned, if_pos clear], fun i => ?_⟩
    rw [turned, view.shifted, place, Nat.add_comm i n, Nat.add_assoc]
  · have stayed : turn shift n count = count := if_neg fun zero => clear (test.mp zero)
    exact ⟨by rw [stayed], by rw [stayed, if_neg clear], by rw [stayed]; exact place⟩

-- The turns search as Halving does; the mask is a half of the window before it.
theorem turns_search (u : BitVec w) (ns : List Nat) (n : Nat) (count : Count w) (place : ∀ i, get count.tmp i = get u (count.r + i))
    (masks : Masks get count.mask n) (halved : Halves (ns ++ [1]) n) :
    Masks get (turns shift ns count).mask 2 ∧ (∀ i, get (turns shift ns count).tmp i = get u ((turns shift ns count).r + i)) ∧
      (turns shift ns count).r = search (get u) ns count.r := by
  induction ns generalizing n count with
  | nil =>
      have two : n = 2 := halved.1
      rw [two] at masks
      exact ⟨masks, place, rfl⟩
  | cons m ms ih =>
      have double : n = m + m := halved.1
      rw [double] at masks
      have smaller := masks_shift get shift view count.mask m m masks
      obtain ⟨mask, r, tmp⟩ := turn_search get shift view u m { count with mask := shift count.mask m } place smaller
      rw [turns, search]
      have rest := ih m (turn shift m { count with mask := shift count.mask m }) tmp (by rw [mask]; exact smaller) halved.2
      rw [r] at rest
      exact rest

theorem zeros_first (bit mask : BitVec w) (n : Nat) (ns : List Nat) (low : Masks get bit 1) (masks : Masks get mask n)
    (halved : Halves (n :: ns ++ [1]) w) (wide : ∀ x i, w ≤ i → get x i = false) (u : BitVec w) (nonzero : u ≠ 0) :
    First (get u) (zeros shift bit mask n ns u) := by
  have test := masked_zero get shift view u bit 1 low
  rw [zeros, if_neg nonzero]
  by_cases clear : u &&& bit = 0
  · simp only [clear, if_true]
    obtain ⟨same, r, tmp⟩ := turn_search get shift view u n ⟨u, mask, 0⟩ (fun i => by simp) masks
    obtain ⟨last, place, found⟩ := turns_search get shift view u ns n (turn shift n ⟨u, mask, 0⟩) tmp (by rw [same]; exact masks) halved.2
    have one := masked_zero get shift view (turns shift ns (turn shift n ⟨u, mask, 0⟩)).tmp _ 1
      (masks_shift get shift view (turns shift ns (turn shift n ⟨u, mask, 0⟩)).mask 1 1 last)
    have window : ∃ i < w, get u (0 + i) = true := by
      by_contra off
      apply nonzero
      rw [view.zero]
      intro i
      by_cases small : i < w
      · exact Bool.eq_false_iff.mpr fun on => off ⟨i, small, by rw [Nat.zero_add]; exact on⟩
      · exact wide u i (Nat.le_of_not_lt small)
    have first := search_first (get u) (n :: ns ++ [1]) w 0 halved (fun i less => absurd less (Nat.not_lt_zero i)) window
    have whole : search (get u) (n :: ns) 0 = (turns shift ns (turn shift n ⟨u, mask, 0⟩)).r := by
      rw [found, r]
      rfl
    rw [search_append, whole] at first
    simp only [one, place]
    exact first
  · rw [if_neg clear]
    refine ⟨fun i less => absurd less (Nat.not_lt_zero i), ?_⟩
    by_contra off
    apply clear
    rw [test]
    intro i less
    rw [show i = 0 by omega]
    exact Bool.eq_false_iff.mpr off

end Counts

theorem low_view (w : Nat) : View (BitVec.getLsbD : BitVec w → Nat → Bool) (· >>> ·) := by
  refine ⟨fun x n i => ?_, fun x y i => BitVec.getLsbD_and, fun x => ⟨fun zero i => by rw [zero]; exact BitVec.getLsbD_zero, fun all => ?_⟩⟩
  · rw [BitVec.getLsbD_ushiftRight, Nat.add_comm]
  · apply BitVec.eq_of_getLsbD_eq
    intro i _
    rw [all i]
    exact BitVec.getLsbD_zero.symm

theorem high_view (w : Nat) : View (BitVec.getMsbD : BitVec w → Nat → Bool) (· <<< ·) := by
  refine ⟨fun x n i => BitVec.getMsbD_shiftLeft x n, fun x y i => BitVec.getMsbD_and,
    fun x => ⟨fun zero i => by rw [zero]; exact BitVec.getMsbD_zero, fun all => ?_⟩⟩
  apply BitVec.eq_of_getMsbD_eq
  intro i _
  rw [all i]
  exact BitVec.getMsbD_zero.symm

theorem masks_within {w : Nat} (get : BitVec w → Nat → Bool) (wide : ∀ x i, w ≤ i → get x i = false) (mask : BitVec w) (n : Nat) (fits : n ≤ w)
    (within : ∀ i < w, get mask i = decide (i < n)) : Masks get mask n := by
  intro i
  by_cases small : i < w
  · exact within i small
  · rw [wide mask i (Nat.le_of_not_lt small)]
    exact (decide_eq_false (by omega)).symm

theorem lzero_first {w : Nat} (u : BitVec w) (nonzero : u ≠ 0) : First u.getMsbD (lzero u) := by
  have positive : u.toNat ≠ 0 := fun zero => nonzero (BitVec.eq_of_toNat_eq zero)
  have top : u.toNat.log2 < w := (Nat.log2_lt positive).mpr u.isLt
  rw [lzero, if_neg nonzero]
  constructor
  · intro i less
    rw [BitVec.getMsbD_eq_getLsbD, decide_eq_true (by omega), Bool.true_and]
    apply Nat.testBit_lt_two_pow
    apply Nat.lt_of_lt_of_le Nat.lt_log2_self
    exact Nat.pow_le_pow_right (by decide) (by omega)
  · rw [BitVec.getMsbD_eq_getLsbD, decide_eq_true (by omega), Bool.true_and, show w - 1 - (w - 1 - u.toNat.log2) = u.toNat.log2 by omega]
    exact Nat.testBit_log2 positive

theorem tzeroll_first (u : BitVec 64) (nonzero : u ≠ 0) : First u.getLsbD (UserMem.tzeroll u) := by
  rw [UserMem.tzeroll]
  cases found : (List.range 64).find? fun i => u.getLsbD i with
  | none =>
      simp only [List.find?_range_eq_none, Bool.not_eq_true'] at found
      refine absurd (((low_view 64).zero u).mpr fun i => ?_) nonzero
      by_cases small : i < 64
      · exact found i small
      · exact BitVec.getLsbD_of_ge u i (Nat.le_of_not_lt small)
  | some place =>
      obtain ⟨here, member, before⟩ := List.find?_range_eq_some.mp found
      exact ⟨fun i less => by simpa using before i less, here⟩

theorem low_first {w : Nat} (mask : BitVec w) (n : Nat) (ns : List Nat) (bits : ∀ i < w, (1#w).getLsbD i = decide (i < 1))
    (within : ∀ i < w, mask.getLsbD i = decide (i < n)) (fits : 1 ≤ w ∧ n ≤ w) (halved : Halves (n :: ns ++ [1]) w) (u : BitVec w)
    (nonzero : u ≠ 0) : First u.getLsbD (zeros (· >>> ·) 1#w mask n ns u) := by
  have wide : ∀ (x : BitVec w) i, w ≤ i → x.getLsbD i = false := BitVec.getLsbD_of_ge
  exact zeros_first _ _ (low_view w) _ mask n ns (masks_within _ wide _ 1 fits.1 bits) (masks_within _ wide _ n fits.2 within) halved wide u nonzero

theorem high_first {w : Nat} (bit mask : BitVec w) (n : Nat) (ns : List Nat) (bits : ∀ i < w, bit.getMsbD i = decide (i < 1))
    (within : ∀ i < w, mask.getMsbD i = decide (i < n)) (fits : 1 ≤ w ∧ n ≤ w) (halved : Halves (n :: ns ++ [1]) w) (u : BitVec w)
    (nonzero : u ≠ 0) : First u.getMsbD (zeros (· <<< ·) bit mask n ns u) := by
  have wide : ∀ (x : BitVec w) i, w ≤ i → x.getMsbD i = false := BitVec.getMsbD_of_ge
  exact zeros_first _ _ (high_view w) bit mask n ns (masks_within _ wide _ 1 fits.1 bits) (masks_within _ wide _ n fits.2 within) halved wide u nonzero

-- The number of zero bits in front of the first set one, and the width where there is none.
def Counted {w : Nat} (get : Nat → Bool) (u : BitVec w) (r : Nat) : Prop := if u = 0 then r = w else First get r

theorem counted_unique {w : Nat} (get : Nat → Bool) (u : BitVec w) (r other : Nat) (first : Counted get u r) (second : Counted get u other) : r = other := by
  by_cases zero : u = 0
  · rw [Counted, if_pos zero] at first second
    rw [first, second]
  · rw [Counted, if_neg zero] at first second
    exact first_unique get r other first second

theorem counted_of {w : Nat} (get : Nat → Bool) (count : BitVec w → Nat) (u : BitVec w) (zero : count 0 = w) (first : u ≠ 0 → First get (count u)) :
    Counted get u (count u) := by
  by_cases nothing : u = 0
  · rw [Counted, if_pos nothing, nothing, zero]
  · rw [Counted, if_neg nothing]
    exact first nothing

theorem tzero32_counted (u : BitVec 32) : Counted u.getLsbD u (tzero32 u) :=
  counted_of _ tzero32 u (by decide) (low_first 0xffff 16 [8, 4, 2] (by decide) (by decide) (by decide) ⟨rfl, rfl, rfl, rfl, rfl, rfl⟩ u)

theorem lzero32_counted (u : BitVec 32) : Counted u.getMsbD u (lzero32 u) :=
  counted_of _ lzero32 u (by decide) (high_first _ _ 16 [8, 4, 2] (by decide) (by decide) (by decide) ⟨rfl, rfl, rfl, rfl, rfl, rfl⟩ u)

theorem tzero64_counted (u : BitVec 64) : Counted u.getLsbD u (tzero64 u) :=
  counted_of _ tzero64 u (by decide) (low_first 0xffffffff 32 [16, 8, 4, 2] (by decide) (by decide) (by decide) ⟨rfl, rfl, rfl, rfl, rfl, rfl, rfl⟩ u)

theorem lzero64_counted (u : BitVec 64) : Counted u.getMsbD u (lzero64 u) :=
  counted_of _ lzero64 u (by decide) (high_first _ _ 32 [16, 8, 4, 2] (by decide) (by decide) (by decide) ⟨rfl, rfl, rfl, rfl, rfl, rfl, rfl⟩ u)

theorem ctz_first (u : BitVec 32) (nonzero : u ≠ 0) : First u.getLsbD u.ctz.toNat :=
  ⟨fun _ less => BitVec.getLsbD_false_of_lt_ctz less, BitVec.getLsbD_true_ctz_of_ne_zero nonzero⟩

theorem ctz_none : (0#32).ctz.toNat = 32 := by
  rw [BitVec.ctz_eq_reverse_clz, BitVec.clz_eq_iff_eq_zero.mpr (BitVec.reverse_eq_zero_iff.mpr rfl)]
  rfl

theorem tzeroll_none : UserMem.tzeroll 0 = 64 := by
  have off : (List.range 64).find? (fun i => (0 : BitVec 64).getLsbD i) = none := List.find?_eq_none.mpr (by simp)
  rw [UserMem.tzeroll, off]
  rfl

-- The text for other compilers counts as the one for gcc does.
theorem zeros_counted (u32 : BitVec 32) (u64 : BitVec 64) :
    (Counted u32.getLsbD u32 (tzero32 u32) ∧ tzero32 u32 = u32.ctz.toNat) ∧
      (Counted u32.getMsbD u32 (lzero32 u32) ∧ lzero32 u32 = lzero u32) ∧
      (Counted u64.getLsbD u64 (tzero64 u64) ∧ tzero64 u64 = UserMem.tzeroll u64) ∧
      (Counted u64.getMsbD u64 (lzero64 u64) ∧ lzero64 u64 = lzero u64) := by
  have ctz := counted_of u32.getLsbD (fun u => u.ctz.toNat) u32 ctz_none (ctz_first u32)
  have high32 := counted_of u32.getMsbD lzero u32 rfl (lzero_first u32)
  have low64 := counted_of u64.getLsbD UserMem.tzeroll u64 tzeroll_none (tzeroll_first u64)
  have high64 := counted_of u64.getMsbD lzero u64 rfl (lzero_first u64)
  exact ⟨⟨tzero32_counted u32, counted_unique _ u32 _ _ (tzero32_counted u32) ctz⟩,
    ⟨lzero32_counted u32, counted_unique _ u32 _ _ (lzero32_counted u32) high32⟩,
    ⟨tzero64_counted u64, counted_unique _ u64 _ _ (tzero64_counted u64) low64⟩,
    ⟨lzero64_counted u64, counted_unique _ u64 _ _ (lzero64_counted u64) high64⟩⟩

end OsZero.Trix.Zeros

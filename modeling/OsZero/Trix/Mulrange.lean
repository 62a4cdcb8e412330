import Mathlib.Data.BitVec
import Mathlib.Data.Nat.Prime.Basic
import OsZero.Lib.Magic

set_option autoImplicit false

namespace OsZero.Trix

section Macros

variable {w : Nat}

def powerof2 (x : BitVec w) : Bool := (x &&& (x - 1)) == 0

-- The sign is all bits of a >> (CHAR_BIT * sizeof(a) - 1).
def zeroabs (a : BitVec w) : BitVec w := (a ^^^ a.sshiftRight (w - 1)) - a.sshiftRight (w - 1)

-- lzero32 and lzero64, by __builtin_clz.
def lzero (u : BitVec w) : Nat := if u = 0 then w else w - 1 - u.toNat.log2

-- chkmulrng32 and chkmulrng64 are the same text over their widths; INT_MIN and
-- INT_MAX are those of int in both, here in the type of the factors.
def chkmulrng (INT_MIN INT_MAX a b res : BitVec w) : Int :=
  if a = 0 ∨ b = 0 ∨ a = 1 ∨ b = 1 then 0
  else if a = INT_MIN ∨ b = INT_MIN then -1
  else if (powerof2 a ∧ res = INT_MIN) ∨ (powerof2 b ∧ res = INT_MIN) then 0
  else
    let a := zeroabs a
    let b := zeroabs b
    let nsigbit := w - lzero a
    let nsigbit := nsigbit + (w - lzero b)
    if nsigbit = w then if (INT_MAX.sdiv b).slt a then 1 else 0
    else if w < nsigbit then 1 else 0

end Macros

def chkmulrng32 (a b res : BitVec 32) : Int := chkmulrng (-2147483648) 2147483647 a b res

def chkmulrng64 (a b res : BitVec 64) : Int := chkmulrng (-2147483648) 2147483647 a b res

-- What a check answers for a product of w bits.
def Ranges (w : Nat) (product answer : Int) : Prop :=
  (answer = 0 ↔ -2 ^ (w - 1) ≤ product ∧ product < 2 ^ (w - 1)) ∧ (answer < 0 ↔ product < -2 ^ (w - 1)) ∧ (0 < answer ↔ 2 ^ (w - 1) ≤ product)

-- The bits of both factors' absolute values, as the check counts them.
def nsigbit {w : Nat} (a b : BitVec w) : Nat := w - lzero (zeroabs a) + (w - lzero (zeroabs b))

section Answers

variable (w : Nat) (product : Int)

theorem ranges_zero : Ranges w product 0 ↔ -2 ^ (w - 1) ≤ product ∧ product < 2 ^ (w - 1) := by
  have positive : (0 : Int) < 2 ^ (w - 1) := Int.pow_pos (by decide)
  rw [Ranges]
  omega

theorem ranges_less : Ranges w product (-1) ↔ product < -2 ^ (w - 1) := by
  have positive : (0 : Int) < 2 ^ (w - 1) := Int.pow_pos (by decide)
  rw [Ranges]
  omega

theorem ranges_more : Ranges w product 1 ↔ 2 ^ (w - 1) ≤ product := by
  have positive : (0 : Int) < 2 ^ (w - 1) := Int.pow_pos (by decide)
  rw [Ranges]
  omega

end Answers

section Factors

variable {w : Nat} (a b : BitVec w)

theorem sign_bits (some_bits : 0 < w) : a.sshiftRight (w - 1) = if a.msb then BitVec.allOnes w else 0#w := by
  apply BitVec.eq_of_getLsbD_eq
  intro i inside
  have all : (a.sshiftRight (w - 1)).getLsbD i = a.msb := by
    rw [BitVec.getLsbD_sshiftRight, decide_eq_false (by omega : ¬w ≤ i)]
    split
    · rename_i first
      rw [BitVec.msb_eq_getLsbD_last, (by omega : w - 1 + i = w - 1)]
      rfl
    · rfl
  rw [all]
  cases a.msb with
  | false => simp
  | true =>
      rw [if_pos rfl, BitVec.getLsbD_allOnes, decide_eq_true inside]

theorem zeroabs_toNat (some_bits : 0 < w) : (zeroabs a).toNat = a.toInt.natAbs := by
  have least := a.isLt
  rw [zeroabs, sign_bits a some_bits]
  cases negative : a.msb with
  | false =>
      have value := BitVec.toInt_eq_toNat_of_msb negative
      simp [value]
  | true =>
      have value := BitVec.toInt_eq_msb_cond a
      rw [negative, if_pos rfl] at value
      have negated : ~~~a - BitVec.allOnes w = -a := by
        rw [← BitVec.neg_one_eq_allOnes, BitVec.sub_neg, BitVec.neg_eq_not_add]
      have large := BitVec.msb_eq_true_iff_two_mul_ge.mp negative
      rw [if_pos rfl, BitVec.xor_allOnes, negated, BitVec.toNat_neg, Nat.mod_eq_of_lt (by omega), value]
      omega

-- The significant bits of a factor that is not zero.
theorem significant (some_bits : 0 < w) (some_ : a ≠ 0) :
    ∃ s, w - lzero (zeroabs a) = s + 1 ∧ 2 ^ s ≤ a.toInt.natAbs ∧ a.toInt.natAbs < 2 ^ (s + 1) := by
  have value := zeroabs_toNat a some_bits
  have positive : 0 < a.toInt.natAbs := Int.natAbs_pos.mpr fun zero => some_ (BitVec.eq_of_toInt_eq (zero.trans BitVec.toInt_zero.symm))
  have other : zeroabs a ≠ 0 := fun zero => by
    rw [zero] at value
    exact absurd value.symm (Nat.pos_iff_ne_zero.mp positive)
  obtain ⟨low, high⟩ := Magic.log_between _ positive
  have less : a.toInt.natAbs.log2 < w := by
    rw [← value]
    exact Nat.log2_lt (by omega) |>.mpr (zeroabs a).isLt
  refine ⟨a.toInt.natAbs.log2, ?_, low, high⟩
  rw [lzero, if_neg other, value]
  omega

theorem product_between (some_bits : 0 < w) (first : a ≠ 0) (second : b ≠ 0) :
    ∃ s, nsigbit a b = s + 2 ∧ 2 ^ s ≤ (a.toInt * b.toInt).natAbs ∧ (a.toInt * b.toInt).natAbs < 2 ^ (s + 2) := by
  obtain ⟨m, bits, low, high⟩ := significant a some_bits first
  obtain ⟨n, bits', low', high'⟩ := significant b some_bits second
  refine ⟨m + n, by rw [nsigbit, bits, bits']; omega, ?_, ?_⟩
  · rw [Int.natAbs_mul, Nat.pow_add]
    exact Nat.mul_le_mul low low'
  · have split : m + n + 2 = (m + 1) + (n + 1) := by omega
    rw [Int.natAbs_mul, split, Nat.pow_add]
    exact Nat.mul_lt_mul'' high high'

-- A positive factor of a power of two is one.
theorem powerof2_divides (positive : 0 < b.toInt) (k : Nat) (divides : b.toInt.natAbs ∣ 2 ^ k) : powerof2 b = true := by
  have sign : b.toInt = b.toNat := BitVec.toInt_eq_toNat_of_msb (by
    cases negative : b.msb with
    | false => rfl
    | true =>
        have value := BitVec.toInt_neg_of_msb_true negative
        omega)
  rw [sign, Int.natAbs_natCast] at divides
  obtain ⟨j, -, power⟩ := (Nat.dvd_prime_pow Nat.prime_two).mp divides
  have some_ : 0 < b.toNat := by omega
  have least : 1#w ≤ b := by
    rw [BitVec.le_def]
    have small : (1#w).toNat ≤ 1 := by
      rw [BitVec.toNat_ofNat]
      exact Nat.mod_le ..
    omega
  have large : 1 < 2 ^ w := Nat.lt_of_le_of_lt some_ b.isLt
  have one : (1#w).toNat = 1 := by
    rw [BitVec.toNat_ofNat, Nat.mod_eq_of_lt large]
  rw [powerof2, beq_iff_eq]
  apply BitVec.eq_of_toNat_eq
  have less : (b - 1).toNat = b.toNat - 1 := (BitVec.toNat_sub_of_le least).trans (by rw [one])
  rw [BitVec.toNat_and, less, (Magic.power_of_two_eq b.toNat some_).mpr (by rw [power, Nat.log2_two_pow])]
  simp

-- A product that is exactly the least one has such a factor.
theorem powerof2_least (k : Nat) (least : a.toInt * b.toInt = -2 ^ k) : powerof2 a = true ∨ powerof2 b = true := by
  have sizes : a.toInt.natAbs * b.toInt.natAbs = 2 ^ k := by
    rw [← Int.natAbs_mul, least, Int.natAbs_neg]
    exact Int.natAbs_pow ..
  have negative : (-2 ^ k : Int) < 0 := Int.neg_neg_of_pos (Int.pow_pos (by decide))
  rcases Int.lt_trichotomy a.toInt 0 with low | zero | high
  · refine .inr (powerof2_divides b ?_ k (Dvd.intro_left _ sizes))
    by_contra other
    have product := Int.mul_nonneg_of_nonpos_of_nonpos (Int.le_of_lt low) (Int.not_lt.mp other)
    omega
  · rw [zero, Int.zero_mul] at least
    omega
  · exact .inl (powerof2_divides a high k (Dvd.intro _ sizes))

theorem zeroabs_toInt (some_bits : 0 < w) (small : a.toInt.natAbs < 2 ^ (w - 1)) : (zeroabs a).toInt = a.toInt.natAbs := by
  have value := zeroabs_toNat a some_bits
  have double : 2 * 2 ^ (w - 1) = 2 ^ w := by
    rw [Nat.mul_comm, Nat.pow_pred_mul some_bits]
  rw [BitVec.toInt_eq_toNat_of_lt (by omega), value]

-- The slow division compares the product with INT_MAX.
theorem slow_division (some_bits : 0 < w) (most : BitVec w) (limit : Nat) (value : most.toInt = limit) (first : a.toInt.natAbs < 2 ^ (w - 1))
    (second : b.toInt.natAbs < 2 ^ (w - 1)) (some_ : b.toInt ≠ 0) :
    (most.sdiv (zeroabs b)).slt (zeroabs a) = true ↔ limit < (a.toInt * b.toInt).natAbs := by
  have other : most ≠ BitVec.intMin w := by
    rintro rfl
    rw [BitVec.toInt_intMin_of_pos some_bits] at value
    have positive : (0 : Int) < 2 ^ (w - 1) := Int.pow_pos (by decide)
    omega
  have positive : 0 < b.toInt.natAbs := Int.natAbs_pos.mpr some_
  rw [BitVec.slt_iff_toInt_lt, BitVec.toInt_sdiv_of_ne_or_ne _ _ (Or.inl other), value, zeroabs_toInt a some_bits first,
    zeroabs_toInt b some_bits second, Int.tdiv_eq_ediv_of_nonneg (Int.natCast_nonneg _), ← Int.natCast_ediv, Int.ofNat_lt, Int.natAbs_mul,
    Nat.div_lt_iff_lt_mul positive]

theorem not_least (some_bits : 0 < w) (other : a ≠ BitVec.intMin w) : a.toInt.natAbs < 2 ^ (w - 1) := by
  have low := BitVec.le_toInt a
  have high := BitVec.toInt_lt (x := a)
  have different : a.toInt ≠ -2 ^ (w - 1) := fun same => other (BitVec.eq_of_toInt_eq (same.trans (BitVec.toInt_intMin_of_pos some_bits).symm))
  have power : ((2 ^ (w - 1) : Nat) : Int) = 2 ^ (w - 1) := by
    rw [Nat.cast_pow]
    rfl
  omega

end Factors

section Checks

theorem int_of_one (w : Nat) (some_bits : 1 < w) (a : BitVec w) (same : a = 1) : a.toInt = 1 := by
  rw [same]
  have one : (1 : BitVec w).toInt = (1#w).toInt := rfl
  rw [one, BitVec.toInt_one some_bits]

-- Behind the special cases the check counts and divides.
theorem chkmulrng_last (w : Nat) (least most a b res : BitVec w) (small : ¬(a = 0 ∨ b = 0 ∨ a = 1 ∨ b = 1)) (other : ¬(a = least ∨ b = least))
    (plain : ¬((powerof2 a ∧ res = least) ∨ (powerof2 b ∧ res = least))) : chkmulrng least most a b res =
      if nsigbit a b = w then if (most.sdiv (zeroabs b)).slt (zeroabs a) then 1 else 0 else if w < nsigbit a b then 1 else 0 := by
  rw [chkmulrng, if_neg small, if_neg other, if_neg plain]
  rfl

theorem chkmulrng_small (w : Nat) (least most a b res : BitVec w) (some_bits : 1 < w) (small : a = 0 ∨ b = 0 ∨ a = 1 ∨ b = 1) :
    chkmulrng least most a b res = 0 ∧ -2 ^ (w - 1) ≤ a.toInt * b.toInt ∧ a.toInt * b.toInt < 2 ^ (w - 1) := by
  have positive : (0 : Int) < 2 ^ (w - 1) := Int.pow_pos (by decide)
  refine ⟨by rw [chkmulrng, if_pos small], ?_⟩
  have zero : (0 : BitVec w).toInt = 0 := BitVec.toInt_zero
  rcases small with rfl | rfl | one | one
  · rw [zero, Int.zero_mul]
    omega
  · rw [zero, Int.mul_zero]
    omega
  · rw [int_of_one w some_bits a one, Int.one_mul]
    exact ⟨BitVec.le_toInt b, BitVec.toInt_lt⟩
  · rw [int_of_one w some_bits b one, Int.mul_one]
    exact ⟨BitVec.le_toInt a, BitVec.toInt_lt⟩

theorem not_small (w : Nat) (some_bits : 1 < w) (a b : BitVec w) (small : ¬(a = 0 ∨ b = 0 ∨ a = 1 ∨ b = 1)) :
    a.toInt ≠ 0 ∧ b.toInt ≠ 0 ∧ a.toInt ≠ 1 ∧ b.toInt ≠ 1 := by
  have zero : (0 : BitVec w).toInt = 0 := BitVec.toInt_zero
  have one := int_of_one w some_bits 1 rfl
  refine ⟨fun same => small ?_, fun same => small ?_, fun same => small ?_, fun same => small ?_⟩
  · exact .inl (BitVec.eq_of_toInt_eq (same.trans zero.symm))
  · exact .inr (.inl (BitVec.eq_of_toInt_eq (same.trans zero.symm)))
  · exact .inr (.inr (.inl (BitVec.eq_of_toInt_eq (same.trans one.symm))))
  · exact .inr (.inr (.inr (BitVec.eq_of_toInt_eq (same.trans one.symm))))

section Words

variable (a b : BitVec 32)

-- The least factor with another one than 0 and 1 leaves the range on one side.
theorem least_factor (small : ¬(a = 0 ∨ b = 0 ∨ a = 1 ∨ b = 1)) (least : a = -2147483648 ∨ b = -2147483648) :
    a.toInt * b.toInt < -2 ^ 31 ∨ 2 ^ 31 ≤ a.toInt * b.toInt := by
  obtain ⟨first, second, third, fourth⟩ := not_small 32 (by decide) a b small
  have value : (-2147483648 : BitVec 32).toInt = -2147483648 := by decide
  rcases least with rfl | rfl
  · rw [value]
    omega
  · rw [value]
    omega

theorem chkmulrng32_counts (small : ¬(a = 0 ∨ b = 0 ∨ a = 1 ∨ b = 1)) (other : ¬(a = -2147483648 ∨ b = -2147483648))
    (plain : ¬((powerof2 a ∧ a * b = -2147483648) ∨ (powerof2 b ∧ a * b = -2147483648))) :
    chkmulrng32 a b (a * b) = if 2 ^ 31 ≤ (a.toInt * b.toInt).natAbs then 1 else 0 := by
  obtain ⟨first, second, -, -⟩ := not_small 32 (by decide) a b small
  obtain ⟨s, bits, low, high⟩ := product_between a b (by decide) (fun zero => small (.inl zero)) (fun zero => small (.inr (.inl zero)))
  have divides := slow_division a b (by decide) 2147483647 2147483647 (by decide) (not_least a (by decide) fun same => other (.inl same))
    (not_least b (by decide) fun same => other (.inr same)) second
  rw [chkmulrng32, chkmulrng_last 32 _ _ a b _ small other plain, bits]
  rcases Nat.lt_trichotomy (s + 2) 32 with few | same | many
  · have bound : 2 ^ (s + 2) ≤ 2 ^ 31 := Nat.pow_le_pow_right (by decide) (by omega)
    rw [if_neg (Nat.ne_of_lt few), if_neg (Nat.lt_asymm few), if_neg (by omega)]
  · rw [if_pos same]
    by_cases more : 2147483647 < (a.toInt * b.toInt).natAbs
    · rw [if_pos (divides.mpr more), if_pos (by omega)]
    · rw [if_neg fun true_ => more (divides.mp true_), if_neg (by omega)]
  · have bound : 2 ^ 31 ≤ 2 ^ s := Nat.pow_le_pow_right (by decide) (by omega)
    rw [if_neg (Nat.ne_of_gt many), if_pos many, if_pos (by omega)]

-- For which factors chkmulrng32 answers wrongly: the product is below the range and
-- neither factor is the least int, or it is above and one is, or its low bits are
-- those of the least int and a factor is a power of two.
def Missed32 (a b : BitVec 32) : Prop :=
  (a.toInt * b.toInt < -2 ^ 31 ∧ a ≠ -2147483648 ∧ b ≠ -2147483648) ∨
  (2 ^ 31 ≤ a.toInt * b.toInt ∧
    (a = -2147483648 ∨ b = -2147483648 ∨ (a * b = -2147483648 ∧ (powerof2 a = true ∨ powerof2 b = true))))

theorem chkmulrng32_ranges : Ranges 32 (a.toInt * b.toInt) (chkmulrng32 a b (a * b)) ↔ ¬Missed32 a b := by
  by_cases small : a = 0 ∨ b = 0 ∨ a = 1 ∨ b = 1
  · obtain ⟨answer, low, high⟩ := chkmulrng_small 32 (-2147483648) 2147483647 a b (a * b) (by decide) small
    rw [chkmulrng32, answer, ranges_zero]
    refine iff_of_true ⟨low, high⟩ ?_
    rintro (⟨under, -⟩ | ⟨past, -⟩)
    · omega
    · omega
  · by_cases other : a = -2147483648 ∨ b = -2147483648
    · have outside := least_factor a b small other
      rw [chkmulrng32, chkmulrng, if_neg small, if_pos other, ranges_less]
      constructor
      · rintro under (⟨-, first, second⟩ | ⟨past, -⟩)
        · exact other.elim first second
        · omega
      · intro right
        refine outside.resolve_right fun past => right (.inr ⟨past, ?_⟩)
        exact other.imp id .inl
    · by_cases power : (powerof2 a ∧ a * b = -2147483648) ∨ (powerof2 b ∧ a * b = -2147483648)
      · rw [chkmulrng32, chkmulrng, if_neg small, if_neg other, if_pos power, ranges_zero]
        constructor
        · rintro ⟨low, high⟩ (⟨under, -⟩ | ⟨past, -⟩)
          · omega
          · omega
        · intro right
          constructor
          · by_contra under
            exact right (.inl ⟨by omega, fun same => other (.inl same), fun same => other (.inr same)⟩)
          · by_contra past
            refine right (.inr ⟨by omega, .inr (.inr ?_)⟩)
            rcases power with ⟨two, same⟩ | ⟨two, same⟩
            · exact ⟨same, .inl two⟩
            · exact ⟨same, .inr two⟩
      · have edge : a.toInt * b.toInt ≠ -2 ^ 31 := fun least => by
          have same : a * b = -2147483648 := by
            apply BitVec.eq_of_toInt_eq
            rw [BitVec.toInt_mul, least]
            decide
          exact power ((powerof2_least a b 31 least).imp (fun two => ⟨two, same⟩) fun two => ⟨two, same⟩)
        rw [chkmulrng32_counts a b small other power]
        split
        · rw [ranges_more]
          constructor
          · rintro above (⟨under, -⟩ | ⟨-, least | least | ⟨same, two⟩⟩)
            · omega
            · exact other (.inl least)
            · exact other (.inr least)
            · exact power (two.imp (fun two => ⟨two, same⟩) fun two => ⟨two, same⟩)
          · intro right
            by_contra below
            exact right (.inl ⟨by omega, fun same => other (.inl same), fun same => other (.inr same)⟩)
        · rw [ranges_zero]
          refine iff_of_true (by omega) ?_
          rintro (⟨under, -⟩ | ⟨past, -⟩)
          · omega
          · omega

end Words

section Longs

variable (a b : BitVec 64)

-- With 64 bits in both factors the product is past INT_MAX, and so is the quotient.
theorem chkmulrng64_counts (small : ¬(a = 0 ∨ b = 0 ∨ a = 1 ∨ b = 1)) (other : ¬(a = -2147483648 ∨ b = -2147483648))
    (plain : ¬((powerof2 a ∧ a * b = -2147483648) ∨ (powerof2 b ∧ a * b = -2147483648))) :
    chkmulrng64 a b (a * b) = if 64 ≤ nsigbit a b then 1 else 0 := by
  obtain ⟨first, second, -, -⟩ := not_small 64 (by decide) a b small
  rw [chkmulrng64, chkmulrng_last 64 _ _ a b _ small other plain]
  rcases Nat.lt_trichotomy (nsigbit a b) 64 with few | same | many
  · rw [if_neg (Nat.ne_of_lt few), if_neg (Nat.lt_asymm few), if_neg (Nat.not_le_of_lt few)]
  · obtain ⟨m, bits, low, high⟩ := significant a (by decide) fun zero => small (.inl zero)
    obtain ⟨n, bits', low', high'⟩ := significant b (by decide) fun zero => small (.inr (.inl zero))
    have count : m + n + 2 = 64 := by
      rw [nsigbit, bits, bits'] at same
      omega
    have bound : 2 ^ (m + 1) ≤ 2 ^ 63 := Nat.pow_le_pow_right (by decide) (by omega)
    have bound' : 2 ^ (n + 1) ≤ 2 ^ 63 := Nat.pow_le_pow_right (by decide) (by omega)
    have large : 2 ^ 62 ≤ (a.toInt * b.toInt).natAbs := by
      rw [Int.natAbs_mul, (by omega : 62 = m + n), Nat.pow_add]
      exact Nat.mul_le_mul low low'
    have divides := slow_division a b (by decide) 2147483647 2147483647 (by decide) (Nat.lt_of_lt_of_le high bound)
      (Nat.lt_of_lt_of_le high' bound') second
    rw [if_pos same, if_pos (divides.mpr (by omega)), if_pos (by omega)]
  · rw [if_neg (Nat.ne_of_gt many), if_pos many, if_pos (Nat.le_of_lt many)]

-- For which factors chkmulrng64 answers wrongly, INT_MIN being that of the 32-bit int:
-- the product is below the range and neither factor is INT_MIN; it is above and one is,
-- or its low bits are those of INT_MIN and a factor is a power of two; or it fits,
-- neither factor is 0 or 1, and one is INT_MIN or both have 64 bits or more.
def Missed64 (a b : BitVec 64) : Prop :=
  (a.toInt * b.toInt < -2 ^ 63 ∧ a ≠ -2147483648 ∧ b ≠ -2147483648) ∨
  (2 ^ 63 ≤ a.toInt * b.toInt ∧
    (a = -2147483648 ∨ b = -2147483648 ∨ (a * b = -2147483648 ∧ (powerof2 a = true ∨ powerof2 b = true)))) ∨
  ((-2 ^ 63 ≤ a.toInt * b.toInt ∧ a.toInt * b.toInt < 2 ^ 63) ∧ ¬(a = 0 ∨ b = 0 ∨ a = 1 ∨ b = 1) ∧
    (a = -2147483648 ∨ b = -2147483648 ∨ 64 ≤ nsigbit a b))

theorem chkmulrng64_ranges : Ranges 64 (a.toInt * b.toInt) (chkmulrng64 a b (a * b)) ↔ ¬Missed64 a b := by
  by_cases small : a = 0 ∨ b = 0 ∨ a = 1 ∨ b = 1
  · obtain ⟨answer, low, high⟩ := chkmulrng_small 64 (-2147483648) 2147483647 a b (a * b) (by decide) small
    rw [chkmulrng64, answer, ranges_zero]
    refine iff_of_true ⟨low, high⟩ ?_
    rintro (⟨under, -⟩ | ⟨past, -⟩ | ⟨-, other, -⟩)
    · omega
    · omega
    · exact other small
  · by_cases other : a = -2147483648 ∨ b = -2147483648
    · rw [chkmulrng64, chkmulrng, if_neg small, if_pos other, ranges_less]
      constructor
      · rintro under (⟨-, first, second⟩ | ⟨past, -⟩ | ⟨⟨low, -⟩, -⟩)
        · exact other.elim first second
        · omega
        · omega
      · intro right
        by_contra above
        by_cases past : 2 ^ 63 ≤ a.toInt * b.toInt
        · exact right (.inr (.inl ⟨past, other.imp id .inl⟩))
        · exact right (.inr (.inr ⟨⟨by omega, by omega⟩, small, other.imp id .inl⟩))
    · by_cases power : (powerof2 a ∧ a * b = -2147483648) ∨ (powerof2 b ∧ a * b = -2147483648)
      · have same : a * b = -2147483648 := power.elim And.right And.right
        rw [chkmulrng64, chkmulrng, if_neg small, if_neg other, if_pos power, ranges_zero]
        constructor
        · rintro ⟨low, high⟩ (⟨under, -⟩ | ⟨past, -⟩ | ⟨-, -, least | least | many⟩)
          · omega
          · omega
          · exact other (.inl least)
          · exact other (.inr least)
          · have value : a.toInt * b.toInt = -2147483648 := by
              have reduced := congrArg BitVec.toInt same
              rwa [BitVec.toInt_mul, Int.bmod_eq_of_le (by omega) (by omega)] at reduced
            obtain ⟨s, bits, least, -⟩ := product_between a b (by decide) (fun zero => small (.inl zero)) (fun zero => small (.inr (.inl zero)))
            have bound : 2 ^ 62 ≤ 2 ^ s := Nat.pow_le_pow_right (by decide) (by omega)
            omega
        · intro right
          constructor
          · by_contra under
            exact right (.inl ⟨by omega, fun same => other (.inl same), fun same => other (.inr same)⟩)
          · by_contra past
            exact right (.inr (.inl ⟨by omega, .inr (.inr ⟨same, power.imp And.left And.left⟩)⟩))
      · rw [chkmulrng64_counts a b small other power]
        obtain ⟨s, bits, low, high⟩ := product_between a b (by decide) (fun zero => small (.inl zero)) (fun zero => small (.inr (.inl zero)))
        split
        · rename_i many
          rw [ranges_more]
          constructor
          · rintro above (⟨under, -⟩ | ⟨-, least | least | ⟨same, two⟩⟩ | ⟨⟨-, high⟩, -⟩)
            · omega
            · exact other (.inl least)
            · exact other (.inr least)
            · exact power (two.imp (fun two => ⟨two, same⟩) fun two => ⟨two, same⟩)
            · omega
          · intro right
            by_contra below
            by_cases under : a.toInt * b.toInt < -2 ^ 63
            · exact right (.inl ⟨under, fun same => other (.inl same), fun same => other (.inr same)⟩)
            · exact right (.inr (.inr ⟨⟨by omega, by omega⟩, small, .inr (.inr many)⟩))
        · rename_i few
          have bound : 2 ^ (s + 2) ≤ 2 ^ 63 := Nat.pow_le_pow_right (by decide) (by omega)
          rw [ranges_zero]
          refine iff_of_true (by omega) ?_
          rintro (⟨under, -⟩ | ⟨past, -⟩ | ⟨-, -, least | least | many⟩)
          · omega
          · omega
          · exact other (.inl least)
          · exact other (.inr least)
          · exact few many

end Longs

-- The checks answer rightly but for these factors.
theorem chkmulrng_ranges_iff (a b : BitVec 32) (c d : BitVec 64) :
    (Ranges 32 (a.toInt * b.toInt) (chkmulrng32 a b (a * b)) ↔ ¬Missed32 a b) ∧
      (Ranges 64 (c.toInt * d.toInt) (chkmulrng64 c d (c * d)) ↔ ¬Missed64 c d) :=
  ⟨chkmulrng32_ranges a b, chkmulrng64_ranges c d⟩

theorem chkmulrng32_signless : chkmulrng32 (-65536) 65536 (-65536 * 65536) = 1 ∧ (-65536 : BitVec 32).toInt * (65536 : BitVec 32).toInt < -2 ^ 31 ∧
    ¬Ranges 32 ((-65536 : BitVec 32).toInt * (65536 : BitVec 32).toInt) (chkmulrng32 (-65536) 65536 (-65536 * 65536)) := by
  have answer : chkmulrng32 (-65536) 65536 (-65536 * 65536) = 1 := by decide
  have under : (-65536 : BitVec 32).toInt * (65536 : BitVec 32).toInt < -2 ^ 31 := by decide
  refine ⟨answer, under, ?_⟩
  rw [answer, ranges_more]
  omega

end Checks

end OsZero.Trix

import Mathlib.Data.BitVec

set_option autoImplicit false

namespace OsZero.Trix

-- while (b): a %= b and the two swapped, so that a is the divisor and b the remainder.
def gcdu32 : Nat → BitVec 32 → BitVec 32 → Option (BitVec 32)
  | 0, _, _ => none
  | fuel + 1, a, b => if b = 0 then some a else gcdu32 fuel b (a % b)

-- C's / and % on int64_t: none is the trap of a zero divisor, and of the
-- quotient of the minimum by -1, which has no int64_t.
def traps (a b : BitVec 64) : Bool := b == 0 || (a == BitVec.intMin 64 && b == -1)
def rem64 (a b : BitVec 64) : Option (BitVec 64) := if traps a b then none else some (a.srem b)
def div64 (a b : BitVec 64) : Option (BitVec 64) := if traps a b then none else some (a.sdiv b)

def ratloop : Nat → BitVec 64 → BitVec 64 → BitVec 64 → Option (BitVec 64)
  | 0, _, _, _ => none
  | fuel + 1, _, b, c => if c = 0 then some b else rem64 b c >>= fun d => ratloop fuel b c d

def ratreduce (fuel : Nat) (num den : BitVec 64) : Option (BitVec 64 × BitVec 64) := do
  let a := num
  let b := den
  let c ← rem64 a b
  let b ← ratloop fuel a b c
  let num ← div64 num b
  let den ← div64 den b
  some (num, den)

theorem gcdu32_gcd (a b : BitVec 32) : ∃ g, (∀ fuel, b.toNat < fuel → gcdu32 fuel a b = some g) ∧ g.toNat = Nat.gcd a.toNat b.toNat := by
  induction left : b.toNat using Nat.strongRecOn generalizing a b with
  | _ rest ih =>
      by_cases zero : b = 0
      · refine ⟨a, fun fuel enough => ?_, ?_⟩
        · obtain ⟨more, rfl⟩ := Nat.exists_eq_add_one.mpr (Nat.zero_lt_of_lt enough)
          rw [gcdu32, if_pos zero]
        · rw [← left, zero]
          exact (Nat.gcd_zero_right _).symm
      · have positive : 0 < b.toNat := Nat.pos_of_ne_zero fun same => zero (BitVec.eq_of_toNat_eq same)
        have value : (a % b).toNat = a.toNat % b.toNat := BitVec.toNat_umod
        have less : (a % b).toNat < rest := by
          rw [value, ← left]
          exact Nat.mod_lt _ positive
        obtain ⟨g, result, greatest⟩ := ih _ less b (a % b) rfl
        refine ⟨g, fun fuel enough => ?_, ?_⟩
        · obtain ⟨more, rfl⟩ := Nat.exists_eq_add_one.mpr (Nat.zero_lt_of_lt enough)
          rw [gcdu32, if_neg zero, result more (by omega)]
        · rw [greatest, value, ← left, Nat.gcd_comm, ← Nat.gcd_rec, Nat.gcd_comm]

-- The measure and the size of the divisors of a run.
def size (a : BitVec 64) : Nat := a.toInt.natAbs

theorem size_zero (a : BitVec 64) (zero : size a = 0) : a = 0 := by
  apply BitVec.eq_of_toInt_eq
  exact Int.natAbs_eq_zero.mp zero

theorem size_minimum (a : BitVec 64) (other : a ≠ BitVec.intMin 64) : size a < 2 ^ 63 := by
  have low := BitVec.le_toInt a
  have high := BitVec.toInt_lt (x := a)
  have different : a.toInt ≠ -2 ^ 63 := fun same => other (BitVec.eq_of_toInt_eq (same.trans (by decide)))
  rw [size]
  omega

theorem not_traps (a b : BitVec 64) (divisor : b ≠ 0) (small : size a < 2 ^ 63) : traps a b = false := by
  have other : a ≠ BitVec.intMin 64 := by
    rintro rfl
    exact absurd small (by decide)
  rw [traps, beq_eq_false_iff_ne.mpr divisor, beq_eq_false_iff_ne.mpr other]
  rfl

theorem rem64_size (a b : BitVec 64) (divisor : b ≠ 0) (small : size a < 2 ^ 63) : ∃ c, rem64 a b = some c ∧ size c = size a % size b := by
  refine ⟨a.srem b, by rw [rem64, not_traps a b divisor small]; rfl, ?_⟩
  rw [size, BitVec.toInt_srem, Int.natAbs_tmod]
  rfl

-- The divisor shrinks at every turn, and it keeps its common divisors with the remainder.
theorem ratloop_gcd (a b c : BitVec 64) (divisor : b ≠ 0) (small : size b < 2 ^ 63) (less : size c < size b) :
    ∃ d, (∀ fuel, size c < fuel → ratloop fuel a b c = some d) ∧ size d = Nat.gcd (size b) (size c) := by
  induction left : size c using Nat.strongRecOn generalizing a b c with
  | _ rest ih =>
      by_cases zero : c = 0
      · refine ⟨b, fun fuel enough => ?_, ?_⟩
        · obtain ⟨more, rfl⟩ := Nat.exists_eq_add_one.mpr (Nat.zero_lt_of_lt enough)
          rw [ratloop, if_pos zero]
        · rw [← left, zero]
          exact (Nat.gcd_zero_right _).symm
      · obtain ⟨d, step, value⟩ := rem64_size b c zero small
        have positive : 0 < size c := Nat.pos_of_ne_zero fun same => zero (size_zero c same)
        have down : size d < size c := value ▸ Nat.mod_lt _ positive
        obtain ⟨e, result, greatest⟩ := ih _ (left ▸ down) b c d zero (by omega) down rfl
        refine ⟨e, fun fuel enough => ?_, ?_⟩
        · obtain ⟨more, rfl⟩ := Nat.exists_eq_add_one.mpr (Nat.zero_lt_of_lt enough)
          rw [ratloop, if_neg zero, step]
          exact result more (by omega)
        · rw [greatest, value, ← left, Nat.gcd_comm, ← Nat.gcd_rec, Nat.gcd_comm]

theorem div64_exact (a b : BitVec 64) (divisor : b ≠ 0) (other : a ≠ BitVec.intMin 64) (divides : size b ∣ size a) :
    ∃ q, div64 a b = some q ∧ a.toInt = b.toInt * q.toInt := by
  refine ⟨a.sdiv b, by rw [div64, not_traps a b divisor (size_minimum a other)]; rfl, ?_⟩
  rw [BitVec.toInt_sdiv_of_ne_or_ne a b (Or.inl other)]
  exact (Int.mul_tdiv_cancel' (Int.natAbs_dvd_natAbs.mp divides)).symm

theorem reduced (b p q d : Int) (nonzero : b ≠ 0) (greatest : b.natAbs = Nat.gcd (b * p).natAbs (b * q).natAbs) (first : d ∣ p) (second : d ∣ q) :
    d ≤ 1 := by
  have common : (b * d).natAbs ∣ b.natAbs := by
    rw [greatest]
    exact Nat.dvd_gcd (Int.natAbs_dvd_natAbs.mpr (Int.mul_dvd_mul_left b first)) (Int.natAbs_dvd_natAbs.mpr (Int.mul_dvd_mul_left b second))
  have positive : 0 < b.natAbs := Int.natAbs_pos.mpr nonzero
  rw [Int.natAbs_mul] at common
  have unit : d.natAbs ∣ 1 := Nat.dvd_of_mul_dvd_mul_left positive (by rwa [Nat.mul_one])
  have one := Nat.dvd_one.mp unit
  omega

theorem ratreduce_lowest (num den : BitVec 64) (whole : num ≠ BitVec.intMin 64) (nonzero : den ≠ 0) (other : den ≠ BitVec.intMin 64) :
    ∃ num' den', (∀ fuel, size den ≤ fuel → ratreduce fuel num den = some (num', den')) ∧ num'.toInt * den.toInt = num.toInt * den'.toInt ∧
      ∀ d : Int, d ∣ num'.toInt → d ∣ den'.toInt → d ≤ 1 := by
  have small := size_minimum den other
  have positive : 0 < size den := Nat.pos_of_ne_zero fun zero => nonzero (size_zero den zero)
  obtain ⟨c, first, left⟩ := rem64_size num den nonzero (size_minimum num whole)
  have less : size c < size den := left ▸ Nat.mod_lt _ positive
  obtain ⟨b, looped, value⟩ := ratloop_gcd num den c nonzero small less
  have greatest : size b = Nat.gcd (size num) (size den) := by
    rw [value, left, Nat.gcd_comm, ← Nat.gcd_rec, Nat.gcd_comm]
  have divisor : b ≠ 0 := by
    rintro rfl
    have zero : size 0 = 0 := by decide
    exact absurd (Nat.eq_zero_of_gcd_eq_zero_right (greatest.symm.trans zero)) (by omega)
  obtain ⟨num', upper, top⟩ := div64_exact num b divisor whole (greatest ▸ Nat.gcd_dvd_left ..)
  obtain ⟨den', lower, bottom⟩ := div64_exact den b divisor other (greatest ▸ Nat.gcd_dvd_right ..)
  refine ⟨num', den', fun fuel enough => ?_, ?_, ?_⟩
  · simp only [ratreduce, first, looped fuel (by omega), upper, lower, Option.bind_eq_bind, Option.bind_some]
  · rw [top, bottom, Int.mul_left_comm, Int.mul_assoc]
  · intro d above under
    refine reduced b.toInt num'.toInt den'.toInt d ?_ ?_ above under
    · exact fun zero => divisor (BitVec.eq_of_toInt_eq (zero.trans BitVec.toInt_zero.symm))
    · rw [← top, ← bottom]
      exact greatest

theorem fractions_reduce (num den : BitVec 64) (whole : num ≠ BitVec.intMin 64) (nonzero : den ≠ 0) (other : den ≠ BitVec.intMin 64)
    (a b : BitVec 32) :
    (∃ enough num' den', (∀ fuel, enough ≤ fuel → ratreduce fuel num den = some (num', den')) ∧
      num'.toInt * den.toInt = num.toInt * den'.toInt ∧ ∀ d : Int, d ∣ num'.toInt → d ∣ den'.toInt → d ≤ 1) ∧
    ∃ enough g, (∀ fuel, enough ≤ fuel → gcdu32 fuel a b = some g) ∧ g.toNat = Nat.gcd a.toNat b.toNat ∧ (b = 0 → g = a) := by
  obtain ⟨num', den', reduces, same, lowest⟩ := ratreduce_lowest num den whole nonzero other
  obtain ⟨g, ends, greatest⟩ := gcdu32_gcd a b
  refine ⟨⟨size den, num', den', reduces, same, lowest⟩, b.toNat + 1, g, fun fuel enough => ends fuel enough, greatest, ?_⟩
  rintro rfl
  apply BitVec.eq_of_toNat_eq
  exact greatest.trans (Nat.gcd_zero_right _)

theorem fractions_reduce_negative : (∃ enough num' den', (∀ fuel, enough ≤ fuel → ratreduce fuel (-6) 4 = some (num', den')) ∧
      num'.toInt * 4 = -6 * den'.toInt ∧ ∀ d : Int, d ∣ num'.toInt → d ∣ den'.toInt → d ≤ 1) ∧
    ∃ enough g, (∀ fuel, enough ≤ fuel → gcdu32 fuel 12 18 = some g) ∧ g.toNat = 6 := by
  obtain ⟨first, enough, g, ends, greatest, -⟩ := fractions_reduce (-6) 4 (by decide) (by decide) (by decide) 12 18
  exact ⟨first, enough, g, ends, greatest⟩

end OsZero.Trix

import OsZero.Lib.Magic
import Mathlib.Data.Nat.Bitwise

set_option autoImplicit false

namespace OsZero.UserMem

def powerof2 (x : BitVec 64) : Bool := x &&& (x - 1) == 0

-- The macro works in a signed word, so the shifts keep the sign.
def ceilpow2_64 (u : BitVec 64) : BitVec 64 :=
  if powerof2 u then u
  else
    let r := u - 1
    let r := r ||| r.sshiftRight 1
    let r := r ||| r.sshiftRight 2
    let r := r ||| r.sshiftRight 4
    let r := r ||| r.sshiftRight 8
    let r := r ||| r.sshiftRight 16
    let r := r ||| r.sshiftRight 32
    r + 1

def tzeroll (u : BitVec 64) : Nat := ((List.range 64).find? fun i => u.getLsbD i).getD 64

def memcalcslot (sz : Nat) : Nat := tzeroll (ceilpow2_64 (BitVec.ofNat 64 sz))

def memcalcpageslot (sz : Nat) : Nat := (sz - 1) >>> 12

def rounduppow2 (a b2 : Nat) : Nat := ((a + (b2 - 1)) % 18446744073709551616) &&& (18446744073709551616 - b2)

-- After shifts by 1, 2, .. a bit is set when one of the next width bits above
-- it was.
def Smeared (width x y : Nat) : Prop := ∀ i, y.testBit i = true ↔ ∃ d < width, x.testBit (i + d) = true

theorem smear_step (width x y : Nat) (smeared : Smeared width x y) : Smeared (2 * width) x (y ||| y >>> width) := by
  intro i
  rw [Nat.testBit_or, Nat.testBit_shiftRight, Bool.or_eq_true, smeared, smeared]
  constructor
  · rintro (⟨d, small, bit⟩ | ⟨d, small, bit⟩)
    · exact ⟨d, by omega, bit⟩
    · exact ⟨width + d, by omega, by rw [show i + (width + d) = width + i + d by omega]; exact bit⟩
  · rintro ⟨d, small, bit⟩
    by_cases low : d < width
    · exact Or.inl ⟨d, low, bit⟩
    · exact Or.inr ⟨d - width, by omega, by rw [show width + i + (d - width) = i + d by omega]; exact bit⟩

theorem smeared_one (x : Nat) : Smeared 1 x x := by
  intro i
  constructor
  · exact fun bit => ⟨0, by omega, bit⟩
  · rintro ⟨d, small, bit⟩
    rwa [show d = 0 by omega, Nat.add_zero] at bit

theorem smeared_full (width x y : Nat) (nonzero : x ≠ 0) (wide : x < 2 ^ width) (smeared : Smeared width x y) :
    y = 2 ^ (Nat.log2 x + 1) - 1 := by
  apply Nat.eq_of_testBit_eq
  intro i
  rw [Nat.testBit_two_pow_sub_one]
  have top : Nat.log2 x < width := (Nat.log2_lt nonzero).mpr wide
  by_cases low : i < Nat.log2 x + 1
  · rw [decide_eq_true low, smeared]
    exact ⟨Nat.log2 x - i, by omega, by rw [show i + (Nat.log2 x - i) = Nat.log2 x by omega]; exact Nat.testBit_log2 nonzero⟩
  · rw [decide_eq_false low, ← Bool.not_eq_true, smeared]
    rintro ⟨d, -, bit⟩
    have small : x < 2 ^ (i + d) := Nat.lt_of_lt_of_le Nat.lt_log2_self (Nat.pow_le_pow_right (by decide : 0 < 2) (by omega))
    rw [Nat.testBit_lt_two_pow small] at bit
    cases bit

-- The highest bit of a number that is no power of two is also one of its
-- predecessor.
theorem and_pred_zero (x : Nat) (nonzero : x ≠ 0) (clear : x &&& (x - 1) = 0) : x = 2 ^ Nat.log2 x := by
  by_contra other
  have low : 2 ^ Nat.log2 x ≤ x := Nat.log2_self_le nonzero
  have high : x < 2 ^ (Nat.log2 x + 1) := Nat.lt_log2_self
  have top : Nat.log2 (x - 1) = Nat.log2 x := by
    refine (Nat.log2_eq_iff (by omega)).mpr ⟨by omega, by omega⟩
  have one := Nat.testBit_log2 nonzero
  have two := Nat.testBit_log2 (n := x - 1) (by omega)
  rw [top] at two
  have both : (x &&& (x - 1)).testBit (Nat.log2 x) = true := by
    rw [Nat.testBit_and, one, two]
    rfl
  rw [clear, Nat.zero_testBit] at both
  cases both

theorem sshift_toNat (u : BitVec 64) (n : Nat) (positive : u.toNat < 9223372036854775808) :
    (u ||| u.sshiftRight n).toNat = u.toNat ||| u.toNat >>> n := by
  have sign : u.msb = false := by
    rw [BitVec.msb_eq_false_iff_two_mul_lt]
    omega
  rw [BitVec.sshiftRight_eq_of_msb_false sign, BitVec.toNat_or, BitVec.toNat_ushiftRight]

theorem smear_below (x n : Nat) (small : x < 9223372036854775808) : x ||| x >>> n < 9223372036854775808 := by
  have low : x >>> n ≤ x := Nat.shiftRight_le x n
  exact Nat.or_lt_two_pow (n := 63) small (Nat.lt_of_le_of_lt low small)

theorem ceilpow2_above (u : BitVec 64) (nonzero : u.toNat - 1 ≠ 0) (below : u.toNat < 9223372036854775808)
    (other : powerof2 u = false) : (ceilpow2_64 u).toNat = 2 ^ (Nat.log2 (u.toNat - 1) + 1) := by
  have r0 : (u - 1).toNat = u.toNat - 1 := by
    rw [BitVec.toNat_sub_of_le (by simp [BitVec.le_def]; omega)]
    rfl
  have b0 : (u - 1).toNat < 9223372036854775808 := by omega
  unfold ceilpow2_64
  rw [other]
  simp only [Bool.false_eq_true, if_false]
  have s0 : Smeared 1 (u.toNat - 1) (u - 1).toNat := by
    rw [r0]
    exact smeared_one _
  generalize u - 1 = r at *
  have step : ∀ (width : Nat) (v : BitVec 64), v.toNat < 9223372036854775808 → Smeared width (u.toNat - 1) v.toNat →
      (v ||| v.sshiftRight width).toNat < 9223372036854775808 ∧
        Smeared (2 * width) (u.toNat - 1) (v ||| v.sshiftRight width).toNat := by
    intro width v small smeared
    rw [sshift_toNat v width small]
    exact ⟨smear_below _ _ small, smear_step width _ _ smeared⟩
  obtain ⟨b1, s1⟩ := step 1 _ b0 s0
  obtain ⟨b2, s2⟩ := step 2 _ b1 s1
  obtain ⟨b3, s3⟩ := step 4 _ b2 s2
  obtain ⟨b4, s4⟩ := step 8 _ b3 s3
  obtain ⟨b5, s5⟩ := step 16 _ b4 s4
  obtain ⟨b6, s6⟩ := step 32 _ b5 s5
  have full := smeared_full 64 _ _ nonzero (by omega) s6
  rw [BitVec.toNat_add, full]
  have high : 2 ^ (Nat.log2 (u.toNat - 1) + 1) ≤ 2 ^ 63 :=
    Nat.pow_le_pow_right (by decide) ((Nat.log2_lt nonzero).mpr (by omega))
  have positive : 0 < 2 ^ (Nat.log2 (u.toNat - 1) + 1) := Nat.two_pow_pos _
  change (2 ^ (Nat.log2 (u.toNat - 1) + 1) - 1 + 1) % 18446744073709551616 = _
  omega

theorem tzeroll_pow : ∀ c < 64, tzeroll (BitVec.ofNat 64 (2 ^ c)) = c := by decide +kernel

theorem calcslot_spec (sz : Nat) (positive : 0 < sz) (below : sz ≤ 9223372036854775808) :
    sz ≤ 2 ^ memcalcslot sz ∧ ∀ slot, sz ≤ 2 ^ slot → memcalcslot sz ≤ slot := by
  have value : (BitVec.ofNat 64 sz).toNat = sz := Nat.mod_eq_of_lt (by omega)
  have powers : ∀ c, c < 64 → (ceilpow2_64 (BitVec.ofNat 64 sz)).toNat = 2 ^ c → memcalcslot sz = c := by
    intro c small equal
    have same : ceilpow2_64 (BitVec.ofNat 64 sz) = BitVec.ofNat 64 (2 ^ c) := by
      rw [← equal, BitVec.ofNat_toNat, BitVec.setWidth_eq]
    rw [memcalcslot, same, tzeroll_pow c small]
  cases power : powerof2 (BitVec.ofNat 64 sz) with
  | true =>
      have clear : sz &&& (sz - 1) = 0 := by
        have bits := congrArg BitVec.toNat (beq_iff_eq.mp power)
        rw [BitVec.toNat_and, BitVec.toNat_sub_of_le (by simp [BitVec.le_def]; omega), value] at bits
        exact bits
      have exact := and_pred_zero sz (by omega) clear
      have top : Nat.log2 sz < 64 := (Nat.log2_lt (by omega)).mpr (by omega)
      have slot := powers (Nat.log2 sz) top (by rw [ceilpow2_64, power, if_pos rfl, value, ← exact])
      rw [slot]
      refine ⟨Nat.le_of_eq exact, fun other fits => ?_⟩
      rw [exact] at fits
      exact (Nat.pow_le_pow_iff_right (by decide)).mp fits
  | false =>
      have inner : sz ≠ 9223372036854775808 := by
        rintro rfl
        revert power
        decide
      have more : sz - 1 ≠ 0 := by
        intro one
        rw [show sz = 1 by omega] at power
        revert power
        decide
      have ceil := ceilpow2_above (BitVec.ofNat 64 sz) (by omega) (by omega) power
      rw [value] at ceil
      have top : Nat.log2 (sz - 1) < 63 := (Nat.log2_lt more).mpr (by omega)
      rw [powers _ (by omega) ceil]
      have above : sz - 1 < 2 ^ (Nat.log2 (sz - 1) + 1) := Nat.lt_log2_self
      refine ⟨by omega, fun other fits => ?_⟩
      exact (Nat.log2_lt more).mpr (by omega)

theorem roundup_spec (a k : Nat) (low : k ≤ 64) (fits : a + (2 ^ k - 1) < 18446744073709551616) :
    a ≤ rounduppow2 a (2 ^ k) ∧ rounduppow2 a (2 ^ k) ≤ a + (2 ^ k - 1) ∧ rounduppow2 a (2 ^ k) % 2 ^ k = 0 := by
  have positive : 0 < 2 ^ k := Nat.two_pow_pos k
  rw [rounduppow2, Nat.mod_eq_of_lt fits, Magic.and_high _ k fits low]
  have whole := Nat.div_add_mod' (a + (2 ^ k - 1)) (2 ^ k)
  have part := Nat.mod_lt (a + (2 ^ k - 1)) positive
  exact ⟨by omega, by omega, Nat.mul_mod_left _ _⟩

end OsZero.UserMem

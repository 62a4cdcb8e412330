import Mathlib.Data.BitVec

set_option autoImplicit false

namespace OsZero.Trix

-- -(cond), and for !!value the condition that value is not zero.
def spreadmask (cond : Prop) [Decidable cond] : BitVec 32 := -(if cond then 1 else 0)

def sataddu32 (a b : BitVec 32) : BitVec 32 :=
  let res := a + b
  res ||| spreadmask (res < a)

-- The result of the macro, whose last argument is a variable for the sum.
def sataddu32t (a b : BitVec 32) : BitVec 32 :=
  let tmp := a + b
  tmp ||| spreadmask (tmp < a)

def satsubu32 (a b : BitVec 32) : BitVec 32 :=
  let res := a - b
  res &&& spreadmask (res < a)

def satsubu32t (a b : BitVec 32) : BitVec 32 :=
  let tmp := a - b
  tmp &&& spreadmask (tmp ≤ a)

def satmulu32 (a b : BitVec 32) : BitVec 32 :=
  let a64 : BitVec 64 := a.setWidth 64
  let b64 : BitVec 64 := b.setWidth 64
  let res := a64 * b64
  let hi : BitVec 32 := (res >>> 32).setWidth 32
  let lo : BitVec 32 := res.setWidth 32
  lo ||| spreadmask (hi ≠ 0#32)

section Masks

variable (value : BitVec 32) (cond : Prop) [Decidable cond]

theorem or_spread : value ||| spreadmask cond = if cond then BitVec.allOnes 32 else value := by
  unfold spreadmask
  split_ifs
  · exact BitVec.or_allOnes
  · exact BitVec.or_zero

theorem and_spread : value &&& spreadmask cond = if cond then value else 0#32 := by
  unfold spreadmask
  split_ifs
  · exact BitVec.and_allOnes
  · exact BitVec.and_zero

end Masks

section Words

variable (a b : BitVec 32)

theorem sataddu32_min : (sataddu32 a b).toNat = min (a.toNat + b.toNat) 4294967295 := by
  have leftWord := a.isLt
  have rightWord := b.isLt
  rw [sataddu32, or_spread]
  simp only [BitVec.lt_def, BitVec.toNat_add]
  split_ifs with wraps
  · rw [BitVec.toNat_allOnes]
    omega
  · rw [BitVec.toNat_add]
    omega

theorem satsubu32t_max : (satsubu32t a b).toNat = a.toNat - b.toNat := by
  have leftWord := a.isLt
  have rightWord := b.isLt
  rw [satsubu32t, and_spread]
  simp only [BitVec.le_def, BitVec.toNat_sub]
  split_ifs with equal
  · rw [BitVec.toNat_sub]
    omega
  · rw [BitVec.toNat_zero]
    omega

-- With b = 0 the difference is a itself, which is not below a.
theorem satsubu32_max_iff : (satsubu32 a b).toNat = a.toNat - b.toNat ↔ b ≠ 0 ∨ a = 0 := by
  have leftWord := a.isLt
  have rightWord := b.isLt
  have zeros : (b ≠ 0 ↔ b.toNat ≠ 0) ∧ (a = 0 ↔ a.toNat = 0) :=
    ⟨not_congr BitVec.toNat_inj.symm, BitVec.toNat_inj.symm⟩
  rw [zeros.1, zeros.2, satsubu32, and_spread]
  simp only [BitVec.lt_def, BitVec.toNat_sub]
  split_ifs with below
  · rw [BitVec.toNat_sub]
    omega
  · rw [BitVec.toNat_zero]
    omega

theorem satmulu32_min : (satmulu32 a b).toNat = min (a.toNat * b.toNat) 4294967295 := by
  have product : a.toNat * b.toNat ≤ 4294967295 * 4294967295 := Nat.mul_le_mul (Nat.le_of_lt_succ a.isLt) (Nat.le_of_lt_succ b.isLt)
  have res : (a.setWidth 64 * b.setWidth 64).toNat = a.toNat * b.toNat := by
    rw [BitVec.toNat_mul, BitVec.toNat_setWidth, BitVec.toNat_setWidth, Nat.mod_eq_of_lt (Nat.lt_of_lt_of_le a.isLt (by decide)),
      Nat.mod_eq_of_lt (Nat.lt_of_lt_of_le b.isLt (by decide)), Nat.mod_eq_of_lt (by omega)]
  have high : ((a.setWidth 64 * b.setWidth 64) >>> 32).setWidth 32 ≠ 0#32 ↔ 4294967296 ≤ a.toNat * b.toNat := by
    rw [Ne, ← BitVec.toNat_inj, BitVec.toNat_setWidth, BitVec.toNat_ushiftRight, res, Nat.shiftRight_eq_div_pow, BitVec.toNat_zero]
    omega
  rw [satmulu32, or_spread]
  split_ifs with overflows
  · rw [BitVec.toNat_allOnes]
    have much := high.mp overflows
    omega
  · rw [BitVec.toNat_setWidth, res]
    have little := mt high.mpr overflows
    omega

end Words

theorem saturates_iff (a b : BitVec 32) :
    ((sataddu32 a b).toNat = min (a.toNat + b.toNat) 4294967295 ∧ (satsubu32 a b).toNat = a.toNat - b.toNat ∧
      (satmulu32 a b).toNat = min (a.toNat * b.toNat) 4294967295 ∧ sataddu32t a b = sataddu32 a b ∧ satsubu32t a b = satsubu32 a b) ↔
      b ≠ 0 ∨ a = 0 := by
  rw [← satsubu32_max_iff a b]
  constructor
  · rintro ⟨-, equal, -⟩
    exact equal
  · intro equal
    exact ⟨sataddu32_min a b, equal, satmulu32_min a b, rfl, BitVec.eq_of_toNat_eq ((satsubu32t_max a b).trans equal.symm)⟩

theorem satsubu32_nothing : (satsubu32 5 0).toNat ≠ (5 : BitVec 32).toNat - (0 : BitVec 32).toNat ∧ satsubu32t 5 0 ≠ satsubu32 5 0 := by decide

end OsZero.Trix

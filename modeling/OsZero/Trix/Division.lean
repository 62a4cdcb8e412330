import Mathlib.Data.BitVec
import OsZero.Lib.Magic

set_option autoImplicit false

namespace OsZero.Trix

section Routines

variable {w : Nat}

-- unsigned long has w bits, 32 or 64; unsigned long long has 64.
def divu7 (x : BitVec w) : BitVec w :=
  let q := (x >>> 1) + (x >>> 4)
  let q := q + (q >>> 6)
  let q := q + (q >>> 12) + (q >>> 24)
  let q := q >>> 2
  let r := x - q * 7
  q + ((r + 1) >>> 3)

def divu9 (x : BitVec w) : BitVec w :=
  let q := x - (x >>> 3)
  let q := q + (q >>> 6)
  let q := q + (q >>> 12) + (q >>> 24)
  let q := q >>> 3
  let r := x - q * 9
  q + ((r + 7) >>> 4)

def divu10 (x : BitVec w) : BitVec w :=
  let q := (x >>> 1) + (x >>> 2)
  let q := q + (q >>> 4)
  let q := q + (q >>> 8)
  let q := q + (q >>> 16)
  let q := q >>> 3
  let r := x - q * 10
  q + ((r + 6) >>> 4)

def divu100 (x : BitVec w) : BitVec w :=
  let q := (x >>> 1) + (x >>> 3) + (x >>> 6) - (x >>> 10) + (x >>> 12) + (x >>> 13) - (x >>> 16)
  let q := q + (q >>> 20)
  let q := q >>> 6
  let r := x - q * 100
  q + ((r + 28) >>> 7)

def divu1000 (x : BitVec w) : BitVec w :=
  let t := (x >>> 7) + (x >>> 8) + (x >>> 12)
  let q := (x >>> 1) + t + (x >>> 15) + (t >>> 11) + (t >>> 14)
  let q := q >>> 9
  let r := x - q * 1000
  q + ((r + 24) >>> 10)

def divu1000000 (x : BitVec w) : BitVec w :=
  let tmp : BitVec 64 := x.setWidth 64
  let tmp := tmp * 0x431bde83
  let tmp := tmp >>> 50
  tmp.setWidth w

def modu7 (u : BitVec w) : BitVec w := u - divu7 u * 7
def modu9 (u : BitVec w) : BitVec w := u - divu9 u * 9
def modu10 (u : BitVec w) : BitVec w := u - divu10 u * 10
def modu100 (u : BitVec w) : BitVec w := u - divu100 u * 100
def modu400 (u : BitVec w) : BitVec w := u - (divu100 u >>> 2) * 400

def leapyear (u : BitVec w) : Bool := (u &&& 0x03) == 0 && (modu100 u != 0 || modu400 u == 0)

end Routines

-- long has 64 bits; its >> keeps the sign.
def divs10 (x : BitVec 64) : BitVec 64 :=
  let x := x + (x.sshiftRight 31 &&& 9)
  let q := x.sshiftRight 1 + x.sshiftRight 2
  let q := q + q.sshiftRight 4
  let q := q + q.sshiftRight 8
  let q := q + q.sshiftRight 16
  let q := q.sshiftRight 3
  let r := x - q * 10
  q + (r + 6).sshiftRight 4

def divs100 (x : BitVec 64) : BitVec 64 :=
  let x := x + (x.sshiftRight 31 &&& 99)
  let q := x.sshiftRight 1 + x.sshiftRight 3 + x.sshiftRight 6 - x.sshiftRight 10 + x.sshiftRight 12 + x.sshiftRight 13 - x.sshiftRight 16
  let q := q + q.sshiftRight 20
  let q := q.sshiftRight 6
  let r := x - q * 100
  q + (r + 28).sshiftRight 7

def divs1000 (x : BitVec 64) : BitVec 64 :=
  let x := x + (x.sshiftRight 31 &&& 999)
  let t := x.sshiftRight 7 + x.sshiftRight 8 + x.sshiftRight 12
  let q := x.sshiftRight 1 + t + x.sshiftRight 15 + t.sshiftRight 11 + t.sshiftRight 14 + x.sshiftRight 26 + t.sshiftRight 21
  let q := q.sshiftRight 9
  let r := x - q * 1000
  q + (r + 24).sshiftRight 10

-- A Gregorian leap year.
def Leap (year : Nat) : Prop := year % 4 = 0 ∧ (year % 100 ≠ 0 ∨ year % 400 = 0)

section Unsigned

variable {w : Nat} (x q : BitVec w)

theorem shift_add (a b : BitVec w) (k : Nat) (room : a.toNat + b.toNat / 2 ^ k < 2 ^ w) : (a + (b >>> k)).toNat = a.toNat + b.toNat / 2 ^ k := by
  have shifted : (b >>> k).toNat = b.toNat / 2 ^ k := by rw [BitVec.toNat_ushiftRight, Nat.shiftRight_eq_div_pow]
  rw [BitVec.toNat_add_of_lt (by rwa [shifted]), shifted]

theorem shift_sub (a b : BitVec w) (k : Nat) (room : b.toNat / 2 ^ k ≤ a.toNat) : (a - (b >>> k)).toNat = a.toNat - b.toNat / 2 ^ k := by
  have shifted : (b >>> k).toNat = b.toNat / 2 ^ k := by rw [BitVec.toNat_ushiftRight, Nat.shiftRight_eq_div_pow]
  rw [BitVec.toNat_sub_of_le (by rwa [BitVec.le_def, shifted]), shifted]

theorem shift_toNat (a : BitVec w) (k : Nat) : (a >>> k).toNat = a.toNat / 2 ^ k := by
  rw [BitVec.toNat_ushiftRight, Nat.shiftRight_eq_div_pow]

theorem shift_pair (a b : BitVec w) (i j : Nat) (room : a.toNat / 2 ^ i + b.toNat / 2 ^ j < 2 ^ w) :
    ((a >>> i) + (b >>> j)).toNat = a.toNat / 2 ^ i + b.toNat / 2 ^ j := by
  rw [shift_add _ _ _ (by rwa [shift_toNat]), shift_toNat]

theorem shift_twice (a b c : BitVec w) (i j : Nat) (room : a.toNat + b.toNat / 2 ^ i + c.toNat / 2 ^ j < 2 ^ w) :
    (a + (b >>> i) + (c >>> j)).toNat = a.toNat + b.toNat / 2 ^ i + c.toNat / 2 ^ j := by
  have first := shift_add a b i (Nat.lt_of_le_of_lt (Nat.le_add_right ..) room)
  rw [shift_add _ c j (by rwa [first]), first]

theorem literal (n : Nat) (small : n < 2 ^ w) : (BitVec.ofNat w n).toNat = n := by
  rw [BitVec.toNat_ofNat, Nat.mod_eq_of_lt small]

-- The last step of each routine: an estimate that is short by one at most is
-- corrected by the remainder it leaves.
theorem estimate_corrected (c a k : Nat) (sum : c + a = 2 ^ k) (half : a < c) (room : 2 * c + a < 2 ^ w) (below : q.toNat * c ≤ x.toNat)
    (near : x.toNat < (q.toNat + 2) * c) : (q + ((x - q * BitVec.ofNat w c + BitVec.ofNat w a) >>> k)).toNat = x.toNat / c := by
  have small := x.isLt
  have product : (q * BitVec.ofNat w c).toNat = q.toNat * c := by
    have factor := literal (w := w) c (by omega)
    rw [BitVec.toNat_mul_of_lt (by rw [factor]; omega), factor]
  have rest : (x - q * BitVec.ofNat w c).toNat = x.toNat - q.toNat * c := by
    rw [BitVec.toNat_sub_of_le (by rwa [BitVec.le_def, product]), product]
  have less : x.toNat - q.toNat * c < 2 * c := by
    rw [Nat.add_mul] at near
    omega
  have added : (x - q * BitVec.ofNat w c + BitVec.ofNat w a).toNat = x.toNat - q.toNat * c + a := by
    have term := literal (w := w) a (by omega)
    rw [BitVec.toNat_add_of_lt (by rw [rest, term]; omega), rest, term]
  have bound : q.toNat ≤ q.toNat * c := Nat.le_mul_of_pos_right _ (by omega)
  by_cases exact : x.toNat - q.toNat * c < c
  · have none : (x.toNat - q.toNat * c + a) / 2 ^ k = 0 := Nat.div_eq_of_lt (by omega)
    have quotient : x.toNat / c = q.toNat := by
      apply Nat.div_eq_of_lt_le below
      rw [Nat.add_mul]
      omega
    rw [shift_add _ _ _ (by rw [added, none]; exact q.isLt), added, none, quotient, Nat.add_zero]
  · have one : (x.toNat - q.toNat * c + a) / 2 ^ k = 1 := by
      apply Nat.div_eq_of_lt_le
      · omega
      · omega
    have quotient : x.toNat / c = q.toNat + 1 := by
      apply Nat.div_eq_of_lt_le
      · rw [Nat.add_mul]
        omega
      · exact near
    have fits : q.toNat + 1 < 2 ^ w := by omega
    rw [shift_add _ _ _ (by rwa [added, one]), added, one, quotient]

-- The shifted copies that the estimates for 7, for 9 and for 10 add up.
theorem grown_twice (p q r : Nat) (second : q = p + p / 64) (third : r = q + q / 4096 + q / 16777216) :
    64 * q ≤ 65 * p ∧ 65 * p ≤ 64 * q + 63 ∧ 16777216 * r ≤ 16781313 * q ∧ 16781313 * q ≤ 16777216 * r + 33550335 := by
  have early : 64 * q ≤ 65 * p ∧ 65 * p ≤ 64 * q + 63 := by
    clear third
    omega
  have late : 16777216 * r ≤ 16781313 * q ∧ 16781313 * q ≤ 16777216 * r + 33550335 := by
    clear second early
    omega
  exact ⟨early.1, early.2, late⟩

theorem estimate_seven (x p q r : Nat) (small : x < 2 ^ 32) (first : p = x / 2 + x / 16) (second : q = p + p / 64)
    (third : r = q + q / 4096 + q / 16777216) : r / 4 * 7 ≤ x ∧ x < (r / 4 + 2) * 7 := by
  obtain ⟨upper, lower, above, below⟩ := grown_twice p q r second third
  have start : 16 * p ≤ 9 * x ∧ 9 * x ≤ 16 * p + 23 := by omega
  clear first second third
  omega

theorem estimate_nine (x p q r : Nat) (small : x < 2 ^ 32) (first : p = x - x / 8) (second : q = p + p / 64)
    (third : r = q + q / 4096 + q / 16777216) : r / 8 * 9 ≤ x ∧ x < (r / 8 + 2) * 9 := by
  obtain ⟨upper, lower, above, below⟩ := grown_twice p q r second third
  have start : 7 * x ≤ 8 * p ∧ 8 * p ≤ 7 * x + 7 := by omega
  clear first second third
  omega

theorem estimate_ten (x p q r s : Int) (low : -2 ^ 31 ≤ x) (high : x < 2 ^ 32) (first : p = x / 2 + x / 4) (second : q = p + p / 16)
    (third : r = q + q / 256) (fourth : s = r + r / 65536) : s / 8 * 10 ≤ x ∧ x < (s / 8 + 2) * 10 := by
  have start : 4 * p ≤ 3 * x ∧ 3 * x ≤ 4 * p + 5 := by omega
  have early : 16 * q ≤ 17 * p ∧ 17 * p ≤ 16 * q + 15 := by omega
  have middle : 256 * r ≤ 257 * q ∧ 257 * q ≤ 256 * r + 255 := by omega
  have late : 65536 * s ≤ 65537 * r ∧ 65537 * r ≤ 65536 * s + 65535 := by omega
  clear first second third fourth
  omega

theorem estimate_thousand (x t p : Nat) (small : x < 2 ^ 32) (first : t = x / 128 + x / 256 + x / 4096)
    (second : p = x / 2 + t + x / 32768 + t / 2048 + t / 16384) : p / 512 * 1000 ≤ x ∧ x < (p / 512 + 2) * 1000 := by
  have start : 4096 * t ≤ 49 * x ∧ 49 * x ≤ 4096 * t + 12239 := by omega
  have sum : 32768 * p ≤ 16385 * x + 32786 * t ∧ 16385 * x + 32786 * t ≤ 32768 * p + 114669 := by
    clear start first
    omega
  clear first second
  omega

-- The sum of the estimate for 100 over the bits of x that its shifts cut off.
theorem hundred_digits (x : Int) : ∃ a b c d e f g h : Int, (0 ≤ a ∧ a < 2) ∧ (0 ≤ b ∧ b < 4) ∧ (0 ≤ c ∧ c < 8) ∧ (0 ≤ d ∧ d < 16) ∧
    (0 ≤ e ∧ e < 4) ∧ (0 ≤ f ∧ f < 2) ∧ (0 ≤ g ∧ g < 8) ∧ h = x / 65536 ∧ x = 65536 * h + 8192 * g + 4096 * f + 1024 * e + 64 * d + 8 * c + 2 * b + a ∧
    x / 2 + x / 8 + x / 64 - x / 1024 + x / 4096 + x / 8192 - x / 65536 =
      41943 * h + 5243 * g + 2621 * f + 655 * e + 41 * d + 5 * c + b := by
  obtain ⟨a, whole, ha⟩ : ∃ a, x = 2 * (x / 2) + a ∧ 0 ≤ a ∧ a < 2 := ⟨x % 2, by omega, by omega, by omega⟩
  obtain ⟨b, half, hb⟩ : ∃ b, x / 2 = 4 * (x / 8) + b ∧ 0 ≤ b ∧ b < 4 := ⟨x / 2 % 4, by omega, by omega, by omega⟩
  obtain ⟨c, eighth, hc⟩ : ∃ c, x / 8 = 8 * (x / 64) + c ∧ 0 ≤ c ∧ c < 8 := ⟨x / 8 % 8, by omega, by omega, by omega⟩
  obtain ⟨d, sixth, hd⟩ : ∃ d, x / 64 = 16 * (x / 1024) + d ∧ 0 ≤ d ∧ d < 16 := ⟨x / 64 % 16, by omega, by omega, by omega⟩
  obtain ⟨e, tenth, he⟩ : ∃ e, x / 1024 = 4 * (x / 4096) + e ∧ 0 ≤ e ∧ e < 4 := ⟨x / 1024 % 4, by omega, by omega, by omega⟩
  obtain ⟨f, twelfth, hf⟩ : ∃ f, x / 4096 = 2 * (x / 8192) + f ∧ 0 ≤ f ∧ f < 2 := ⟨x / 4096 % 2, by omega, by omega, by omega⟩
  obtain ⟨g, thirteenth, hg⟩ : ∃ g, x / 8192 = 8 * (x / 65536) + g ∧ 0 ≤ g ∧ g < 8 := ⟨x / 8192 % 8, by omega, by omega, by omega⟩
  refine ⟨a, b, c, d, e, f, g, x / 65536, ha, hb, hc, hd, he, hf, hg, rfl, ?_, ?_⟩
  · rw [thirteenth] at twelfth
    rw [twelfth] at tenth
    rw [tenth] at sixth
    rw [sixth] at eighth
    rw [eighth] at half
    clear sixth tenth twelfth thirteenth eighth
    omega
  · rw [half, eighth, sixth, tenth, twelfth, thirteenth]
    generalize x / 65536 = h
    clear whole half eighth sixth tenth twelfth thirteenth
    omega

-- The carry of the second sum makes up for the 0.04 / 65536 that the first lacks.
theorem hundred_carry (p h k : Int) (low : -32768 ≤ h) (high : h < 65536) (near : 41943 * h ≤ p ∧ p ≤ 41943 * h + 41942) (down : 1048576 * k ≤ p)
    (up : p ≤ 1048576 * k + 1048575) : 100 * k ≤ 4 * h + 4 ∧ 4 * h ≤ 100 * k + 101 := by
  omega

-- The two last bits of x decide how far the estimate may pass it, since the
-- copies that are taken off round down too.
theorem hundred_last (x q a b k : Int) (one : 0 ≤ a ∧ a < 2) (two : 0 ≤ b ∧ b < 4) (above : 100 * q + 28 * b + 64 * a ≤ 64 * x + 148)
    (below : 64 * x ≤ 100 * q + 500) (last : x % 4 = (2 * b + a) % 4) (down : 64 * k ≤ q) (up : q ≤ 64 * k + 63) :
    k * 100 ≤ x ∧ x < (k + 2) * 100 := by
  constructor
  · by_contra beyond
    obtain first | second : x + 1 = k * 100 ∨ x + 2 = k * 100 := by omega
    · omega
    · omega
  · omega

theorem estimate_hundred (x p q : Int) (low : -2 ^ 31 ≤ x) (high : x < 2 ^ 32)
    (first : p = x / 2 + x / 8 + x / 64 - x / 1024 + x / 4096 + x / 8192 - x / 65536) (second : q = p + p / 1048576) :
    q / 64 * 100 ≤ x ∧ x < (q / 64 + 2) * 100 := by
  obtain ⟨a, b, c, d, e, f, g, h, ha, hb, hc, hd, he, hf, hg, hh, digits, sum⟩ := hundred_digits x
  rw [sum] at first
  have near : 41943 * h ≤ p ∧ p ≤ 41943 * h + 41942 := by
    clear hh digits sum second
    omega
  have share := hundred_carry p h (p / 1048576) (by omega) (by omega) near (by omega) (by omega)
  generalize p / 1048576 = k at second share
  have sides : 100 * q + 28 * b + 64 * a ≤ 64 * x + 148 ∧ 64 * x ≤ 100 * q + 500 := by
    clear near low high hh sum
    omega
  have last : x % 4 = (2 * b + a) % 4 := by
    clear near low high hh sum share first second sides
    omega
  exact hundred_last x q a b (q / 64) ha hb sides.1 sides.2 last (by omega) (by omega)

theorem natural_ten (x p q r s : Nat) (small : x < 2 ^ 32) (first : p = x / 2 + x / 4) (second : q = p + p / 16) (third : r = q + q / 256)
    (fourth : s = r + r / 65536) : s / 8 * 10 ≤ x ∧ x < (s / 8 + 2) * 10 := by
  have near := estimate_ten x p q r s (by omega) (by omega) (by rw [first]; rfl) (by rw [second]; rfl) (by rw [third]; rfl) (by rw [fourth]; rfl)
  clear first second third fourth
  omega

theorem cast_sum (a b c d e f g : Nat) (first : d ≤ c) (second : g ≤ a) :
    ((a + b + c - d + e + f - g : Nat) : Int) = (a : Int) + b + c - d + e + f - g := by
  omega

theorem natural_hundred (x p q : Nat) (small : x < 2 ^ 32)
    (first : p = x / 2 + x / 8 + x / 64 - x / 1024 + x / 4096 + x / 8192 - x / 65536) (second : q = p + p / 1048576) :
    q / 64 * 100 ≤ x ∧ x < (q / 64 + 2) * 100 := by
  have later : x / 1024 ≤ x / 64 := Nat.div_le_div_left (by decide) (by decide)
  have last : x / 65536 ≤ x / 2 := Nat.div_le_div_left (by decide) (by decide)
  have sum := cast_sum (x / 2) (x / 8) (x / 64) (x / 1024) (x / 4096) (x / 8192) (x / 65536) later last
  rw [← first] at sum
  have near := estimate_hundred x p q (by omega) (by omega) sum (by rw [second]; rfl)
  clear first second sum later last
  omega

theorem remainder_left (c : Nat) (factor : c < 2 ^ w) (quotient : q.toNat = x.toNat / c) : (x - q * BitVec.ofNat w c).toNat = x.toNat % c := by
  have whole := Nat.div_add_mod x.toNat c
  have small := x.isLt
  have product : (q * BitVec.ofNat w c).toNat = c * (x.toNat / c) := by
    rw [BitVec.toNat_mul_of_lt (by rw [literal c factor, quotient, Nat.mul_comm]; omega), literal c factor, quotient, Nat.mul_comm]
  rw [BitVec.toNat_sub_of_le (by rw [BitVec.le_def, product]; omega), product]
  omega

-- The two sums that the routines for 7 and for 9 make of their first estimate.
theorem grown_toNat (p : BitVec w) (wide : 2 ^ 32 ≤ 2 ^ w) (part : p.toNat ≤ 3800000000) :
    (p + (p >>> 6)).toNat = p.toNat + p.toNat / 64 ∧ ((p + (p >>> 6)) + ((p + (p >>> 6)) >>> 12) + ((p + (p >>> 6)) >>> 24)).toNat =
      (p + (p >>> 6)).toNat + (p + (p >>> 6)).toNat / 4096 + (p + (p >>> 6)).toNat / 16777216 := by
  have second : (p + (p >>> 6)).toNat = p.toNat + p.toNat / 64 := shift_add p p 6 (by omega)
  refine ⟨second, ?_⟩
  generalize p + (p >>> 6) = q at second ⊢
  have more : q.toNat ≤ 3900000000 := by omega
  exact shift_twice q q q 12 24 (by
    clear second
    omega)

variable (wide : 2 ^ 32 ≤ 2 ^ w) (small : x.toNat < 2 ^ 32)
include wide small

theorem divu7_exact : (divu7 x).toNat = x.toNat / 7 := by
  simp only [divu7]
  have first : ((x >>> 1) + (x >>> 4)).toNat = x.toNat / 2 + x.toNat / 16 := shift_pair x x 1 4 (by omega)
  generalize (x >>> 1) + (x >>> 4) = p at first ⊢
  obtain ⟨second, third⟩ := grown_toNat p wide (by omega)
  generalize p + (p >>> 6) = q at second third ⊢
  generalize q + (q >>> 12) + (q >>> 24) = r at third ⊢
  have near := estimate_seven _ _ _ _ small first second third
  have last : (r >>> 2).toNat = r.toNat / 4 := shift_toNat r 2
  rw [← last] at near
  exact estimate_corrected x (r >>> 2) 7 1 3 (by decide) (by decide) (by omega) near.1 near.2

theorem divu9_exact : (divu9 x).toNat = x.toNat / 9 := by
  simp only [divu9]
  have first : (x - (x >>> 3)).toNat = x.toNat - x.toNat / 8 := shift_sub x x 3 (by omega)
  generalize x - (x >>> 3) = p at first ⊢
  obtain ⟨second, third⟩ := grown_toNat p wide (by omega)
  generalize p + (p >>> 6) = q at second third ⊢
  generalize q + (q >>> 12) + (q >>> 24) = r at third ⊢
  have near := estimate_nine _ _ _ _ small first second third
  have last : (r >>> 3).toNat = r.toNat / 8 := shift_toNat r 3
  rw [← last] at near
  exact estimate_corrected x (r >>> 3) 9 7 4 (by decide) (by decide) (by omega) near.1 near.2

theorem divu10_exact : (divu10 x).toNat = x.toNat / 10 := by
  simp only [divu10]
  have first : ((x >>> 1) + (x >>> 2)).toNat = x.toNat / 2 + x.toNat / 4 := shift_pair x x 1 2 (by omega)
  generalize (x >>> 1) + (x >>> 2) = p at first ⊢
  have second : (p + (p >>> 4)).toNat = p.toNat + p.toNat / 16 := shift_add p p 4 (by omega)
  generalize p + (p >>> 4) = q at second ⊢
  have part : q.toNat ≤ 3450000000 := by omega
  have third : (q + (q >>> 8)).toNat = q.toNat + q.toNat / 256 := shift_add q q 8 (by omega)
  generalize q + (q >>> 8) = r at third ⊢
  have whole : r.toNat ≤ 3470000000 := by
    clear first second
    omega
  have fourth : (r + (r >>> 16)).toNat = r.toNat + r.toNat / 65536 := shift_add r r 16 (by
    clear first second third
    omega)
  generalize r + (r >>> 16) = t at fourth ⊢
  have near := natural_ten _ _ _ _ _ small first second third fourth
  have last : (t >>> 3).toNat = t.toNat / 8 := shift_toNat t 3
  rw [← last] at near
  exact estimate_corrected x (t >>> 3) 10 6 4 (by decide) (by decide) (by omega) near.1 near.2

theorem divu1000_exact : (divu1000 x).toNat = x.toNat / 1000 := by
  simp only [divu1000]
  have first : ((x >>> 7) + (x >>> 8) + (x >>> 12)).toNat = x.toNat / 128 + x.toNat / 256 + x.toNat / 4096 := by
    have two : ((x >>> 7) + (x >>> 8)).toNat = x.toNat / 128 + x.toNat / 256 := shift_pair x x 7 8 (by omega)
    rw [← two]
    exact shift_add _ x 12 (by omega)
  generalize (x >>> 7) + (x >>> 8) + (x >>> 12) = t at first ⊢
  have second : ((x >>> 1) + t + (x >>> 15) + (t >>> 11) + (t >>> 14)).toNat =
      x.toNat / 2 + t.toNat + x.toNat / 32768 + t.toNat / 2048 + t.toNat / 16384 := by
    have half : (x >>> 1).toNat = x.toNat / 2 := shift_toNat x 1
    have part : t.toNat ≤ 2 ^ 26 := by omega
    have two : ((x >>> 1) + t).toNat = x.toNat / 2 + t.toNat := by
      rw [BitVec.toNat_add_of_lt (by omega), half]
    have three : ((x >>> 1) + t + (x >>> 15)).toNat = x.toNat / 2 + t.toNat + x.toNat / 32768 := by
      rw [← two]
      exact shift_add _ x 15 (by omega)
    rw [← three]
    apply shift_twice _ t t 11 14
    rw [three]
    clear first half two three
    omega
  generalize (x >>> 1) + t + (x >>> 15) + (t >>> 11) + (t >>> 14) = p at second ⊢
  have near := estimate_thousand _ _ _ small first second
  have last : (p >>> 9).toNat = p.toNat / 512 := shift_toNat p 9
  rw [← last] at near
  exact estimate_corrected x (p >>> 9) 1000 24 10 (by decide) (by decide) (by omega) near.1 near.2

theorem divu100_sum : ((x >>> 1) + (x >>> 3) + (x >>> 6) - (x >>> 10) + (x >>> 12) + (x >>> 13) - (x >>> 16)).toNat =
    x.toNat / 2 + x.toNat / 8 + x.toNat / 64 - x.toNat / 1024 + x.toNat / 4096 + x.toNat / 8192 - x.toNat / 65536 := by
  have up : x.toNat / 2 < 2 ^ 31 ∧ x.toNat / 8 < 2 ^ 29 ∧ x.toNat / 64 < 2 ^ 26 ∧ x.toNat / 4096 < 2 ^ 20 ∧ x.toNat / 8192 < 2 ^ 19 := by
    refine ⟨?_, ?_, ?_, ?_, ?_⟩ <;> omega
  have two : ((x >>> 1) + (x >>> 3)).toNat = x.toNat / 2 + x.toNat / 8 := shift_pair x x 1 3 (by clear up; omega)
  have three : ((x >>> 1) + (x >>> 3) + (x >>> 6)).toNat = x.toNat / 2 + x.toNat / 8 + x.toNat / 64 := by
    rw [← two]
    apply shift_add _ x 6
    rw [two]
    clear small two
    omega
  have first : x.toNat / 1024 ≤ x.toNat / 64 := Nat.div_le_div_left (by decide) (by decide)
  have second : x.toNat / 65536 ≤ x.toNat / 2 := Nat.div_le_div_left (by decide) (by decide)
  have four : ((x >>> 1) + (x >>> 3) + (x >>> 6) - (x >>> 10)).toNat = x.toNat / 2 + x.toNat / 8 + x.toNat / 64 - x.toNat / 1024 := by
    rw [← three]
    exact shift_sub _ x 10 (by rw [three]; exact Nat.le_trans first (Nat.le_add_left ..))
  have less : x.toNat / 2 + x.toNat / 8 + x.toNat / 64 - x.toNat / 1024 ≤ x.toNat / 2 + x.toNat / 8 + x.toNat / 64 := Nat.sub_le ..
  have more : x.toNat / 2 ≤ x.toNat / 2 + x.toNat / 8 + x.toNat / 64 - x.toNat / 1024 := by
    rw [Nat.add_sub_assoc first, Nat.add_assoc]
    exact Nat.le_add_right ..
  have six : ((x >>> 1) + (x >>> 3) + (x >>> 6) - (x >>> 10) + (x >>> 12) + (x >>> 13)).toNat =
      x.toNat / 2 + x.toNat / 8 + x.toNat / 64 - x.toNat / 1024 + x.toNat / 4096 + x.toNat / 8192 := by
    rw [← four]
    apply shift_twice _ x x 12 13
    rw [four]
    generalize x.toNat / 2 + x.toNat / 8 + x.toNat / 64 - x.toNat / 1024 = sum at less
    change sum + x.toNat / 4096 + x.toNat / 8192 < 2 ^ w
    clear small first second two three four more
    generalize x.toNat / 2 = a, x.toNat / 8 = b, x.toNat / 64 = c, x.toNat / 4096 = e, x.toNat / 8192 = f at *
    omega
  rw [← six]
  apply shift_sub _ x 16
  rw [six]
  exact Nat.le_trans (Nat.le_trans second more) (Nat.le_trans (Nat.le_add_right ..) (Nat.le_add_right ..))

theorem divu100_exact : (divu100 x).toNat = x.toNat / 100 := by
  simp only [divu100]
  have first := divu100_sum x wide small
  have part : x.toNat / 2 + x.toNat / 8 + x.toNat / 64 - x.toNat / 1024 + x.toNat / 4096 + x.toNat / 8192 - x.toNat / 65536 ≤ 2 ^ 31 + 2 ^ 30 := by
    refine Nat.le_trans (Nat.sub_le ..) ?_
    have less := Nat.sub_le (x.toNat / 2 + x.toNat / 8 + x.toNat / 64) (x.toNat / 1024)
    have up : x.toNat / 2 + x.toNat / 8 + x.toNat / 64 + x.toNat / 4096 + x.toNat / 8192 ≤ 2 ^ 31 + 2 ^ 30 := by
      clear less first
      omega
    clear first
    omega
  generalize (x >>> 1) + (x >>> 3) + (x >>> 6) - (x >>> 10) + (x >>> 12) + (x >>> 13) - (x >>> 16) = p at first ⊢
  rw [← first] at part
  have second : (p + (p >>> 20)).toNat = p.toNat + p.toNat / 1048576 := shift_add p p 20 (by
    clear first
    omega)
  generalize p + (p >>> 20) = q at second ⊢
  have near := natural_hundred _ _ _ small first second
  have last : (q >>> 6).toNat = q.toNat / 64 := shift_toNat q 6
  rw [← last] at near
  clear first second last part
  exact estimate_corrected x (q >>> 6) 100 28 7 (by decide) (by decide) (by omega) near.1 near.2

theorem divu1000000_exact : (divu1000000 x).toNat = x.toNat / 1000000 := by
  simp only [divu1000000]
  have same : (x.setWidth 64).toNat = x.toNat := by
    rw [BitVec.toNat_setWidth, Nat.mod_eq_of_lt (by omega)]
  have factor : (0x431bde83 : BitVec 64).toNat = 1125899907 := by decide
  have product : (x.setWidth 64 * 0x431bde83).toNat = x.toNat * 1125899907 := by
    rw [BitVec.toNat_mul_of_lt (by rw [same, factor]; omega), same, factor]
  have magic : x.toNat * 1125899907 / 2 ^ 50 = x.toNat / 1000000 :=
    Magic.roundup_div x.toNat 1125899907 1000000 157376 (2 ^ 50) (by decide) (by omega)
  rw [BitVec.toNat_setWidth, shift_toNat, product, magic, Nat.mod_eq_of_lt (by omega)]

omit wide small in
theorem divu100_quarter (quotient : (divu100 x).toNat = x.toNat / 100) : (divu100 x >>> 2).toNat = x.toNat / 400 := by
  rw [shift_toNat, quotient]
  exact Nat.div_div_eq_div_mul ..

theorem modu7_exact : (modu7 x).toNat = x.toNat % 7 := remainder_left x _ 7 (by omega) (divu7_exact x wide small)

theorem modu9_exact : (modu9 x).toNat = x.toNat % 9 := remainder_left x _ 9 (by omega) (divu9_exact x wide small)

theorem modu10_exact : (modu10 x).toNat = x.toNat % 10 := remainder_left x _ 10 (by omega) (divu10_exact x wide small)

theorem modu100_exact : (modu100 x).toNat = x.toNat % 100 := remainder_left x _ 100 (by omega) (divu100_exact x wide small)

theorem modu400_exact : (modu400 x).toNat = x.toNat % 400 :=
  remainder_left x _ 400 (by omega) (divu100_quarter x (divu100_exact x wide small))

theorem leapyear_exact : leapyear x = true ↔ Leap x.toNat := by
  have low : (x &&& 0x03).toNat = x.toNat % 4 := by
    have three : (0x03 : BitVec w).toNat = 2 ^ 2 - 1 := literal 3 (by omega)
    rw [BitVec.toNat_and, three, Nat.and_two_pow_sub_one_eq_mod]
  have zero : ∀ a : BitVec w, a = 0 ↔ a.toNat = 0 := fun a => by
    rw [← BitVec.toNat_inj]
    simp
  rw [leapyear, Leap, Bool.and_eq_true, Bool.or_eq_true, beq_iff_eq, bne_iff_ne, beq_iff_eq, Ne, zero, zero, zero, low, modu100_exact x wide small,
    modu400_exact x wide small]

end Unsigned

section Signed

variable (x q : BitVec 64)

theorem int_shift (a : BitVec 64) (k : Nat) : (a.sshiftRight k).toInt = a.toInt / 2 ^ k := by
  rw [BitVec.toInt_sshiftRight, Int.shiftRight_eq_div_pow, Nat.cast_pow, Nat.cast_two]

theorem int_add (a b : BitVec 64) (low : -2 ^ 63 ≤ a.toInt + b.toInt) (high : a.toInt + b.toInt < 2 ^ 63) :
    (a + b).toInt = a.toInt + b.toInt := by
  rw [BitVec.toInt_add, Int.bmod_eq_of_le (by omega) (by omega)]

theorem int_sub (a b : BitVec 64) (low : -2 ^ 63 ≤ a.toInt - b.toInt) (high : a.toInt - b.toInt < 2 ^ 63) :
    (a - b).toInt = a.toInt - b.toInt := by
  rw [BitVec.toInt_sub, Int.bmod_eq_of_le (by omega) (by omega)]

theorem int_mul (a b : BitVec 64) (low : -2 ^ 63 ≤ a.toInt * b.toInt) (high : a.toInt * b.toInt < 2 ^ 63) :
    (a * b).toInt = a.toInt * b.toInt := by
  rw [BitVec.toInt_mul, Int.bmod_eq_of_le (by omega) (by omega)]

theorem int_shift_add (a b : BitVec 64) (k : Nat) (low : -2 ^ 63 ≤ a.toInt + b.toInt / 2 ^ k) (high : a.toInt + b.toInt / 2 ^ k < 2 ^ 63) :
    (a + b.sshiftRight k).toInt = a.toInt + b.toInt / 2 ^ k := by
  have shifted := int_shift b k
  rw [int_add _ _ (by rwa [shifted]) (by rwa [shifted]), shifted]

-- A word whose value takes n bits and a sign.
def Near (n : Nat) (a : BitVec 64) : Prop := -2 ^ n ≤ a.toInt ∧ a.toInt < 2 ^ n

theorem near_shift (n : Nat) (a : BitVec 64) (k : Nat) (near : Near n a) : Near n (a.sshiftRight k) := by
  have positive : (0 : Int) < 2 ^ n := Int.pow_pos (by decide)
  have least : (1 : Int) ≤ 2 ^ k := Int.pow_pos (by decide)
  obtain ⟨low, high⟩ := near
  rw [Near, int_shift]
  constructor
  · apply Int.le_ediv_of_mul_le (by omega)
    have scaled := Int.mul_le_mul_of_nonneg_left least (Int.le_of_lt positive)
    rw [Int.neg_mul]
    omega
  · apply Int.ediv_lt_of_lt_mul (by omega)
    have scaled := Int.mul_le_mul_of_nonneg_left least (Int.le_of_lt positive)
    omega

theorem near_sum (m n : Nat) (a b : BitVec 64) (near : Near n a) (other : Near m b) (less : m ≤ n) (room : n < 63) :
    ((a + b).toInt = a.toInt + b.toInt ∧ Near (n + 1) (a + b)) ∧ (a - b).toInt = a.toInt - b.toInt ∧ Near (n + 1) (a - b) := by
  have smaller : (2 : Int) ^ m ≤ 2 ^ n := by exact_mod_cast Nat.pow_le_pow_right (by decide) less
  have double : (2 : Int) ^ (n + 1) = 2 * 2 ^ n := by rw [Int.pow_succ, Int.mul_comm]
  have whole : (2 : Int) ^ (n + 1) ≤ 2 ^ 63 := by exact_mod_cast Nat.pow_le_pow_right (by decide) room
  obtain ⟨low, high⟩ := near
  obtain ⟨least, most⟩ := other
  have sum := int_add a b (by omega) (by omega)
  have rest := int_sub a b (by omega) (by omega)
  rw [Near, Near, sum, rest]
  exact ⟨⟨rfl, by omega, by omega⟩, rfl, by omega, by omega⟩

section Steps

variable (m n : Nat) (a b : BitVec 64) (k : Nat) (near : Near n a) (other : Near m b) (less : m ≤ n) (room : n < 63)
include near other less room

theorem near_shift_add : (a + b.sshiftRight k).toInt = a.toInt + b.toInt / 2 ^ k ∧ Near (n + 1) (a + b.sshiftRight k) := by
  have sum := near_sum m n a _ near (near_shift m b k other) less room
  rw [int_shift] at sum
  exact sum.1

theorem near_shift_sub : (a - b.sshiftRight k).toInt = a.toInt - b.toInt / 2 ^ k ∧ Near (n + 1) (a - b.sshiftRight k) := by
  have sum := near_sum m n a _ near (near_shift m b k other) less room
  rw [int_shift] at sum
  exact sum.2

end Steps

theorem int_literal (n : Nat) (small : n < 2 ^ 63) : (BitVec.ofNat 64 n).toInt = n := by
  have value : (BitVec.ofNat 64 n).toNat = n := literal n (by omega)
  rw [BitVec.toInt_eq_toNat_of_lt (by omega), value]

-- x + (x >> 31 & m), which makes a quotient of a negative x round up.
theorem int_adjusted (m : Nat) (small : m < 2 ^ 31) (low : -2 ^ 31 ≤ x.toInt) (high : x.toInt < 2 ^ 31) :
    (x + (x.sshiftRight 31 &&& BitVec.ofNat 64 m)).toInt = if x.toInt < 0 then x.toInt + m else x.toInt := by
  have sign := int_shift x 31
  by_cases negative : x.toInt < 0
  · have ones : x.sshiftRight 31 = BitVec.allOnes 64 := by
      apply BitVec.eq_of_toInt_eq
      rw [sign, BitVec.toInt_allOnes]
      simp
      omega
    have term := int_literal m (by omega)
    rw [ones, BitVec.allOnes_and, int_add _ _ (by rw [term]; omega) (by rw [term]; omega), term, if_pos negative]
  · have zero : x.sshiftRight 31 = 0#64 := by
      apply BitVec.eq_of_toInt_eq
      rw [sign, BitVec.toInt_zero]
      omega
    rw [zero, BitVec.zero_and, BitVec.add_zero, if_neg negative]

-- The last step of the signed routines, as estimate_corrected.
theorem int_corrected (c a k : Nat) (sum : c + a = 2 ^ k) (half : a < c) (small : c < 2 ^ 10) (low : -2 ^ 32 ≤ x.toInt) (high : x.toInt < 2 ^ 32)
    (below : q.toInt * c ≤ x.toInt) (near : x.toInt < (q.toInt + 2) * c) :
    (q + (x - q * BitVec.ofNat 64 c + BitVec.ofNat 64 a).sshiftRight k).toInt = x.toInt / c := by
  have factor := int_literal c (by omega)
  have term := int_literal a (by omega)
  rw [Int.add_mul] at near
  have product : (q * BitVec.ofNat 64 c).toInt = q.toInt * c := by
    rw [int_mul _ _ (by rw [factor]; omega) (by rw [factor]; omega), factor]
  have rest : (x - q * BitVec.ofNat 64 c).toInt = x.toInt - q.toInt * c := by
    rw [int_sub _ _ (by rw [product]; omega) (by rw [product]; omega), product]
  have added : (x - q * BitVec.ofNat 64 c + BitVec.ofNat 64 a).toInt = x.toInt - q.toInt * c + a := by
    rw [int_add _ _ (by rw [rest, term]; omega) (by rw [rest, term]; omega), rest, term]
  have positive : (0 : Int) < c := by omega
  have bound : q.toInt ≤ 2 ^ 32 := by
    apply Int.le_of_mul_le_mul_right _ positive
    omega
  have least := BitVec.le_toInt q
  have power : (2 ^ k : Int) = c + a := by exact_mod_cast sum.symm
  by_cases exact : x.toInt - q.toInt * c < c
  · have none : (x.toInt - q.toInt * c + a) / 2 ^ k = 0 := Int.ediv_eq_zero_of_lt (by omega) (by omega)
    have quotient : x.toInt / c = q.toInt := by
      rw [Int.ediv_eq_iff_of_pos positive]
      omega
    rw [int_shift_add _ _ _ (by rw [added, none]; omega) (by rw [added, none]; omega), added, none, quotient, Int.add_zero]
  · have one : (x.toInt - q.toInt * c + a) / 2 ^ k = 1 := by
      rw [Int.ediv_eq_iff_of_pos (by omega)]
      omega
    have quotient : x.toInt / c = q.toInt + 1 := by
      rw [Int.ediv_eq_iff_of_pos positive, Int.add_mul]
      omega
    rw [int_shift_add _ _ _ (by rw [added, one]; omega) (by rw [added, one]; omega), added, one, quotient]

theorem estimate_signed_thousand (x t p : Int) (low : -2 ^ 31 ≤ x) (high : x < 2 ^ 31) (first : t = x / 128 + x / 256 + x / 4096)
    (second : p = x / 2 + t + x / 32768 + t / 2048 + t / 16384 + x / 67108864 + t / 2097152) :
    p / 512 * 1000 ≤ x ∧ x < (p / 512 + 2) * 1000 := by
  have start : 4096 * t ≤ 49 * x ∧ 49 * x ≤ 4096 * t + 12239 := by omega
  have sum : 67108864 * p ≤ 33556481 * x + 67145760 * t ∧ 33556481 * x + 67145760 * t ≤ 67108864 * p + 369059807 := by
    clear start first
    omega
  clear first second
  omega

-- The quotient rounded up below zero is the one that C truncates.
theorem tdiv_adjusted (x : Int) (c : Nat) (positive : 0 < c) : (if x < 0 then x + ((c - 1 : Nat) : Int) else x) / c = x.tdiv c := by
  split
  · rename_i negative
    have parts := Int.mul_ediv_add_emod x c
    have least := Int.emod_nonneg x (b := c) (by omega)
    have most := Int.emod_lt_of_pos x (b := c) (by omega)
    rw [Int.mul_comm] at parts
    rw [Int.tdiv_eq_ediv, Int.ediv_eq_iff_of_pos (by omega)]
    split
    · rename_i whole
      have rest := Int.emod_eq_zero_of_dvd (whole.resolve_left (by omega))
      rw [Int.add_zero]
      omega
    · rename_i broken
      have rest : x % c ≠ 0 := fun zero => broken (Or.inr (Int.dvd_of_emod_eq_zero zero))
      rw [Int.sign_eq_one_of_pos (by omega), Int.add_mul]
      omega
  · rw [Int.tdiv_eq_ediv_of_nonneg (by omega)]

theorem adjusted_near (m : Nat) (small : m < 2 ^ 31) (near : Near 31 x) : Near 31 (x + (x.sshiftRight 31 &&& BitVec.ofNat 64 m)) := by
  obtain ⟨low, high⟩ := near
  rw [Near, int_adjusted x m small low high]
  split
  · omega
  · omega

-- The signed routines past their first line: they round down.
theorem divs10_floor (y : BitVec 64) (near : Near 31 y) :
    let q := y.sshiftRight 1 + y.sshiftRight 2
    let q := q + q.sshiftRight 4
    let q := q + q.sshiftRight 8
    let q := q + q.sshiftRight 16
    let q := q.sshiftRight 3
    (q + (y - q * 10 + 6).sshiftRight 4).toInt = y.toInt / 10 := by
  obtain ⟨first, two⟩ := near_shift_add 31 31 (y.sshiftRight 1) y 2 (near_shift 31 y 1 near) near (by decide) (by decide)
  rw [int_shift] at first
  obtain ⟨second, four⟩ := near_shift_add _ _ _ _ 4 two two (Nat.le_refl _) (by decide)
  obtain ⟨third, eight⟩ := near_shift_add _ _ _ _ 8 four four (Nat.le_refl _) (by decide)
  obtain ⟨fourth, -⟩ := near_shift_add _ _ _ _ 16 eight eight (Nat.le_refl _) (by decide)
  obtain ⟨low, high⟩ := near
  have close := estimate_ten _ _ _ _ _ low (by omega) first second third fourth
  clear first second third fourth two four eight
  intro p q r t u
  have last : u.toInt = t.toInt / 8 := int_shift t 3
  rw [← last] at close
  exact int_corrected y u 10 6 4 (by decide) (by decide) (by decide) (by omega) (by omega) close.1 close.2

theorem divs100_floor (y : BitVec 64) (near : Near 31 y) :
    let q := y.sshiftRight 1 + y.sshiftRight 3 + y.sshiftRight 6 - y.sshiftRight 10 + y.sshiftRight 12 + y.sshiftRight 13 - y.sshiftRight 16
    let q := q + q.sshiftRight 20
    let q := q.sshiftRight 6
    (q + (y - q * 100 + 28).sshiftRight 7).toInt = y.toInt / 100 := by
  obtain ⟨one, first⟩ := near_shift_add 31 31 (y.sshiftRight 1) y 3 (near_shift 31 y 1 near) near (by decide) (by decide)
  obtain ⟨two, second⟩ := near_shift_add 31 _ _ y 6 first near (by decide) (by decide)
  obtain ⟨three, third⟩ := near_shift_sub 31 _ _ y 10 second near (by decide) (by decide)
  obtain ⟨four, fourth⟩ := near_shift_add 31 _ _ y 12 third near (by decide) (by decide)
  obtain ⟨five, fifth⟩ := near_shift_add 31 _ _ y 13 fourth near (by decide) (by decide)
  obtain ⟨six, sixth⟩ := near_shift_sub 31 _ _ y 16 fifth near (by decide) (by decide)
  obtain ⟨seven, -⟩ := near_shift_add _ _ _ _ 20 sixth sixth (Nat.le_refl _) (by decide)
  rw [five, four, three, two, one, int_shift] at six
  obtain ⟨low, high⟩ := near
  have close := estimate_hundred _ _ _ low (by omega) six seven
  clear one two three four five six seven first second third fourth fifth sixth
  intro p q r
  have last : r.toInt = q.toInt / 64 := int_shift q 6
  rw [← last] at close
  exact int_corrected y r 100 28 7 (by decide) (by decide) (by decide) (by omega) (by omega) close.1 close.2

theorem divs1000_floor (y : BitVec 64) (near : Near 31 y) :
    let t := y.sshiftRight 7 + y.sshiftRight 8 + y.sshiftRight 12
    let q := y.sshiftRight 1 + t + y.sshiftRight 15 + t.sshiftRight 11 + t.sshiftRight 14 + y.sshiftRight 26 + t.sshiftRight 21
    let q := q.sshiftRight 9
    (q + (y - q * 1000 + 24).sshiftRight 10).toInt = y.toInt / 1000 := by
  obtain ⟨one, first⟩ := near_shift_add 31 31 (y.sshiftRight 7) y 8 (near_shift 31 y 7 near) near (by decide) (by decide)
  obtain ⟨two, second⟩ := near_shift_add 31 _ _ y 12 first near (by decide) (by decide)
  rw [one, int_shift] at two
  generalize y.sshiftRight 7 + y.sshiftRight 8 + y.sshiftRight 12 = t at two second ⊢
  have half : Near 33 (y.sshiftRight 1) := by
    obtain ⟨low, high⟩ := near_shift 31 y 1 near
    exact ⟨by omega, by omega⟩
  obtain ⟨three, third⟩ := (near_sum _ _ _ t half second (by decide) (by decide)).1
  obtain ⟨four, fourth⟩ := near_shift_add 31 _ _ y 15 third near (by decide) (by decide)
  obtain ⟨five, fifth⟩ := near_shift_add _ _ _ t 11 fourth second (by decide) (by decide)
  obtain ⟨six, sixth⟩ := near_shift_add _ _ _ t 14 fifth second (by decide) (by decide)
  obtain ⟨seven, seventh⟩ := near_shift_add 31 _ _ y 26 sixth near (by decide) (by decide)
  obtain ⟨eight, -⟩ := near_shift_add _ _ _ t 21 seventh second (by decide) (by decide)
  rw [seven, six, five, four, three, int_shift] at eight
  obtain ⟨low, high⟩ := near
  have close := estimate_signed_thousand _ _ _ low high two eight
  clear one two three four five six seven eight first second third fourth fifth sixth seventh half
  intro _ p q
  have last : q.toInt = p.toInt / 512 := int_shift p 9
  rw [← last] at close
  exact int_corrected y q 1000 24 10 (by decide) (by decide) (by decide) (by omega) (by omega) close.1 close.2

section Truncated

variable (near : Near 31 x)
include near

theorem divs10_exact : (divs10 x).toInt = x.toInt.tdiv 10 := by
  have adjusted := int_adjusted x 9 (by decide) near.1 near.2
  have quotient := tdiv_adjusted x.toInt 10 (by decide)
  rw [← adjusted] at quotient
  exact (divs10_floor _ (adjusted_near x 9 (by decide) near)).trans quotient

theorem divs100_exact : (divs100 x).toInt = x.toInt.tdiv 100 := by
  have adjusted := int_adjusted x 99 (by decide) near.1 near.2
  have quotient := tdiv_adjusted x.toInt 100 (by decide)
  rw [← adjusted] at quotient
  exact (divs100_floor _ (adjusted_near x 99 (by decide) near)).trans quotient

theorem divs1000_exact : (divs1000 x).toInt = x.toInt.tdiv 1000 := by
  have adjusted := int_adjusted x 999 (by decide) near.1 near.2
  have quotient := tdiv_adjusted x.toInt 1000 (by decide)
  rw [← adjusted] at quotient
  exact (divs1000_floor _ (adjusted_near x 999 (by decide) near)).trans quotient

end Truncated

end Signed

theorem division_exact (w : Nat) (width : w = 32 ∨ w = 64) (x : BitVec w) (small : x.toNat < 2 ^ 32) (y : BitVec 64) (low : -2 ^ 31 ≤ y.toInt)
    (high : y.toInt < 2 ^ 31) :
    ((divu7 x).toNat = x.toNat / 7 ∧ (divu9 x).toNat = x.toNat / 9 ∧ (divu10 x).toNat = x.toNat / 10 ∧ (divu100 x).toNat = x.toNat / 100 ∧
      (divu1000 x).toNat = x.toNat / 1000 ∧ (divu1000000 x).toNat = x.toNat / 1000000) ∧
    ((divs10 y).toInt = y.toInt.tdiv 10 ∧ (divs100 y).toInt = y.toInt.tdiv 100 ∧ (divs1000 y).toInt = y.toInt.tdiv 1000) ∧
    ((modu7 x).toNat = x.toNat % 7 ∧ (modu9 x).toNat = x.toNat % 9 ∧ (modu10 x).toNat = x.toNat % 10 ∧ (modu100 x).toNat = x.toNat % 100 ∧
      (modu400 x).toNat = x.toNat % 400) ∧
    (leapyear x = true ↔ Leap x.toNat) := by
  have wide : 2 ^ 32 ≤ 2 ^ w := by
    obtain rfl | rfl := width
    · decide
    · decide
  have near : Near 31 y := ⟨low, high⟩
  refine ⟨⟨?_, ?_, ?_, ?_, ?_, ?_⟩, ⟨?_, ?_, ?_⟩, ⟨?_, ?_, ?_, ?_, ?_⟩, ?_⟩
  · exact divu7_exact x wide small
  · exact divu9_exact x wide small
  · exact divu10_exact x wide small
  · exact divu100_exact x wide small
  · exact divu1000_exact x wide small
  · exact divu1000000_exact x wide small
  · exact divs10_exact y near
  · exact divs100_exact y near
  · exact divs1000_exact y near
  · exact modu7_exact x wide small
  · exact modu9_exact x wide small
  · exact modu10_exact x wide small
  · exact modu100_exact x wide small
  · exact modu400_exact x wide small
  · exact leapyear_exact x wide small

theorem division_exact_far : (divu7 (4000000000 : BitVec 64)).toNat = 571428571 ∧ (divs10 (-2147483648)).toInt = -214748364 ∧
    (leapyear (4000000000 : BitVec 64) = true ↔ Leap 4000000000) := by
  obtain ⟨⟨seven, -⟩, ⟨ten, -⟩, -, leap⟩ := division_exact 64 (Or.inr rfl) 4000000000 (by decide) (-2147483648) (by decide) (by decide)
  exact ⟨seven, ten, leap⟩

end OsZero.Trix

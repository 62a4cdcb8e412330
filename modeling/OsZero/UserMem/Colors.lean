import Mathlib.Tactic.IntervalCases
import OsZero.Trix.Division
import OsZero.UserMem.Hash

set_option autoImplicit false

namespace OsZero.UserMem

-- The remainder as memgentlsadr, memgenadr and memgenofs compute it in line, from
-- the estimate of the quotient.
def memest9 (res : BitVec 64) : BitVec 64 :=
  let q := res - (res >>> 3)
  let q := q + (q >>> 6)
  let q := q + (q >>> 12) + (q >>> 24)
  q >>> 3

def memmod9 (res : BitVec 64) : BitVec 64 :=
  let q := memest9 res
  let r := res - q * 9
  let div9 := q + ((r + 7) >>> 4)
  let dec := div9 * 9
  res - dec

def memalignshift : Nat := 4

-- res <<= shift, and down to a cacheline of 64 bytes.
def memclofs (res : BitVec 64) (shift : Nat) : BitVec 64 := (res <<< shift) &&& ~~~63#64

-- The offset is in words.
def memgentlsadr (adr : BitVec 64) : BitVec 64 := adr + 8 * memclofs (memmod9 (adr >>> pagesizelog2)) 5

def memgenadr (ptr : BitVec 64) : BitVec 64 := ptr + memclofs (memmod9 (ptr >>> memalignshift)) 4

def memgenofs (ptr : BitVec 64) : BitVec 64 := memclofs (memmod9 (ptr >>> memalignshift)) 5

-- The first two sums make 455/512 of x; x / 9 is an eighth of that times the sum of
-- the powers of 2^-12, of which the third sum has the first three. What is missing is a
-- sum of digits in base 4096.
def ninths (x : Nat) : Nat := 65 * ((7 * x + 7) / 8) / 64

def digitsum (s : Nat) : Nat := s % 4096 + s / 4096 % 4096 + s / 16777216

def Exact9 (x : Nat) : Prop := digitsum (ninths x) + 3640 * (x % 512) ≤ 4096 * ninths (x % 512) + 3640 * (x % 9 + 9 * ((x % 9 + 7) / 7))

instance (x : Nat) : Decidable (Exact9 x) := Nat.decLe _ _

section Quotient

variable (x : Nat)

theorem ninths_split : ninths x = 455 * (x / 512) + ninths (x % 512) := by
  unfold ninths
  omega

theorem ninths_sum : x - x / 8 + (x - x / 8) / 64 = ninths x := by
  unfold ninths
  omega

theorem ninths_near : 4096 * ninths x ≤ 3640 * x + 3640 ∧ 3640 * x ≤ 4096 * ninths x + 4032 := by
  unfold ninths
  omega

theorem quot9_ninths : memquot9 x = (ninths x + ninths x / 4096 + ninths x / 16777216) / 8 := by
  simp only [memquot9, Nat.shiftRight_eq_div_pow]
  rw [← ninths_sum]

theorem digitsum_whole (s : Nat) : 4096 * s = 4095 * (s + s / 4096 + s / 16777216) + digitsum s := by
  unfold digitsum
  omega

theorem digitsum_none (s : Nat) (none : digitsum s = 0) : s = 0 := by
  have last : s / 4096 / 4096 = s / 16777216 := Nat.div_div_eq_div_mul s 4096 4096
  unfold digitsum at none
  omega

theorem estimate_error (r : Nat) (estimate : r = ninths x + ninths x / 4096 + ninths x / 16777216) :
    3640 * x + 4096 * ninths (x % 512) = 4095 * r + digitsum (ninths x) + 3640 * (x % 512) := by
  have split := ninths_split x
  have sum := digitsum_whole (ninths x)
  rw [← estimate] at sum
  omega

theorem quot9_below : memquot9 x * 9 ≤ x := by
  rw [quot9_ninths]
  generalize estimate : ninths x + ninths x / 4096 + ninths x / 16777216 = r
  have error := estimate_error x r estimate.symm
  have near := ninths_near (x % 512)
  have none : digitsum (ninths x) = 0 → x = 0 := by
    intro gone
    have zero := digitsum_none _ gone
    unfold ninths at zero
    omega
  omega

-- How far the estimate of the quotient may fall short and still be made up for.
theorem quot9_short : 7 * (x / 9 - memquot9 x) ≤ x % 9 + 7 ↔ Exact9 x := by
  rw [quot9_ninths]
  generalize estimate : ninths x + ninths x / 4096 + ninths x / 16777216 = r
  have error := estimate_error x r estimate.symm
  unfold Exact9
  generalize ninths (x % 512) = t at error ⊢
  generalize digitsum (ninths x) = d at error ⊢
  have enough : d + 3640 * (x % 512) ≤ 4096 * t + 3640 * (x % 9 + 9 * ((x % 9 + 7) / 7)) ↔
      8 * x ≤ 9 * r + 8 * (x % 9 + 9 * ((x % 9 + 7) / 7)) := by
    omega
  rw [enough]
  clear enough error estimate
  omega

def memrem9 : Nat := x - (memquot9 x + (x - memquot9 x * 9 + 7) / 16) * 9

theorem rem9_exact : memrem9 x = x % 9 ↔ Exact9 x := by
  rw [← quot9_short, memrem9]
  have below := quot9_below x
  generalize memquot9 x = q at below ⊢
  omega

theorem exact9_small (small : x < 343597383680) : Exact9 x := by
  have split := ninths_split x
  have near := ninths_near (x % 512)
  unfold Exact9 digitsum
  omega

theorem exact9_large (large : 1924145348608 ≤ x) : ¬ Exact9 x := by
  have split := ninths_split x
  have near := ninths_near (x % 512)
  unfold Exact9 digitsum
  omega

end Quotient

section Words

variable (x : BitVec 64) (small : x.toNat < 140737488355328)
include small

theorem est9_toNat : (memest9 x).toNat = memquot9 x.toNat := by
  have first : (x - (x >>> 3)).toNat = x.toNat - x.toNat / 8 := Trix.shift_sub x x 3 (Nat.div_le_self _ _)
  have quotient := quot9_ninths x.toNat
  rw [← ninths_sum] at quotient
  unfold memest9
  dsimp only
  generalize x - (x >>> 3) = p at first ⊢
  have second : (p + (p >>> 6)).toNat = p.toNat + p.toNat / 64 := Trix.shift_add p p 6 (by omega)
  rw [← first, ← second] at quotient
  generalize p + (p >>> 6) = q at second quotient ⊢
  have third : (q + (q >>> 12) + (q >>> 24)).toNat = q.toNat + q.toNat / 4096 + q.toNat / 16777216 :=
    Trix.shift_twice q q q 12 24 (by omega)
  rw [← third] at quotient
  exact (Trix.shift_toNat _ 3).trans quotient.symm

theorem mod9_toNat : (memmod9 x).toNat = memrem9 x.toNat := by
  have below := quot9_below x.toNat
  have last := est9_toNat x small
  unfold memmod9 memrem9
  dsimp only
  generalize memquot9 x.toNat = k at below last ⊢
  generalize memest9 x = q at last ⊢
  have product : (q * 9).toNat = k * 9 := by
    rw [BitVec.toNat_mul_of_lt (by rw [last]; exact Nat.lt_of_le_of_lt below (by omega)), last]
    rfl
  have rest : (x - q * 9).toNat = x.toNat - k * 9 := by
    rw [BitVec.toNat_sub_of_le (by rwa [BitVec.le_def, product]), product]
  have raised : (x - q * 9 + 7).toNat = x.toNat - k * 9 + 7 := by
    rw [BitVec.toNat_add_of_lt (by rw [rest]; exact Nat.lt_of_le_of_lt (Nat.add_le_add_right (Nat.sub_le _ _) 7) (by omega)), rest]
    rfl
  have div9 : (q + ((x - q * 9 + 7) >>> 4)).toNat = k + (x.toNat - k * 9 + 7) / 16 := by
    rw [Trix.shift_add _ _ 4 (by rw [raised, last]; omega), raised, last]
    rfl
  have dec : ((q + ((x - q * 9 + 7) >>> 4)) * 9).toNat = (k + (x.toNat - k * 9 + 7) / 16) * 9 := by
    rw [BitVec.toNat_mul_of_lt (by rw [div9]; change _ * 9 < _; omega), div9]
    rfl
  rw [BitVec.toNat_sub_of_le (by rw [BitVec.le_def, dec]; omega), dec]

end Words

theorem shifted_toNat (adr : BitVec 64) (k : Nat) (user : adr.toNat < 140737488355328) :
    (adr >>> k).toNat = adr.toNat / 2 ^ k ∧ (adr >>> k).toNat < 140737488355328 := by
  have shifted := Trix.shift_toNat adr k
  exact ⟨shifted, shifted ▸ Nat.lt_of_le_of_lt (Nat.div_le_self _ _) user⟩

theorem mod9_exact (adr : BitVec 64) (k : Nat) (user : adr.toNat < 140737488355328) :
    (memmod9 (adr >>> k)).toNat = adr.toNat / 2 ^ k % 9 ↔ Exact9 (adr.toNat / 2 ^ k) := by
  obtain ⟨shifted, small⟩ := shifted_toNat adr k user
  rw [mod9_toNat _ small, shifted, rem9_exact]

theorem mod9_low (adr : BitVec 64) (low : adr.toNat < 4398046511104) :
    (memmod9 (adr >>> memalignshift)).toNat = adr.toNat / 2 ^ memalignshift % 9 :=
  (mod9_exact adr memalignshift (by omega)).mpr (exact9_small _ (by rw [memalignshift]; omega))

-- Among these addresses are those that mmap gives.
theorem mod9_high (adr : BitVec 64) (high : 35184372088832 ≤ adr.toNat) (user : adr.toNat < 140737488355328) :
    (memmod9 (adr >>> memalignshift)).toNat ≠ adr.toNat / 2 ^ memalignshift % 9 := fun same =>
  exact9_large _ (by rw [memalignshift]; omega) ((mod9_exact adr memalignshift user).mp same)

theorem hashtabadr_exact (adr : Nat) (near : adr < 22517998136852480) : memgenhashtabadr adr = 2 * (adr / 65536 % 9) := by
  have exact := (rem9_exact (adr / 65536)).mpr (exact9_small _ (by omega))
  rw [memrem9] at exact
  simp only [memgenhashtabadr, Nat.shiftRight_eq_div_pow, Nat.shiftLeft_eq]
  change (adr / 65536 - (memquot9 (adr / 65536) + (adr / 65536 - memquot9 (adr / 65536) * 9 + 7) / 16) * 9) * 2 = _
  rw [exact, Nat.mul_comm]

theorem clofs_bounds (res : BitVec 64) (small : res.toNat ≤ 8) :
    (memclofs res 4).toNat ≤ 128 ∧ (memclofs res 5).toNat ≤ 256 ∧ (memclofs res 5).toNat % 64 = 0 := by
  have word : res = BitVec.ofNat 64 res.toNat := by simp
  generalize res.toNat = j at small word
  subst word
  interval_cases j <;> decide

-- CLSIZE is 64. The remainder of memgenofs is that of memgenadr.
structure Colored (adr : BitVec 64) : Prop where
  tlsres : (memmod9 (adr >>> pagesizelog2)).toNat = adr.toNat / 4096 % 9
  adrres : (memmod9 (adr >>> memalignshift)).toNat = adr.toNat / 16 % 9
  tabres : memgenhashtabadr adr.toNat = 2 * (adr.toNat / 65536 % 9)
  tls : ∃ words ≤ 256, (memgentlsadr adr).toNat = adr.toNat + 8 * words
  gen : ∃ bytes ≤ 2 * 64, (memgenadr adr).toNat = adr.toNat + bytes
  ofs : (memgenofs adr).toNat % 64 = 0 ∧ (memgenofs adr).toNat ≤ 4 * 64
  tab : memgenhashtabadr adr.toNat ≤ 16

theorem tlsadr_words (adr : BitVec 64) (user : adr.toNat < 140737488355328) (few : (memclofs (memmod9 (adr >>> pagesizelog2)) 5).toNat ≤ 256) :
    ∃ words ≤ 256, (memgentlsadr adr).toNat = adr.toNat + 8 * words := by
  refine ⟨_, few, ?_⟩
  have bytes : (8 * memclofs (memmod9 (adr >>> pagesizelog2)) 5).toNat = 8 * (memclofs (memmod9 (adr >>> pagesizelog2)) 5).toNat :=
    BitVec.toNat_mul_of_lt (by change 8 * _ < _; omega)
  rw [memgentlsadr, BitVec.toNat_add_of_lt (by omega), bytes]

theorem colored_iff (adr : BitVec 64) (user : adr.toNat < 140737488355328) : Colored adr ↔ Exact9 (adr.toNat / 16) := by
  have exact := mod9_exact adr memalignshift user
  refine ⟨fun colored => exact.mp colored.adrres, fun near => ?_⟩
  have adrres := exact.mpr near
  have tlsres := (mod9_exact adr pagesizelog2 user).mpr (exact9_small _ (by rw [pagesizelog2]; omega))
  have tabres := hashtabadr_exact adr.toNat (by omega)
  have tlsofs := clofs_bounds _ (by rw [tlsres]; omega)
  have adrofs := clofs_bounds _ (by rw [adrres]; omega)
  refine ⟨tlsres, adrres, tabres, tlsadr_words adr user tlsofs.2.1, ⟨_, adrofs.1, ?_⟩, ⟨adrofs.2.2, adrofs.2.1⟩, by omega⟩
  exact BitVec.toNat_add_of_lt (by omega)

theorem colored_program : Colored 0x601040#64 := (colored_iff 0x601040#64 (by decide)).mpr (by decide)

-- memgenofs returns 1984 here, from a remainder of 62.
theorem mapping_uncolored : ¬ Colored 0x7ffff7ffc000#64 := fun colored => by
  have ofs := colored.ofs.2
  revert ofs
  decide

end OsZero.UserMem

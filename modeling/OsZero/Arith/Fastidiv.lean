import OsZero.Lib.Magic
import OsZero.Lib.Stores

set_option autoImplicit false

namespace OsZero.Arith

open Stores

structure Divu16 where
  magic : UInt16
  info : UInt16
deriving DecidableEq

def FASTU32DIVSHIFTMASK : UInt32 := 0x1f
def FASTU32DIVADDBIT : UInt32 := 0x20
def FASTU32DIVSHIFTBIT : UInt32 := 0x40

def lzero32 (u : UInt32) : UInt32 := if u = 0 then 32 else UInt32.ofNat (31 - u.toNat.log2)

def powerof2 (x : UInt32) : Bool := x &&& (x - 1) == 0

def divu16item (div : UInt32) : Divu16 :=
  let val := lzero32 div
  let val := val - 16
  let shift := 15 - val
  if powerof2 div then
    { magic := 0, info := (shift ||| FASTU32DIVSHIFTBIT).toUInt16 }
  else
    let lim : UInt32 := 1 <<< shift
    let val32 := lim <<< 16
    let magic := val32 / div
    let res32 := magic * div
    let val32 := val32 - res32
    let e := div - val32
    if e < lim then
      { magic := (magic + 1).toUInt16, info := shift.toUInt16 }
    else
      let magic := magic <<< 1
      let rem := val32 <<< 1
      let magic := if div ≤ rem ∨ rem < val32 then magic + 1 else magic
      { magic := (magic + 1).toUInt16, info := (shift ||| FASTU32DIVADDBIT).toUInt16 }

def gentabloop (lim16 duptr div : Nat) (tab : Mem Divu16) : Mem Divu16 :=
  if div ≤ lim16 then
    gentabloop lim16 (duptr + 1) (div + 1) (tab.put (duptr + 1) (divu16item (UInt32.ofNat div)))
  else tab
termination_by lim16 + 1 - div

-- lim16 is below 2^32 - 1, where div would wrap before it passes lim16.
def fastu16div16gentab (lim16 : UInt32) (tab : Mem Divu16) : Mem Divu16 :=
  let tab := tab.put 0 ⟨lim16.toUInt16, 0⟩
  gentabloop lim16.toNat 1 2 tab

def _mulhiu16 (val1 val2 : UInt16) : UInt16 :=
  let v1 := val1.toUInt32
  let v2 := val2.toUInt32
  let res := v1 * v2
  (res >>> 16).toUInt16

def fastu16div16 (num div16 : UInt16) (tab : Nat → Divu16) : UInt16 :=
  let lim := (tab 0).magic.toUInt32
  if div16 = 1 then num
  else if lim ≤ div16.toUInt32 then num / div16
  else
    let info := (tab div16.toNat).info.toUInt32
    let magic := (tab div16.toNat).magic.toUInt32
    if info &&& FASTU32DIVSHIFTBIT = 0 then
      let quot := (_mulhiu16 magic.toUInt16 num).toUInt32
      if info &&& FASTU32DIVADDBIT ≠ 0 then
        let num := (num.toUInt32 - quot).toUInt16
        let info := info &&& FASTU32DIVSHIFTMASK
        let num := num >>> 1
        let quot := quot + num.toUInt32
        (quot >>> info).toUInt16
      else (quot >>> info).toUInt16
    else
      let info := info &&& FASTU32DIVSHIFTMASK
      (num.toUInt32 >>> info).toUInt16

theorem gentabloop_stored (lim16 duptr div : Nat) (tab : Mem Divu16) (beside : div = duptr + 1) :
    (gentabloop lim16 duptr div tab).stored = tab.stored ++ List.range' div (lim16 + 1 - div) := by
  induction size : lim16 + 1 - div generalizing duptr div tab with
  | zero => rw [gentabloop, if_neg (by omega), List.range'_zero, List.append_nil]
  | succ size ih =>
      rw [gentabloop, if_pos (by omega), ih (duptr + 1) (div + 1) _ (by omega) (by omega), List.range'_succ, beside]
      simp only [Mem.put, List.append_assoc, List.cons_append, List.nil_append]

theorem gentabloop_item (lim16 duptr div : Nat) (tab : Mem Divu16) (beside : div = duptr + 1) (i : Nat) :
    (gentabloop lim16 duptr div tab).cell i =
      if div ≤ i ∧ i ≤ lim16 then divu16item (UInt32.ofNat i) else tab.cell i := by
  induction size : lim16 + 1 - div generalizing duptr div tab with
  | zero => rw [gentabloop, if_neg (by omega), if_neg (by omega)]
  | succ size ih =>
      rw [gentabloop, if_pos (by omega), ih (duptr + 1) (div + 1) _ (by omega) (by omega)]
      by_cases here : i = div
      · subst here
        rw [if_neg (by omega), if_pos (by omega), ← beside, put_cell_self]
      · rw [put_cell_of_ne tab (duptr + 1) i _ (by omega)]
        by_cases within : div ≤ i ∧ i ≤ lim16
        · rw [if_pos within, if_pos (by omega)]
        · rw [if_neg within, if_neg (by omega)]

theorem gentab_stored (lim16 : UInt32) (tab : Mem Divu16) :
    (fastu16div16gentab lim16 tab).stored = tab.stored ++ 0 :: List.range' 2 (lim16.toNat - 1) := by
  rw [fastu16div16gentab, gentabloop_stored _ _ _ _ rfl]
  simp [Mem.put]

theorem gentab_head (lim16 : UInt32) (tab : Mem Divu16) : (fastu16div16gentab lim16 tab).cell 0 = ⟨lim16.toUInt16, 0⟩ := by
  rw [fastu16div16gentab, gentabloop_item _ _ _ _ rfl, if_neg (by omega), put_cell_self]

theorem gentab_item (lim16 : UInt32) (tab : Mem Divu16) (i : Nat) (low : 2 ≤ i) (high : i ≤ lim16.toNat) :
    (fastu16div16gentab lim16 tab).cell i = divu16item (UInt32.ofNat i) := by
  rw [fastu16div16gentab, gentabloop_item _ _ _ _ rfl, if_pos ⟨low, high⟩]

theorem gentab_kept (lim16 : UInt32) (tab : Mem Divu16) (i : Nat) (head : i ≠ 0) (outside : ¬ (2 ≤ i ∧ i ≤ lim16.toNat)) :
    (fastu16div16gentab lim16 tab).cell i = tab.cell i := by
  rw [fastu16div16gentab, gentabloop_item _ _ _ _ rfl, if_neg outside, put_cell_of_ne tab 0 i _ head]

def shiftof (div : UInt32) : UInt32 := 15 - (lzero32 div - 16)

theorem shiftof_toNat (div : UInt32) (positive : 0 < div.toNat) (narrow : div.toNat < 2 ^ 16) :
    (shiftof div).toNat = div.toNat.log2 := by
  have low : div.toNat.log2 < 16 := (Nat.log2_lt (by omega)).mpr narrow
  have some : div ≠ 0 := by
    intro zero
    rw [zero] at positive
    exact absurd positive (by decide)
  have zeros : (UInt32.ofNat (31 - div.toNat.log2)).toNat = 31 - div.toNat.log2 :=
    UInt32.toNat_ofNat_of_lt' (by rw [UInt32.size]; omega)
  rw [shiftof, lzero32, if_neg some]
  simp only [UInt32.toNat_sub, UInt32.reduceToNat, zeros]
  omega

theorem shiftof_low (div : UInt32) (positive : 0 < div.toNat) (narrow : div.toNat < 2 ^ 16) : (shiftof div).toNat < 16 := by
  rw [shiftof_toNat div positive narrow]
  exact (Nat.log2_lt (by omega)).mpr narrow

theorem powerof2_iff (div : UInt32) (positive : 0 < div.toNat) : powerof2 div = true ↔ div.toNat = 2 ^ div.toNat.log2 := by
  have before : (div - 1).toNat = div.toNat - 1 := UInt32.toNat_sub_of_le div 1 (UInt32.le_iff_toNat_le.mpr positive)
  rw [← Magic.power_of_two_eq div.toNat positive, powerof2, beq_iff_eq, ← UInt32.toNat_inj, UInt32.toNat_and, before]
  rfl

-- The quotient and the remainder that the multiplier of an item is made from.
def recip (div : UInt32) : UInt32 := ((1 <<< shiftof div) <<< 16) / div

def recipleft (div : UInt32) : UInt32 := ((1 <<< shiftof div) <<< 16) - recip div * div

theorem divu16item_eq (div : UInt32) : divu16item div =
    if powerof2 div then ⟨0, (shiftof div ||| FASTU32DIVSHIFTBIT).toUInt16⟩
    else if div - recipleft div < 1 <<< shiftof div then ⟨(recip div + 1).toUInt16, (shiftof div ||| 0).toUInt16⟩
    else ⟨((if div ≤ recipleft div <<< 1 ∨ recipleft div <<< 1 < recipleft div then recip div <<< 1 + 1
      else recip div <<< 1) + 1).toUInt16, (shiftof div ||| FASTU32DIVADDBIT).toUInt16⟩ := by
  rw [UInt32.or_zero]
  rfl

theorem shiftone_toNat (u : UInt32) (low : 2 * u.toNat < 2 ^ 32) : (u <<< 1).toNat = 2 * u.toNat := by
  rw [UInt32.toNat_shiftLeft, Nat.shiftLeft_eq]
  simp only [UInt32.reduceToNat, Nat.reduceMod]
  omega

section
variable (div : UInt32) (positive : 0 < div.toNat) (narrow : div.toNat < 2 ^ 16)
include positive narrow

theorem lim_toNat : ((1 : UInt32) <<< shiftof div).toNat = 2 ^ div.toNat.log2 := by
  have low := shiftof_low div positive narrow
  have below : 2 ^ div.toNat.log2 < 2 ^ 32 := by
    rw [← shiftof_toNat div positive narrow]
    exact Nat.pow_lt_pow_right (by decide) (by omega)
  rw [UInt32.toNat_shiftLeft, Nat.mod_eq_of_lt (by omega : (shiftof div).toNat < 32), shiftof_toNat div positive narrow,
    Nat.shiftLeft_eq]
  simp only [UInt32.reduceToNat, Nat.one_mul]
  exact Nat.mod_eq_of_lt below

theorem limhigh_toNat : (((1 : UInt32) <<< shiftof div) <<< 16).toNat = 2 ^ (div.toNat.log2 + 16) := by
  have low := shiftof_low div positive narrow
  have below : 2 ^ (div.toNat.log2 + 16) < 2 ^ 32 := by
    rw [← shiftof_toNat div positive narrow]
    exact Nat.pow_lt_pow_right (by decide) (by omega)
  rw [UInt32.toNat_shiftLeft, lim_toNat div positive narrow, Nat.shiftLeft_eq, Nat.pow_add]
  simp only [UInt32.reduceToNat, Nat.reduceMod]
  rw [← Nat.pow_add]
  exact Nat.mod_eq_of_lt below

theorem recip_toNat : (recip div).toNat = 2 ^ (div.toNat.log2 + 16) / div.toNat := by
  rw [recip, UInt32.toNat_div, limhigh_toNat div positive narrow]

theorem recipleft_toNat : (recipleft div).toNat = 2 ^ (div.toNat.log2 + 16) % div.toNat := by
  have whole := limhigh_toNat div positive narrow
  have fits := UInt32.toNat_lt ((1 <<< shiftof div) <<< 16)
  have below := Nat.div_mul_le_self (2 ^ (div.toNat.log2 + 16)) div.toNat
  have product : (recip div * div).toNat = 2 ^ (div.toNat.log2 + 16) / div.toNat * div.toNat := by
    rw [UInt32.toNat_mul, recip_toNat div positive narrow, Nat.mod_eq_of_lt (by omega)]
  have parts := Nat.div_add_mod (2 ^ (div.toNat.log2 + 16)) div.toNat
  rw [recipleft, UInt32.toNat_sub_of_le _ _ (UInt32.le_iff_toNat_le.mpr (by omega)), whole, product]
  rw [Nat.mul_comm] at parts
  omega

-- The quotient of a divisor between two powers of two leaves room for rounding it up.
theorem recip_bounds (between : div.toNat ≠ 2 ^ div.toNat.log2) :
    2 ^ 15 ≤ (recip div).toNat ∧ (recip div).toNat + 2 ≤ 2 ^ 16 := by
  have bounds := Magic.log_between div.toNat positive
  rw [recip_toNat div positive narrow]
  constructor
  · rw [Nat.le_div_iff_mul_le positive]
    calc 2 ^ 15 * div.toNat ≤ 2 ^ 15 * 2 ^ (div.toNat.log2 + 1) := Nat.mul_le_mul_left _ (Nat.le_of_lt bounds.2)
      _ = 2 ^ (div.toNat.log2 + 16) := by rw [← Nat.pow_add]; congr 1; omega
  · have room : 2 ^ (div.toNat.log2 + 16) < (2 ^ 16 - 1) * div.toNat := by
      have high : 2 ^ div.toNat.log2 + 1 ≤ div.toNat := by omega
      have small : 2 ^ div.toNat.log2 < 2 ^ 16 - 1 := by omega
      rw [Nat.pow_add]
      omega
    have less := (Nat.div_lt_iff_lt_mul positive).mpr room
    omega

theorem item_near (between : div.toNat ≠ 2 ^ div.toNat.log2)
    (near : div.toNat - 2 ^ (div.toNat.log2 + 16) % div.toNat < 2 ^ div.toNat.log2) :
    (divu16item div).magic.toNat = 2 ^ (div.toNat.log2 + 16) / div.toNat + 1 ∧
      (divu16item div).info = (shiftof div ||| 0).toUInt16 := by
  have left := recipleft_toNat div positive narrow
  have bounds := recip_bounds div positive narrow between
  have below : div - recipleft div < 1 <<< shiftof div := by
    have less := Nat.mod_lt (2 ^ (div.toNat.log2 + 16)) positive
    rw [UInt32.lt_iff_toNat_lt, UInt32.toNat_sub_of_le _ _ (UInt32.le_iff_toNat_le.mpr (by omega)), left,
      lim_toNat div positive narrow]
    exact near
  rw [divu16item_eq, if_neg (mt (powerof2_iff div positive).mp between), if_pos below]
  refine ⟨?_, rfl⟩
  rw [← recip_toNat div positive narrow, UInt32.toNat_toUInt16, UInt32.toNat_add]
  simp only [UInt32.reduceToNat]
  omega

theorem item_wide (between : div.toNat ≠ 2 ^ div.toNat.log2)
    (wide : ¬ div.toNat - 2 ^ (div.toNat.log2 + 16) % div.toNat < 2 ^ div.toNat.log2) :
    (divu16item div).magic.toNat + 2 ^ 16 = 2 * 2 ^ (div.toNat.log2 + 16) / div.toNat + 1 ∧
      (divu16item div).info = (shiftof div ||| FASTU32DIVADDBIT).toUInt16 := by
  have left := recipleft_toNat div positive narrow
  have bounds := recip_bounds div positive narrow between
  have less := Nat.mod_lt (2 ^ (div.toNat.log2 + 16)) positive
  have above : ¬ div - recipleft div < 1 <<< shiftof div := by
    rw [UInt32.lt_iff_toNat_lt, UInt32.toNat_sub_of_le _ _ (UInt32.le_iff_toNat_le.mpr (by omega)), left,
      lim_toNat div positive narrow]
    exact wide
  have twice := shiftone_toNat (recip div) (by omega)
  have twiceleft := shiftone_toNat (recipleft div) (by omega)
  have carry : (div ≤ recipleft div <<< 1 ∨ recipleft div <<< 1 < recipleft div) ↔
      div.toNat ≤ 2 * (2 ^ (div.toNat.log2 + 16) % div.toNat) := by
    rw [UInt32.le_iff_toNat_le, UInt32.lt_iff_toNat_lt, twiceleft, left]
    omega
  rw [divu16item_eq, if_neg (mt (powerof2_iff div positive).mp between), if_neg above]
  refine ⟨?_, rfl⟩
  rw [Magic.double_div _ _ positive, ← recip_toNat div positive narrow]
  by_cases carried : div.toNat ≤ 2 * (2 ^ (div.toNat.log2 + 16) % div.toNat)
  · rw [if_pos carried, if_pos (carry.mpr carried), UInt32.toNat_toUInt16, UInt32.toNat_add, UInt32.toNat_add, twice]
    simp only [UInt32.reduceToNat]
    omega
  · rw [if_neg carried, if_neg (mt carry.mp carried), UInt32.toNat_toUInt16, UInt32.toNat_add, twice]
    simp only [UInt32.reduceToNat]
    omega

end

-- The flag bits of an item's second word, and the shift under them.
theorem flags_of_shift (flag : UInt32) (kind : flag = 0 ∨ flag = FASTU32DIVADDBIT ∨ flag = FASTU32DIVSHIFTBIT) : ∀ s ∈ List.range 16,
    ((UInt32.ofNat s ||| flag).toUInt16.toUInt32 &&& FASTU32DIVSHIFTMASK = UInt32.ofNat s) ∧
    ((UInt32.ofNat s ||| flag).toUInt16.toUInt32 &&& FASTU32DIVSHIFTBIT = 0 ↔ flag ≠ FASTU32DIVSHIFTBIT) ∧
    ((UInt32.ofNat s ||| flag).toUInt16.toUInt32 &&& FASTU32DIVADDBIT = 0 ↔ flag ≠ FASTU32DIVADDBIT) := by
  rcases kind with rfl | rfl | rfl <;> decide

theorem mulhiu16_toNat (val1 val2 : UInt16) : (_mulhiu16 val1 val2).toNat = val1.toNat * val2.toNat / 2 ^ 16 := by
  have low1 := val1.toNat_lt
  have low2 := val2.toNat_lt
  have product : val1.toNat * val2.toNat < 2 ^ 16 * 2 ^ 16 := Nat.mul_lt_mul'' low1 low2
  rw [_mulhiu16, UInt32.toNat_toUInt16, UInt32.toNat_shiftRight, UInt32.toNat_mul, UInt16.toNat_toUInt32,
    UInt16.toNat_toUInt32, Nat.shiftRight_eq_div_pow, Nat.mod_eq_of_lt (by omega : val1.toNat * val2.toNat < 2 ^ 32)]
  simp only [UInt32.reduceToNat, Nat.reduceMod]
  omega

-- What fastu16div16 does with an item whose second word is a shift and one flag.
theorem fast_shift (num div16 : UInt16) (tab : Nat → Divu16) (shift : UInt32) (low : shift.toNat < 16) (one : div16 ≠ 1)
    (inside : ¬ (tab 0).magic.toUInt32 ≤ div16.toUInt32)
    (info : (tab div16.toNat).info = (shift ||| FASTU32DIVSHIFTBIT).toUInt16) :
    (fastu16div16 num div16 tab).toNat = num.toNat / 2 ^ shift.toNat := by
  have flags := flags_of_shift FASTU32DIVSHIFTBIT (by decide) shift.toNat (List.mem_range.mpr low)
  rw [UInt32.ofNat_toNat] at flags
  have below : num.toNat >>> shift.toNat < 2 ^ 16 := Nat.lt_of_le_of_lt (Nat.shiftRight_le _ _) num.toNat_lt
  rw [fastu16div16, if_neg one, if_neg inside, info, if_neg (by rw [flags.2.1]; decide)]
  dsimp only
  rw [flags.1, UInt32.toNat_toUInt16, UInt32.toNat_shiftRight, UInt16.toNat_toUInt32, Nat.mod_eq_of_lt (by omega : shift.toNat < 32),
    Nat.mod_eq_of_lt below, Nat.shiftRight_eq_div_pow]

theorem fast_mul (num div16 : UInt16) (tab : Nat → Divu16) (shift : UInt32) (low : shift.toNat < 16) (one : div16 ≠ 1)
    (inside : ¬ (tab 0).magic.toUInt32 ≤ div16.toUInt32) (info : (tab div16.toNat).info = (shift ||| 0).toUInt16) :
    (fastu16div16 num div16 tab).toNat = num.toNat * (tab div16.toNat).magic.toNat / 2 ^ (shift.toNat + 16) := by
  have flags := flags_of_shift 0 (by decide) shift.toNat (List.mem_range.mpr low)
  rw [UInt32.ofNat_toNat] at flags
  have same : (shift ||| 0).toUInt16.toUInt32 = shift := by
    rw [UInt32.or_zero, ← UInt32.toNat_inj, UInt16.toNat_toUInt32, UInt32.toNat_toUInt16]
    omega
  have below : (_mulhiu16 (tab div16.toNat).magic num).toNat >>> shift.toNat < 2 ^ 16 :=
    Nat.lt_of_le_of_lt (Nat.shiftRight_le _ _) (_mulhiu16 (tab div16.toNat).magic num).toNat_lt
  rw [fastu16div16, if_neg one, if_neg inside, info, if_pos (flags.2.1.mpr (by decide))]
  dsimp only
  rw [if_neg (by rw [ne_eq, flags.2.2]; decide), same, UInt16.toUInt16_toUInt32, UInt32.toNat_toUInt16, UInt32.toNat_shiftRight,
    UInt16.toNat_toUInt32, Nat.mod_eq_of_lt (by omega : shift.toNat < 32), Nat.mod_eq_of_lt below,
    Nat.shiftRight_eq_div_pow, mulhiu16_toNat, Nat.div_div_eq_div_mul, Nat.mul_comm num.toNat, Nat.pow_add, Nat.mul_comm (2 ^ 16)]

theorem fast_average (num div16 : UInt16) (tab : Nat → Divu16) (shift : UInt32) (low : shift.toNat < 16) (one : div16 ≠ 1)
    (inside : ¬ (tab 0).magic.toUInt32 ≤ div16.toUInt32)
    (info : (tab div16.toNat).info = (shift ||| FASTU32DIVADDBIT).toUInt16) :
    (fastu16div16 num div16 tab).toNat =
      num.toNat * (2 ^ 16 + (tab div16.toNat).magic.toNat) / (2 ^ (shift.toNat + 1) * 2 ^ 16) := by
  have flags := flags_of_shift FASTU32DIVADDBIT (by decide) shift.toNat (List.mem_range.mpr low)
  rw [UInt32.ofNat_toNat] at flags
  have wide := (tab div16.toNat).magic.toNat_lt
  have numlow := num.toNat_lt
  have high : num.toNat * (tab div16.toNat).magic.toNat / 2 ^ 16 ≤ num.toNat := by
    apply Nat.div_le_of_le_mul
    rw [Nat.mul_comm]
    exact Nat.mul_le_mul_right _ (Nat.le_of_lt wide)
  have quot : (_mulhiu16 (tab div16.toNat).magic num).toUInt32.toNat = num.toNat * (tab div16.toNat).magic.toNat / 2 ^ 16 := by
    rw [UInt16.toNat_toUInt32, mulhiu16_toNat, Nat.mul_comm]
  have half : ((num.toUInt32 - (_mulhiu16 (tab div16.toNat).magic num).toUInt32).toUInt16 >>> 1).toUInt32.toNat =
      (num.toNat - num.toNat * (tab div16.toNat).magic.toNat / 2 ^ 16) / 2 := by
    rw [UInt16.toNat_toUInt32, UInt16.toNat_shiftRight, UInt32.toNat_toUInt16, UInt32.toNat_sub_of_le, quot,
      UInt16.toNat_toUInt32, Nat.shiftRight_eq_div_pow]
    · simp only [UInt16.reduceToNat, Nat.reduceMod]
      omega
    · rw [UInt32.le_iff_toNat_le, quot, UInt16.toNat_toUInt32]
      exact high
  rw [fastu16div16, if_neg one, if_neg inside, info, if_pos (flags.2.1.mpr (by decide))]
  dsimp only
  rw [if_pos (by rw [ne_eq, flags.2.2]; decide), flags.1, UInt16.toUInt16_toUInt32, UInt32.toNat_toUInt16,
    UInt32.toNat_shiftRight, UInt32.toNat_add, quot, half, Nat.mod_eq_of_lt (by omega : shift.toNat < 32),
    ← Magic.averaged_div num.toNat _ _ shift.toNat (by decide) wide, Nat.shiftRight_eq_div_pow]
  generalize num.toNat * (tab div16.toNat).magic.toNat / 2 ^ 16 = part at high
  have sum : part + (num.toNat - part) / 2 < 2 ^ 16 := by omega
  rw [Nat.mod_eq_of_lt (by omega : part + (num.toNat - part) / 2 < 2 ^ 32), Nat.add_comm part,
    Nat.mod_eq_of_lt (Nat.lt_of_le_of_lt (Nat.div_le_self _ _) (by omega))]

theorem item_divides (num div16 : UInt16) (tab : Nat → Divu16) (two : 2 ≤ div16.toNat)
    (inside : ¬ (tab 0).magic.toUInt32 ≤ div16.toUInt32) (held : tab div16.toNat = divu16item div16.toUInt32) :
    (fastu16div16 num div16 tab).toNat = num.toNat / div16.toNat := by
  have same : div16.toUInt32.toNat = div16.toNat := UInt16.toNat_toUInt32 div16
  have positive : 0 < div16.toUInt32.toNat := by omega
  have narrow : div16.toUInt32.toNat < 2 ^ 16 := by rw [same]; exact div16.toNat_lt
  have low := shiftof_low div16.toUInt32 positive narrow
  have shift := shiftof_toNat div16.toUInt32 positive narrow
  have one : div16 ≠ 1 := by
    rintro rfl
    exact absurd two (by decide)
  rw [← same]
  by_cases power : div16.toUInt32.toNat = 2 ^ div16.toUInt32.toNat.log2
  · have info : (tab div16.toNat).info = (shiftof div16.toUInt32 ||| FASTU32DIVSHIFTBIT).toUInt16 := by
      rw [held, divu16item_eq, if_pos ((powerof2_iff _ positive).mpr power)]
    rw [fast_shift num div16 tab _ low one inside info, shift, ← power]
  · have numlow := num.toNat_lt
    by_cases near : div16.toUInt32.toNat - 2 ^ (div16.toUInt32.toNat.log2 + 16) % div16.toUInt32.toNat <
        2 ^ div16.toUInt32.toNat.log2
    · obtain ⟨magic, info⟩ := item_near _ positive narrow power near
      rw [← held] at magic info
      rw [fast_mul num div16 tab _ low one inside info, magic, shift]
      apply Magic.next_div _ _ _ positive
      calc _ ≤ num.toNat * 2 ^ div16.toUInt32.toNat.log2 := Nat.mul_le_mul_left _ (Nat.le_of_lt near)
        _ < 2 ^ 16 * 2 ^ div16.toUInt32.toNat.log2 := Nat.mul_lt_mul_of_pos_right numlow (Nat.two_pow_pos _)
        _ = 2 ^ (div16.toUInt32.toNat.log2 + 16) := by rw [Nat.pow_add, Nat.mul_comm]
    · obtain ⟨magic, info⟩ := item_wide _ positive narrow power near
      rw [← held] at magic info
      have point : 2 ^ (div16.toUInt32.toNat.log2 + 1) * 2 ^ 16 = 2 * 2 ^ (div16.toUInt32.toNat.log2 + 16) := by
        rw [← Nat.pow_add, ← Nat.pow_succ', Nat.add_right_comm]
      rw [fast_average num div16 tab _ low one inside info, shift, Nat.add_comm, magic, point]
      apply Magic.next_div _ _ _ positive
      have above := (Magic.log_between _ positive).2
      calc _ ≤ num.toNat * 2 ^ (div16.toUInt32.toNat.log2 + 1) := Nat.mul_le_mul_left _ (by omega)
        _ < 2 ^ 16 * 2 ^ (div16.toUInt32.toNat.log2 + 1) := Nat.mul_lt_mul_of_pos_right numlow (Nat.two_pow_pos _)
        _ = 2 * 2 ^ (div16.toUInt32.toNat.log2 + 16) := by rw [← point, Nat.mul_comm]

theorem gentab_divides (lim16 : UInt32) (low : 2 ≤ lim16.toNat) (high : lim16.toNat ≤ 65535) (tab : Mem Divu16)
    (num div16 : UInt16) (some : div16 ≠ 0) :
    (fastu16div16 num div16 (fastu16div16gentab lim16 tab).cell).toNat = num.toNat / div16.toNat := by
  have head := gentab_head lim16 tab
  have whole : lim16.toUInt16.toUInt32.toNat = lim16.toNat := by
    rw [UInt16.toNat_toUInt32, UInt32.toNat_toUInt16]
    exact Nat.mod_eq_of_lt (by omega)
  have positive : div16.toNat ≠ 0 := fun zero => some (UInt16.toNat_inj.mp zero)
  by_cases one : div16 = 1
  · rw [fastu16div16, if_pos one, one]
    exact (Nat.div_one _).symm
  by_cases inside : ((fastu16div16gentab lim16 tab).cell 0).magic.toUInt32 ≤ div16.toUInt32
  · rw [fastu16div16, if_neg one, if_pos inside, UInt16.toNat_div]
  have below : div16.toNat < lim16.toNat := by
    rw [head, UInt32.le_iff_toNat_le, whole, UInt16.toNat_toUInt32] at inside
    exact Nat.lt_of_not_le inside
  have two : 2 ≤ div16.toNat := by
    have other : div16.toNat ≠ 1 := fun same => one (UInt16.toNat_inj.mp same)
    omega
  apply item_divides num div16 _ two inside
  rw [gentab_item lim16 _ div16.toNat two (Nat.le_of_lt below)]
  congr 1
  rw [← UInt32.toNat_inj, UInt16.toNat_toUInt32, UInt32.toNat_ofNat_of_lt' (by have fits := div16.toNat_lt; rw [UInt32.size]; omega)]

-- A zero divisor is below the table's size, so the head is taken for its item: no
-- division is made, and the table's size multiplies.
theorem gentab_zero (lim16 : UInt32) (low : 2 ≤ lim16.toNat) (high : lim16.toNat ≤ 65535) (tab : Mem Divu16) (num : UInt16) :
    (fastu16div16 num 0 (fastu16div16gentab lim16 tab).cell).toNat = num.toNat * lim16.toNat / 2 ^ 16 := by
  have head := gentab_head lim16 tab
  have whole : lim16.toUInt16.toNat = lim16.toNat := by
    rw [UInt32.toNat_toUInt16]
    exact Nat.mod_eq_of_lt (by omega)
  have inside : ¬ ((fastu16div16gentab lim16 tab).cell 0).magic.toUInt32 ≤ (0 : UInt16).toUInt32 := by
    rw [head, UInt32.le_iff_toNat_le, UInt16.toNat_toUInt32, whole]
    exact Nat.not_le_of_lt (Nat.lt_of_lt_of_le (by decide) low)
  rw [fast_mul num 0 _ 0 (by decide) (by decide) inside (by rw [UInt16.toNat_zero, head]; rfl), UInt16.toNat_zero, head, whole,
    UInt32.toNat_zero]

-- Whether a call divides by its divisor in place of multiplying.
def divides (div16 : UInt16) (tab : Nat → Divu16) : Bool := div16 ≠ 1 ∧ (tab 0).magic.toUInt32 ≤ div16.toUInt32

theorem divides_some (lim16 : UInt32) (low : 2 ≤ lim16.toNat) (high : lim16.toNat ≤ 65535) (tab : Mem Divu16) (div16 : UInt16)
    (divided : divides div16 (fastu16div16gentab lim16 tab).cell = true) : div16 ≠ 0 := by
  rintro rfl
  rw [divides, decide_eq_true_eq, gentab_head, UInt32.le_iff_toNat_le, UInt16.toNat_toUInt32, UInt32.toNat_toUInt16,
    Nat.mod_eq_of_lt (by omega)] at divided
  exact absurd (Nat.le_trans low divided.2) (by decide)

-- The table of lim16 + 1 items is complete: every division through it is exact,
-- and generating it stores into the head and the items from 2 on alone.
theorem fastu16div16_exact (lim16 : UInt32) (low : 2 ≤ lim16.toNat) (high : lim16.toNat ≤ 65535) (cell : Nat → Divu16) :
    (fastu16div16gentab lim16 ⟨cell, []⟩).stored = 0 :: List.range' 2 (lim16.toNat - 1) ∧
      (∀ i, i ≠ 0 → ¬ (2 ≤ i ∧ i ≤ lim16.toNat) → (fastu16div16gentab lim16 ⟨cell, []⟩).cell i = cell i) ∧
      ∀ num div16 : UInt16, div16 ≠ 0 →
        (fastu16div16 num div16 (fastu16div16gentab lim16 ⟨cell, []⟩).cell).toNat = num.toNat / div16.toNat :=
  ⟨gentab_stored lim16 ⟨cell, []⟩, fun i head outside => gentab_kept lim16 _ i head outside,
    fun num div16 some => gentab_divides lim16 low high _ num div16 some⟩

theorem fastu16div16_exact_at_ten :
    (fastu16div16 65535 7 (fastu16div16gentab 10 ⟨fun _ => ⟨0, 0⟩, []⟩).cell).toNat = 65535 / 7 :=
  (fastu16div16_exact 10 (by decide) (by decide) (fun _ => ⟨0, 0⟩)).2.2 65535 7 (by decide)

end OsZero.Arith

import OsZero.Lib.Carry
import Mathlib.Data.BitVec

set_option autoImplicit false

namespace OsZero.Net

open Carry

-- n bytes from buf[ptr] on, the lowest first; none where one is not of the buffer.
def load (buf : List (BitVec 8)) : Nat → Nat → Option Nat
  | 0, _ => some 0
  | n + 1, ptr => buf[ptr]? >>= fun u => load buf n (ptr + 1) >>= fun rest => some (u.toNat + 2 ^ 8 * rest)

-- for (ndx = 0; ndx < size - 1; ndx += 2), where ndx has 16 bits and size - 1 wraps.
def addwords (buf : List (BitVec 8)) (size : Nat) : Nat → Nat → BitVec 32 → Option (Nat × BitVec 32)
  | 0, _, _ => none
  | fuel + 1, ndx, sum =>
      if ndx < (size + (2 ^ 64 - 1)) % 2 ^ 64 then
        load buf 2 ndx >>= fun word16 => addwords buf size fuel ((ndx + 2) % 2 ^ 16) (sum + BitVec.ofNat 32 word16)
      else some (ndx, sum)

-- while (sum >> 16)
def fold : Nat → BitVec 32 → Option (BitVec 32)
  | 0, _ => none
  | fuel + 1, sum => if sum >>> 16 ≠ 0 then fold fuel ((sum &&& 0xffff#32) + (sum >>> 16)) else some sum

def ip4chksum16 (fuel : Nat) (buf : List (BitVec 8)) (size : Nat) : Option (BitVec 64) :=
  let size := min size 65536
  addwords buf size fuel 0 0 >>= fun last =>
    (if size &&& 1 ≠ 0 then load buf 1 last.1 >>= fun word16 => some (last.2 + BitVec.ofNat 32 word16) else some last.2) >>= fun sum =>
      fold fuel sum >>= fun sum => some ((~~~sum).setWidth 64)

-- sum += u; if (sum < u) sum++;
def addcarry {w : Nat} (sum u : BitVec w) : BitVec w :=
  let sum := sum + u
  if sum < u then sum + 1 else sum

-- sum += u; if (sum >= u) continue; sum++;
def addcarry_2 {w : Nat} (sum u : BitVec w) : BitVec w :=
  let sum := sum + u
  if sum ≥ u then sum else sum + 1

-- while (len--)
def addlongs (add : BitVec 64 → BitVec 64 → BitVec 64) (buf : List (BitVec 8)) : Nat → Nat → BitVec 64 → Option (Nat × BitVec 64)
  | 0, ptr, sum => some (ptr, sum)
  | len + 1, ptr, sum => load buf 8 ptr >>= fun u => addlongs add buf len (ptr + 8) (add sum (BitVec.ofNat 64 u))

def addpart (buf : List (BitVec 8)) (taken : Bool) (n : Nat) (spot : Nat × BitVec 64) : Option (Nat × BitVec 64) :=
  if taken then load buf n spot.1 >>= fun u => some (spot.1 + n, addcarry spot.2 (BitVec.ofNat 64 u)) else some spot

-- The last byte is tested by the whole rest of the size.
def addtail (buf : List (BitVec 8)) (size : Nat) (spot : Nat × BitVec 64) : Option (BitVec 64) :=
  addpart buf (size &&& 4 ≠ 0) 4 spot >>= addpart buf (size &&& 2 ≠ 0) 2 >>= addpart buf (size ≠ 0) 1 >>= fun last => some last.2

-- tmp3 is an int when its bits are inverted.
def folddown (sum : BitVec 64) : BitVec 64 :=
  let tmp1 : BitVec 32 := addcarry (sum.setWidth 32) ((sum >>> 32).setWidth 32)
  let tmp3 : BitVec 16 := addcarry (tmp1.setWidth 16) ((tmp1 >>> 16).setWidth 16)
  (~~~tmp3.setWidth 32).signExtend 64

def ip4chksum64 (buf : List (BitVec 8)) (size : Nat) : Option (BitVec 64) :=
  let len := size >>> 3
  addlongs addcarry buf len 0 0 >>= addtail buf (size - len <<< 3) >>= fun sum => some (folddown sum)

def ip4chksum64_2 (buf : List (BitVec 8)) (size : Nat) : Option (BitVec 64) :=
  let len := size >>> 3
  addlongs addcarry_2 buf len 0 0 >>= addtail buf (size - len <<< 3) >>= fun sum => some (folddown sum)

-- The 16-bit words of a buffer on a little-endian machine, with a zero behind an odd last byte.
def words : List (BitVec 8) → List (BitVec 16)
  | [] => []
  | [byte] => [(0 : BitVec 8) ++ byte]
  | low :: high :: rest => (high ++ low) :: words rest

def chksum (buf : List (BitVec 8)) : BitVec 16 := ~~~carrysum 16 (words buf)

-- Every long enough run answers with the checksum in the low bits, and has read no byte behind the buffer.
def Checksums (buf : List (BitVec 8)) (run : Nat → Option (BitVec 64)) : Prop :=
  ∃ r : BitVec 64, r.setWidth 16 = chksum buf ∧ ∃ enough, ∀ fuel, enough ≤ fuel → run fuel = some r

-- What is to be added from ptr on.
def left (buf : List (BitVec 8)) (ptr : Nat) : Nat := total 16 (words (buf.drop ptr))

section Loads

variable {buf : List (BitVec 8)}

theorem left_pair (ptr : Nat) (inside : ptr + 2 ≤ buf.length) :
    left buf ptr = buf[ptr].toNat + 2 ^ 8 * buf[ptr + 1].toNat + left buf (ptr + 2) := by
  rw [left, List.drop_eq_getElem_cons (by omega), List.drop_eq_getElem_cons (by omega), words, total, left, BitVec.toNat_append,
    ← Nat.shiftLeft_add_eq_or_of_lt buf[ptr].isLt, Nat.shiftLeft_eq, show ptr + 1 + 1 = ptr + 2 from rfl]
  omega

theorem left_last (ptr : Nat) (last : ptr + 1 = buf.length) : left buf ptr = buf[ptr].toNat := by
  rw [left, List.drop_eq_getElem_cons (by omega), List.drop_of_length_le (by omega), words, total, total, BitVec.toNat_append]
  simp

theorem left_none (ptr : Nat) (past : buf.length ≤ ptr) : left buf ptr = 0 := by
  rw [left, List.drop_of_length_le past]
  rfl

theorem load_last (ptr : Nat) (last : ptr + 1 = buf.length) : load buf 1 ptr = some (left buf ptr) := by
  rw [left_last ptr last, load, List.getElem?_eq_getElem (by omega)]
  rfl

theorem load_past (n ptr : Nat) (past : buf.length ≤ ptr) : load buf (n + 1) ptr = none := by
  rw [load, List.getElem?_eq_none past]
  rfl

theorem load_words (k ptr : Nat) (inside : ptr + 2 * k ≤ buf.length) :
    ∃ v, load buf (2 * k) ptr = some v ∧ v < 2 ^ (16 * k) ∧ Same 65535 (v + left buf (ptr + 2 * k)) (left buf ptr) := by
  induction k generalizing ptr with
  | zero => exact ⟨0, rfl, Nat.one_pos, by rw [Nat.zero_add]; exact same_refl _ _⟩
  | succ k ih =>
    obtain ⟨v, loaded, small, same⟩ := ih (ptr + 2) (by omega)
    have low := buf[ptr].isLt
    have high := buf[ptr + 1].isLt
    refine ⟨buf[ptr].toNat + 2 ^ 8 * (buf[ptr + 1].toNat + 2 ^ 8 * v), ?_, ?_, ?_⟩
    · rw [show 2 * (k + 1) = 2 * k + 1 + 1 from rfl, load, load, List.getElem?_eq_getElem (by omega), List.getElem?_eq_getElem (by omega),
        show ptr + 1 + 1 = ptr + 2 from rfl, loaded]
      rfl
    · rw [show 16 * (k + 1) = 16 + 16 * k by omega, Nat.pow_add]
      generalize 2 ^ (16 * k) = bound at small ⊢
      omega
    · rw [left_pair ptr (by omega), show ptr + 2 * (k + 1) = ptr + 2 + 2 * k by omega]
      have carried := same_carry (2 ^ 16) (show 2 ^ 16 % 65535 = 1 % 65535 from rfl) (by decide) (buf[ptr].toNat + 2 ^ 8 * buf[ptr + 1].toNat) v
      have sum := same_add_right (left buf (ptr + 2 + 2 * k)) (same_symm carried)
      rw [Nat.add_assoc _ v] at sum
      have whole := same_trans sum (same_add_left _ same)
      rwa [show buf[ptr].toNat + 2 ^ 8 * (buf[ptr + 1].toNat + 2 ^ 8 * v) = buf[ptr].toNat + 2 ^ 8 * buf[ptr + 1].toNat + 2 ^ 16 * v by omega]

end Loads

section Sums

theorem addcarry_around {w : Nat} (sum u : BitVec w) : addcarry sum u = around w sum u := around_compare sum u

theorem addcarry_2_around {w : Nat} (sum u : BitVec w) : addcarry_2 sum u = around w sum u := by
  rw [← around_compare, addcarry_2]
  by_cases carry : sum + u < u
  · rw [if_pos carry]
    exact if_neg (BitVec.not_le.mpr carry)
  · rw [if_neg carry]
    exact if_pos (BitVec.not_lt.mp carry)

variable (buf : List (BitVec 8))

-- One addition moves a loaded value from what is left to the sum.
theorem around_load (k ptr : Nat) (sum : BitVec 64) (small : k ≤ 4) (inside : ptr + 2 * k ≤ buf.length) :
    ∃ v, load buf (2 * k) ptr = some v ∧
      Same 65535 ((around 64 sum (BitVec.ofNat 64 v)).toNat + left buf (ptr + 2 * k)) (sum.toNat + left buf ptr) := by
  obtain ⟨v, loaded, below, same⟩ := load_words k ptr inside
  have fits : v < 2 ^ 64 := Nat.lt_of_lt_of_le below (Nat.pow_le_pow_right (by decide) (by omega))
  refine ⟨v, loaded, ?_⟩
  have added := around_same (show 2 ^ 64 % 65535 = 1 % 65535 from rfl) sum (BitVec.ofNat 64 v)
  rw [BitVec.toNat_ofNat, Nat.mod_eq_of_lt fits] at added
  have moved := same_add_right (left buf (ptr + 2 * k)) added
  rw [Nat.add_assoc _ v] at moved
  exact same_trans moved (same_add_left _ same)

theorem addlongs_sum (add : BitVec 64 → BitVec 64 → BitVec 64) (adds : ∀ x y, add x y = around 64 x y) (len ptr : Nat) (sum : BitVec 64)
    (inside : ptr + 8 * len ≤ buf.length) :
    ∃ s, addlongs add buf len ptr sum = some (ptr + 8 * len, s) ∧
      Same 65535 (s.toNat + left buf (ptr + 8 * len)) (sum.toNat + left buf ptr) := by
  induction len generalizing ptr sum with
  | zero => exact ⟨sum, rfl, same_refl _ _⟩
  | succ len ih =>
    obtain ⟨v, loaded, moved⟩ := around_load buf 4 ptr sum (Nat.le_refl 4) (by omega)
    obtain ⟨s, added, same⟩ := ih (ptr + 8) (around 64 sum (BitVec.ofNat 64 v)) (by omega)
    refine ⟨s, ?_, ?_⟩
    · rw [addlongs, loaded, show ptr + 8 * (len + 1) = ptr + 8 + 8 * len by omega, ← added, ← adds]
      rfl
    · rw [show ptr + 8 * (len + 1) = ptr + 8 + 8 * len by omega]
      exact same_trans same moved

theorem addpart_sum (taken : Bool) (k ptr : Nat) (sum : BitVec 64) (small : k ≤ 4) (inside : taken = true → ptr + 2 * k ≤ buf.length) :
    ∃ s, addpart buf taken (2 * k) (ptr, sum) = some (ptr + (if taken then 2 * k else 0), s) ∧
      Same 65535 (s.toNat + left buf (ptr + if taken then 2 * k else 0)) (sum.toNat + left buf ptr) := by
  cases taken with
  | false => exact ⟨sum, rfl, same_refl _ _⟩
  | true =>
    obtain ⟨v, loaded, moved⟩ := around_load buf k ptr sum small (inside rfl)
    refine ⟨_, ?_, moved⟩
    rw [addpart, if_pos rfl, loaded, ← addcarry_around]
    rfl

theorem rest_parts : ∀ rest < 8, (if decide (rest &&& 4 ≠ 0) then 2 * 2 else 0) + (if decide (rest &&& 2 ≠ 0) then 2 * 1 else 0) + rest % 2 = rest := by
  decide

-- The first two parts leave the odd byte.
theorem addtail_even (rest ptr : Nat) (sum : BitVec 64) (small : rest < 8) (whole : ptr + rest = buf.length) :
    ∃ s, addtail buf rest (ptr, sum) = (addpart buf (rest ≠ 0) 1 (ptr + (rest - rest % 2), s) >>= fun last => some last.2) ∧
      Same 65535 (s.toNat + left buf (ptr + (rest - rest % 2))) (sum.toNat + left buf ptr) := by
  have parts := rest_parts rest small
  obtain ⟨s, first, same⟩ := addpart_sum buf (rest &&& 4 ≠ 0) 2 ptr sum (by decide) (fun taken => by rw [if_pos taken] at parts; omega)
  obtain ⟨t, second, same'⟩ := addpart_sum buf (rest &&& 2 ≠ 0) 1 (ptr + if decide (rest &&& 4 ≠ 0) then 2 * 2 else 0) s (by decide)
    (fun taken => by rw [if_pos taken] at parts; omega)
  have even : ptr + (if decide (rest &&& 4 ≠ 0) then 2 * 2 else 0) + (if decide (rest &&& 2 ≠ 0) then 2 * 1 else 0) = ptr + (rest - rest % 2) := by omega
  rw [even] at second same'
  refine ⟨t, ?_, same_trans same' same⟩
  rw [addtail, show addpart buf (rest &&& 4 ≠ 0) 4 (ptr, sum) = _ from first]
  change (addpart buf (rest &&& 2 ≠ 0) (2 * 1) _ >>= addpart buf (rest ≠ 0) 1 >>= fun last => some last.2) = _
  rw [second]
  rfl

-- The last byte of an even rest that is not zero is read behind the buffer.
theorem addtail_ends (rest ptr : Nat) (sum : BitVec 64) (small : rest < 8) (whole : ptr + rest = buf.length) :
    if rest = 0 ∨ rest % 2 = 1 then ∃ s, addtail buf rest (ptr, sum) = some s ∧ Same 65535 s.toNat (sum.toNat + left buf ptr)
    else addtail buf rest (ptr, sum) = none := by
  obtain ⟨s, parts, same⟩ := addtail_even buf rest ptr sum small whole
  by_cases none : rest = 0
  · subst none
    rw [if_pos (.inl rfl)]
    rw [left_none (ptr + (0 - 0 % 2)) (by omega), Nat.add_zero] at same
    exact ⟨s, parts, same⟩
  · have taken : decide (rest ≠ 0) = true := decide_eq_true none
    rw [taken, addpart, if_pos rfl] at parts
    by_cases odd : rest % 2 = 1
    · rw [if_pos (.inr odd)]
      have last : ptr + (rest - rest % 2) + 1 = buf.length := by omega
      have byte := (buf[ptr + (rest - rest % 2)]).isLt
      have fits : left buf (ptr + (rest - rest % 2)) < 2 ^ 64 := by
        rw [left_last _ last]
        omega
      rw [load_last _ last] at parts
      refine ⟨_, parts, ?_⟩
      rw [addcarry_around]
      have added := around_same (show 2 ^ 64 % 65535 = 1 % 65535 from rfl) s (BitVec.ofNat 64 (left buf (ptr + (rest - rest % 2))))
      rw [BitVec.toNat_ofNat, Nat.mod_eq_of_lt fits] at added
      exact same_trans added same
    · rw [if_neg (by omega), parts, load_past 0 _ (by omega)]
      rfl

end Sums

section Folds

theorem halves {w k : Nat} (x : BitVec w) (double : w = 2 * k) (one : 2 ^ k % 65535 = 1 % 65535) :
    Same 65535 (addcarry (x.setWidth k) ((x >>> k).setWidth k)).toNat x.toNat := by
  have small := x.isLt
  have high : x.toNat / 2 ^ k < 2 ^ k := by
    have square : 2 ^ w = 2 ^ k * 2 ^ k := by rw [double, Nat.two_mul, Nat.pow_add]
    exact Nat.div_lt_of_lt_mul (square ▸ small)
  have added := around_same one (x.setWidth k) ((x >>> k).setWidth k)
  rw [BitVec.toNat_setWidth, BitVec.toNat_setWidth, BitVec.toNat_ushiftRight, Nat.shiftRight_eq_div_pow, Nat.mod_eq_of_lt high] at added
  rw [addcarry_around]
  exact same_trans added (same_halves _ one (Nat.two_pow_pos k) _)

theorem chksum_of (buf : List (BitVec 8)) (t : BitVec 16) (same : Same 65535 t.toNat (left buf 0)) : ~~~t = chksum buf := by
  have sums := carrysum_same (show 2 ^ 16 % 65535 = 1 % 65535 from rfl) (words buf)
  rw [chksum, word_unique t (carrysum 16 (words buf)) (same_trans same (same_symm sums))]

theorem folddown_chksum (buf : List (BitVec 8)) (sum : BitVec 64) (same : Same 65535 sum.toNat (left buf 0)) :
    (folddown sum).setWidth 16 = chksum buf := by
  have first := halves sum (show 64 = 2 * 32 from rfl) (by decide)
  have second := halves (addcarry (sum.setWidth 32) ((sum >>> 32).setWidth 32)) (show 32 = 2 * 16 from rfl) (by decide)
  rw [← chksum_of buf _ (same_trans second (same_trans first same)), folddown]
  ext i inside
  simp only [BitVec.getElem_setWidth, BitVec.getLsbD_signExtend, BitVec.getElem_not]
  rw [if_pos (by omega), BitVec.getLsbD_not, BitVec.getLsbD_setWidth, BitVec.getLsbD_eq_getElem inside]
  simp only [show i < 64 by omega, show i < 32 by omega, decide_true, Bool.true_and]

theorem fold_ends (sum : BitVec 32) : ∃ t : BitVec 32, t.toNat < 2 ^ 16 ∧ Same 65535 t.toNat sum.toNat ∧
    ∃ enough, ∀ fuel, enough ≤ fuel → fold fuel sum = some t := by
  induction size : sum.toNat using Nat.strongRecOn generalizing sum with
  | _ n ih =>
    have low : (sum &&& 0xffff#32).toNat = sum.toNat % 2 ^ 16 := by
      rw [BitVec.toNat_and]
      exact Nat.and_two_pow_sub_one_eq_mod _ 16
    have high : (sum >>> 16).toNat = sum.toNat / 2 ^ 16 := by
      rw [BitVec.toNat_ushiftRight, Nat.shiftRight_eq_div_pow]
    have small := sum.isLt
    have next : ((sum &&& 0xffff#32) + (sum >>> 16)).toNat = sum.toNat % 2 ^ 16 + sum.toNat / 2 ^ 16 := by
      rw [BitVec.toNat_add, low, high]
      omega
    by_cases more : sum >>> 16 ≠ 0
    · have large : sum.toNat / 2 ^ 16 ≠ 0 := fun none => more (BitVec.eq_of_toNat_eq (high.trans none))
      obtain ⟨t, bound, same, enough, runs⟩ := ih _ (by omega) ((sum &&& 0xffff#32) + (sum >>> 16)) next
      refine ⟨t, bound, ?_, enough + 1, ?_⟩
      · rw [← size]
        exact same_trans same (same_halves _ (by decide) (by decide) _)
      · intro fuel longer
        obtain ⟨turns, rfl⟩ : ∃ turns, fuel = turns + 1 := ⟨fuel - 1, by omega⟩
        rw [fold, if_pos more]
        exact runs turns (by omega)
    · have none : sum.toNat / 2 ^ 16 = 0 := by
        rw [← high, not_ne_iff.mp more]
        rfl
      refine ⟨sum, by omega, size ▸ same_refl _ _, 1, fun fuel longer => ?_⟩
      obtain ⟨turns, rfl⟩ : ∃ turns, fuel = turns + 1 := ⟨fuel - 1, by omega⟩
      rw [fold, if_neg more]

end Folds

section Runs

variable (buf : List (BitVec 8))

-- The 32-bit sum cannot wrap: each word is below 2 ^ 16.
theorem addwords_sum (turns ndx : Nat) (sum : BitVec 32) (short : buf.length ≤ 65535) (even : ndx % 2 = 0) (inside : ndx ≤ buf.length)
    (nonempty : 0 < buf.length) (bound : sum.toNat ≤ 65535 * ndx) (enough : buf.length < ndx + 2 * turns) :
    ∃ s : BitVec 32, (∀ fuel, turns ≤ fuel → addwords buf buf.length fuel ndx sum = some (buf.length - buf.length % 2, s)) ∧
      s.toNat ≤ 65535 * (buf.length - buf.length % 2) ∧ Same 65535 (s.toNat + left buf (buf.length - buf.length % 2)) (sum.toNat + left buf ndx) := by
  have limit : (buf.length + (2 ^ 64 - 1)) % 2 ^ 64 = buf.length - 1 := by omega
  induction turns generalizing ndx sum with
  | zero => omega
  | succ turns ih =>
    by_cases more : ndx < buf.length - 1
    · obtain ⟨v, loaded, small, same⟩ : ∃ v, load buf 2 ndx = some v ∧ v < 2 ^ 16 ∧ Same 65535 (v + left buf (ndx + 2)) (left buf ndx) :=
        load_words 1 ndx (by omega)
      have value : (sum + BitVec.ofNat 32 v).toNat = sum.toNat + v := by
        rw [BitVec.toNat_add, BitVec.toNat_ofNat]
        omega
      obtain ⟨s, added, most, total⟩ := ih (ndx + 2) (sum + BitVec.ofNat 32 v) (by omega) (by omega) (by omega) (by omega)
      refine ⟨s, fun fuel longer => ?_, most, ?_⟩
      · obtain ⟨rest, rfl⟩ : ∃ rest, fuel = rest + 1 := ⟨fuel - 1, by omega⟩
        rw [addwords, limit, if_pos more, loaded, ← added rest (by omega), show (ndx + 2) % 2 ^ 16 = ndx + 2 by omega]
        rfl
      · rw [value, Nat.add_assoc] at total
        exact same_trans total (same_add_left _ same)
    · have last : ndx = buf.length - buf.length % 2 := by omega
      refine ⟨sum, fun fuel longer => ?_, last ▸ bound, last ▸ same_refl _ _⟩
      obtain ⟨rest, rfl⟩ : ∃ rest, fuel = rest + 1 := ⟨fuel - 1, by omega⟩
      rw [addwords, limit, if_neg more, last]

theorem ip4chksum16_sums (short : buf.length ≤ 65535) (nonempty : 0 < buf.length) : ∃ s : BitVec 32, Same 65535 s.toNat (left buf 0) ∧
    ∀ fuel, buf.length ≤ fuel → ip4chksum16 fuel buf buf.length = (fold fuel s >>= fun sum => some ((~~~sum).setWidth 64)) := by
  obtain ⟨s, added, most, same⟩ := addwords_sum buf buf.length 0 0 short rfl (Nat.zero_le _) nonempty (Nat.le_refl _) (by omega)
  rw [show (BitVec.toNat 0 : Nat) = 0 from rfl, Nat.zero_add] at same
  have size : min buf.length 65536 = buf.length := Nat.min_eq_left (by omega)
  by_cases odd : buf.length % 2 = 1
  · have last : buf.length - buf.length % 2 + 1 = buf.length := by omega
    have byte := (buf[buf.length - buf.length % 2]).isLt
    have value : (s + BitVec.ofNat 32 (left buf (buf.length - buf.length % 2))).toNat = s.toNat + left buf (buf.length - buf.length % 2) := by
      rw [left_last _ last, BitVec.toNat_add, BitVec.toNat_ofNat]
      omega
    refine ⟨s + BitVec.ofNat 32 (left buf (buf.length - buf.length % 2)), value ▸ same, fun fuel longer => ?_⟩
    have test : buf.length &&& 1 ≠ 0 := by
      rw [Nat.and_one_is_mod]
      omega
    simp only [ip4chksum16, size, added fuel longer, Option.bind_eq_bind, Option.bind_some, if_pos test, load_last _ last]
  · rw [left_none (buf.length - buf.length % 2) (by omega), Nat.add_zero] at same
    refine ⟨s, same, fun fuel longer => ?_⟩
    have test : ¬buf.length &&& 1 ≠ 0 := by
      rw [Nat.and_one_is_mod]
      omega
    simp only [ip4chksum16, size, added fuel longer, Option.bind_eq_bind, Option.bind_some, if_neg test]

theorem ip4chksum16_checksums (short : buf.length ≤ 65535) : Checksums buf (fun fuel => ip4chksum16 fuel buf buf.length) ↔ buf ≠ [] := by
  constructor
  · rintro ⟨r, -, enough, runs⟩ rfl
    have ran := runs (enough + 1) (by omega)
    contradiction
  · intro nonempty
    have positive : 0 < buf.length := List.length_pos_iff.mpr nonempty
    obtain ⟨s, same, runs⟩ := ip4chksum16_sums buf short positive
    obtain ⟨t, small, folded, enough, ends⟩ := fold_ends s
    refine ⟨(~~~t).setWidth 64, ?_, max enough buf.length, fun fuel longer => ?_⟩
    · rw [← chksum_of buf (t.setWidth 16) ?_]
      · ext i inside
        simp only [BitVec.getElem_setWidth, BitVec.getLsbD_setWidth, BitVec.getLsbD_not, BitVec.getElem_not]
        simp only [show i < 64 by omega, show i < 32 by omega, decide_true, Bool.true_and]
      · rw [BitVec.toNat_setWidth, Nat.mod_eq_of_lt small]
        exact same_trans folded same
    · show ip4chksum16 fuel buf buf.length = _
      rw [runs fuel (by omega), ends fuel (by omega)]
      rfl

theorem longs_checksums (add : BitVec 64 → BitVec 64 → BitVec 64) (adds : ∀ x y, add x y = around 64 x y) (run : Nat → Option (BitVec 64))
    (runs : ∀ fuel, run fuel = (addlongs add buf (buf.length >>> 3) 0 0 >>= addtail buf (buf.length - buf.length >>> 3 <<< 3) >>= fun sum => some (folddown sum))) :
    Checksums buf run ↔ buf.length % 8 = 0 ∨ buf.length % 2 = 1 := by
  have longs : buf.length >>> 3 = buf.length / 8 := Nat.shiftRight_eq_div_pow _ 3
  have rest : buf.length - buf.length >>> 3 <<< 3 = buf.length % 8 := by
    rw [longs, Nat.shiftLeft_eq]
    omega
  obtain ⟨s, added, same⟩ := addlongs_sum buf add adds (buf.length / 8) 0 0 (by omega)
  have ends := addtail_ends buf (buf.length % 8) (0 + 8 * (buf.length / 8)) s (by omega) (by omega)
  rw [show (BitVec.toNat 0 : Nat) = 0 from rfl, Nat.zero_add (left buf 0)] at same
  rw [rest, longs, added] at runs
  constructor
  · rintro ⟨r, -, enough, answers⟩
    have answer := (runs enough).symm.trans (answers enough (Nat.le_refl _))
    by_contra other
    rw [if_neg (by omega)] at ends
    rw [Option.bind_eq_bind, Option.bind_eq_bind, Option.bind_some, ends] at answer
    contradiction
  · intro whole
    rw [if_pos (by omega)] at ends
    obtain ⟨t, ended, total⟩ := ends
    refine ⟨folddown t, folddown_chksum buf t (same_trans total same), 0, fun fuel _ => ?_⟩
    rw [runs fuel, Option.bind_eq_bind, Option.bind_eq_bind, Option.bind_some, ended]
    rfl

theorem ip4chksum64_checksums : Checksums buf (fun _ => ip4chksum64 buf buf.length) ↔ buf.length % 8 = 0 ∨ buf.length % 2 = 1 :=
  longs_checksums buf addcarry addcarry_around _ fun _ => rfl

theorem ip4chksum64_2_checksums : Checksums buf (fun _ => ip4chksum64_2 buf buf.length) ↔ buf.length % 8 = 0 ∨ buf.length % 2 = 1 :=
  longs_checksums buf addcarry_2 addcarry_2_around _ fun _ => rfl

-- Only the empty buffer is too short for the loop by words, and the other two read
-- behind every buffer whose rest after the longs is even and not zero.
theorem ip4chksums_iff (short : buf.length ≤ 65535) :
    (Checksums buf (fun fuel => ip4chksum16 fuel buf buf.length) ↔ buf ≠ []) ∧
      (Checksums buf (fun _ => ip4chksum64 buf buf.length) ↔ buf.length % 8 = 0 ∨ buf.length % 2 = 1) ∧
      (Checksums buf (fun _ => ip4chksum64_2 buf buf.length) ↔ buf.length % 8 = 0 ∨ buf.length % 2 = 1) :=
  ⟨ip4chksum16_checksums buf short, ip4chksum64_checksums buf, ip4chksum64_2_checksums buf⟩

theorem ip4chksums_iff_five :
    Checksums [69, 1, 2, 3, 255] (fun fuel => ip4chksum16 fuel [69, 1, 2, 3, 255] 5) ∧
      Checksums [69, 1, 2, 3, 255] (fun _ => ip4chksum64 [69, 1, 2, 3, 255] 5) ∧
      Checksums [69, 1, 2, 3, 255] (fun _ => ip4chksum64_2 [69, 1, 2, 3, 255] 5) := by
  obtain ⟨sixteen, longs, longs_2⟩ := ip4chksums_iff [69, 1, 2, 3, 255] (by decide)
  exact ⟨sixteen.mpr (by decide), longs.mpr (.inr rfl), longs_2.mpr (.inr rfl)⟩

theorem ip4chksum64_reads_behind : load [69, 1] 1 2 = none ∧ ip4chksum64 [69, 1] 2 = none ∧ ¬Checksums [69, 1] (fun _ => ip4chksum64 [69, 1] 2) := by
  have none : ip4chksum64 [69, 1] 2 = none := by decide
  refine ⟨rfl, none, ?_⟩
  rintro ⟨r, -, enough, runs⟩
  have answer := none.symm.trans (runs enough (Nat.le_refl _))
  contradiction

end Runs

end OsZero.Net

import Mathlib.Data.BitVec
import Mathlib.Algebra.Group.Nat.Defs

set_option autoImplicit false

namespace OsZero.Kern

-- CHAR_BIT * sizeof(long), where LONGSIZELOG2 is l.
def longbits (l : Nat) : Nat := 2 ^ (l + 3)

abbrev Bitmap (l : Nat) := Nat → BitVec (longbits l)

section Scan

variable {l : Nat}

def bit (bmap : Bitmap l) (i : Nat) : Bool := (bmap (i / longbits l)).getLsbD (i % longbits l)

-- A word of the bitmap; none where it holds no bit below nbit.
def word (bmap : Bitmap l) (nbit ndx : Nat) : Option (BitVec (longbits l)) := if ndx * longbits l < nbit then some (bmap ndx) else none

-- A sum past LONG_MAX is undefined.
def ladd (l ofs n : Nat) : Option Nat := if ofs + n < 2 ^ (longbits l - 1) then some (ofs + n) else none

-- while (val & bit): val >>= 1, which keeps the sign, and ofs++.
def skipones : Nat → BitVec (longbits l) → Nat → Option Nat
  | 0, _, _ => none
  | fuel + 1, val, ofs => if val &&& 1 ≠ 0 then ladd l ofs 1 >>= fun ofs => skipones fuel (val.sshiftRight 1) ofs else some ofs

def answer (ofs left : Nat) : Int := if ofs < left then ofs else -1

def scan (bmap : Bitmap l) (nbit left : Nat) : Nat → Nat → Nat → Option Int
  | 0, _, _ => none
  | fuel + 1, ndx, ofs =>
      if ofs < left then
        word bmap nbit ndx >>= fun val =>
          if val = 0 then some ofs
          else if val ≠ BitVec.allOnes (longbits l) then skipones (longbits l + 1) val ofs >>= fun ofs => some (answer ofs left)
          else ladd l ofs (longbits l) >>= fun ofs => scan bmap nbit left fuel (ndx + 1) ofs
      else some (-1)

-- left is nbit after nbit -= ofs; the limit of the reads stays the nbit of the call.
def bfindzerol (fuel : Nat) (bmap : Bitmap l) (ofs nbit : Nat) : Option Int :=
  let cnt := ofs &&& (1 <<< (l + 3) - 1)
  let ndx := ofs >>> (l + 3)
  let left := nbit - ofs
  if 0 < left then
    if cnt ≠ 0 then
      word bmap nbit ndx >>= fun val =>
        let val := val.sshiftRight cnt
        if val ≠ BitVec.allOnes (longbits l) then skipones (longbits l + 1) val ofs >>= fun ofs => some (answer ofs left)
        else ladd l ofs (longbits l - cnt) >>= fun ofs => scan bmap nbit left fuel (ndx + 1) ofs
    else scan bmap nbit left fuel ndx ofs
  else some (-1)

-- What the scan is for: the first zero bit in [ofs, nbit), or -1.
def Answers (bmap : Bitmap l) (ofs nbit : Nat) (r : Int) : Prop :=
  (∃ i : Nat, r = i ∧ ofs ≤ i ∧ i < nbit ∧ bit bmap i = false ∧ ∀ j, ofs ≤ j → j < i → bit bmap j = true) ∨
  (r = -1 ∧ ∀ j, ofs ≤ j → j < nbit → bit bmap j = true)

-- All bits from ofs on are ones and the scan is to look at the last word that a
-- long can count, or starts inside it.
def Overflows (bmap : Bitmap l) (ofs nbit : Nat) : Prop :=
  (∀ j, ofs ≤ j → j < 2 ^ (longbits l - 1) → bit bmap j = true) ∧
  (2 ^ (longbits l - 1) < nbit - ofs + longbits l ∨ (2 ^ (longbits l - 1) < ofs + longbits l ∧ ofs < nbit))

-- Some call of enough turns returns r, and so does every longer one.
def Returns (bmap : Bitmap l) (ofs nbit : Nat) (r : Int) : Prop := ∃ enough, ∀ fuel, enough ≤ fuel → bfindzerol fuel bmap ofs nbit = some r

end Scan

section Words

variable {l : Nat}

theorem longbits_pos (l : Nat) : 0 < longbits l := Nat.two_pow_pos _

theorem low_bit (val : BitVec (longbits l)) : val &&& 1 ≠ 0 ↔ val.getLsbD 0 = true := by
  have width := longbits_pos l
  constructor
  · intro some
    by_contra none
    apply some
    apply BitVec.eq_of_getLsbD_eq
    intro i inside
    rw [BitVec.getLsbD_and]
    rcases Nat.eq_zero_or_pos i with zero | positive
    · rw [zero, Bool.eq_false_iff.mpr none, Bool.false_and]
      simp
    · have other : (1 : BitVec (longbits l)).getLsbD i = false := by
        have one := BitVec.getLsbD_one (w := longbits l) (i := i)
        rw [decide_eq_false (by omega : ¬i = 0), Bool.and_false] at one
        exact one
      rw [other, Bool.and_false]
      simp
  · intro set none
    have lost : (val &&& 1).getLsbD 0 = false := by
      rw [none]
      simp
    have one : (1 : BitVec (longbits l)).getLsbD 0 = true := by
      have first := BitVec.getLsbD_one (w := longbits l) (i := 0)
      rw [decide_eq_true width] at first
      exact first
    rw [BitVec.getLsbD_and, set, one] at lost
    exact Bool.noConfusion lost

theorem shifted_bit (val : BitVec (longbits l)) (cnt i : Nat) (inside : cnt + i < longbits l) :
    (val.sshiftRight cnt).getLsbD i = val.getLsbD (cnt + i) := by
  rw [BitVec.getLsbD_sshiftRight, if_pos inside, decide_eq_false (by omega : ¬longbits l ≤ i)]
  rfl

theorem skipones_first (val : BitVec (longbits l)) (j : Nat) (inside : j < longbits l) (ones : ∀ i, i < j → val.getLsbD i = true)
    (zero : val.getLsbD j = false) (fuel ofs : Nat) (enough : j < fuel) (room : ofs + j < 2 ^ (longbits l - 1)) :
    skipones fuel val ofs = some (ofs + j) := by
  induction j generalizing val fuel ofs with
  | zero =>
      obtain ⟨more, rfl⟩ := Nat.exists_eq_add_one.mpr enough
      rw [skipones, if_neg]
      · rfl
      · rw [low_bit, zero]
        exact Bool.false_ne_true
  | succ j ih =>
      obtain ⟨more, rfl⟩ := Nat.exists_eq_add_one.mpr (Nat.zero_lt_of_lt enough)
      have next : ∀ i, i < j → (val.sshiftRight 1).getLsbD i = true := fun i less => by
        rw [shifted_bit val 1 i (by omega)]
        exact ones (1 + i) (by omega)
      have last : (val.sshiftRight 1).getLsbD j = false := by
        rw [shifted_bit val 1 j (by omega), Nat.add_comm]
        exact zero
      rw [skipones, if_pos ((low_bit val).mpr (ones 0 (by omega))), ladd, if_pos (by omega)]
      rw [Option.bind_eq_bind, Option.bind_some, ih _ (by omega) next last more (ofs + 1) (by omega) (by omega), Nat.add_assoc, Nat.add_comm 1]

-- The bits of a word from cnt on are all ones, or the first zero among them is
-- where the shifts stop.
theorem word_scanned (val : BitVec (longbits l)) (cnt : Nat) (inside : cnt < longbits l) :
    (val.sshiftRight cnt = BitVec.allOnes (longbits l) ∧ ∀ i, cnt ≤ i → i < longbits l → val.getLsbD i = true) ∨
    ∃ j, cnt ≤ j ∧ j < longbits l ∧ val.getLsbD j = false ∧ (∀ i, cnt ≤ i → i < j → val.getLsbD i = true) ∧
      val.sshiftRight cnt ≠ BitVec.allOnes (longbits l) ∧
      ∀ ofs, ofs + (j - cnt) < 2 ^ (longbits l - 1) → skipones (longbits l + 1) (val.sshiftRight cnt) ofs = some (ofs + (j - cnt)) := by
  by_cases all : ∀ i, cnt ≤ i → i < longbits l → val.getLsbD i = true
  · refine .inl ⟨?_, all⟩
    apply BitVec.eq_of_getLsbD_eq
    intro i within
    rw [BitVec.getLsbD_allOnes, decide_eq_true within, BitVec.getLsbD_sshiftRight, decide_eq_false (by omega : ¬longbits l ≤ i)]
    split
    · rename_i low
      rw [all _ (Nat.le_add_right ..) low]
      rfl
    · rw [BitVec.msb_eq_getLsbD_last, all _ (by omega) (by omega)]
      rfl
  · have some : ∃ j, cnt ≤ j ∧ j < longbits l ∧ val.getLsbD j = false := by
      by_contra none
      refine all fun i low high => ?_
      by_contra zero
      exact none ⟨i, low, high, Bool.eq_false_iff.mpr zero⟩
    obtain ⟨low, high, zero⟩ := Nat.find_spec some
    have first : ∀ i, cnt ≤ i → i < Nat.find some → val.getLsbD i = true := fun i past less => by
      by_contra other
      exact Nat.find_min some less ⟨past, by omega, Bool.eq_false_iff.mpr other⟩
    generalize Nat.find some = j at low high zero first
    have stop : (val.sshiftRight cnt).getLsbD (j - cnt) = false := by
      rw [shifted_bit val cnt _ (by omega), Nat.add_sub_cancel' low]
      exact zero
    refine .inr ⟨j, low, high, zero, first, ?_, fun ofs room => ?_⟩
    · intro ones
      rw [ones, BitVec.getLsbD_allOnes, decide_eq_true (by omega)] at stop
      exact Bool.noConfusion stop
    · refine skipones_first _ (j - cnt) (by omega) (fun i less => ?_) stop _ ofs (by omega) room
      rw [shifted_bit val cnt i (by omega)]
      exact first _ (by omega) (by omega)

-- A long counts a whole number of words.
theorem whole_words (l : Nat) : ∃ m, 2 ^ (longbits l - 1) = (m + 1) * longbits l := by
  have less : l + 3 < longbits l := Nat.lt_two_pow_self
  have positive := Nat.two_pow_pos (longbits l - 1 - (l + 3))
  refine ⟨2 ^ (longbits l - 1 - (l + 3)) - 1, ?_⟩
  rw [Nat.sub_add_cancel positive]
  have power : longbits l = 2 ^ (l + 3) := rfl
  nth_rewrite 3 [power]
  rw [← Nat.pow_add, Nat.sub_add_cancel (by omega)]

theorem next_word (n : Nat) : (n + 1) * longbits l = n * longbits l + longbits l := Nat.succ_mul ..

variable (bmap : Bitmap l)

theorem bit_word (n i : Nat) (inside : i < longbits l) : bit bmap (n * longbits l + i) = (bmap n).getLsbD i := by
  have width := longbits_pos l
  rw [bit, Nat.mul_add_mod_self_right, Nat.mod_eq_of_lt inside, Nat.add_comm, Nat.add_mul_div_right _ _ width, Nat.div_eq_of_lt inside, Nat.zero_add]

def Ones (bmap : Bitmap l) (first last : Nat) : Prop := ∀ j, first ≤ j → j < last → bit bmap j = true

theorem ones_past (first next last : Nat) (later : first ≤ next) (ones : Ones bmap first last) : Ones bmap next last :=
  fun j low high => ones j (Nat.le_trans later low) high

theorem ones_gap (first last z : Nat) (ones : Ones bmap first last) (zero : bit bmap z = false) (low : first ≤ z) : last ≤ z := by
  by_contra inside
  have set := ones z low (Nat.lt_of_not_le inside)
  rw [zero] at set
  exact Bool.noConfusion set


theorem ones_word (n cnt last : Nat) (inside : last ≤ longbits l) (ones : ∀ i, cnt ≤ i → i < last → (bmap n).getLsbD i = true) :
    Ones bmap (n * longbits l + cnt) (n * longbits l + last) := by
  intro j low high
  obtain ⟨i, rfl⟩ := Nat.exists_eq_add_of_le (Nat.le_trans (Nat.le_add_right ..) low)
  rw [bit_word bmap n i (by omega)]
  exact ones i (by omega) (by omega)

theorem bitmap_scanned (n cnt : Nat) (inside : cnt < longbits l) :
    ((bmap n).sshiftRight cnt = BitVec.allOnes (longbits l) ∧ Ones bmap (n * longbits l + cnt) ((n + 1) * longbits l)) ∨
    ∃ p, n * longbits l + cnt ≤ p ∧ p < (n + 1) * longbits l ∧ bit bmap p = false ∧ Ones bmap (n * longbits l + cnt) p ∧
      (bmap n).sshiftRight cnt ≠ BitVec.allOnes (longbits l) ∧
      (p < 2 ^ (longbits l - 1) → skipones (longbits l + 1) ((bmap n).sshiftRight cnt) (n * longbits l + cnt) = some p) := by
  rw [Nat.add_mul, Nat.one_mul]
  obtain ⟨all, ones⟩ | ⟨j, low, high, zero, ones, broken, stops⟩ := word_scanned (bmap n) cnt inside
  · exact .inl ⟨all, ones_word bmap n cnt _ (Nat.le_refl _) ones⟩
  · have place : n * longbits l + cnt + (j - cnt) = n * longbits l + j := by omega
    refine .inr ⟨n * longbits l + j, by omega, by omega, ?_, ones_word bmap n cnt j (by omega) ones, broken, fun room => ?_⟩
    · rw [bit_word bmap n j high]
      exact zero
    · have stop := stops (n * longbits l + cnt) (by omega)
      rwa [place] at stop

section Loop

variable (nbit left : Nat) (short : left ≤ nbit) (long : nbit < 2 ^ (longbits l - 1))
include short

-- A turn of the scan from a word's first bit.
theorem scan_turn (fuel n : Nat) (more : n * longbits l < left) :
    (Ones bmap (n * longbits l) ((n + 1) * longbits l) ∧
      scan bmap nbit left (fuel + 1) n (n * longbits l) =
        ladd l (n * longbits l) (longbits l) >>= fun ofs => scan bmap nbit left fuel (n + 1) ofs) ∨
    ∃ p, n * longbits l ≤ p ∧ p < (n + 1) * longbits l ∧ bit bmap p = false ∧ Ones bmap (n * longbits l) p ∧
      (p < 2 ^ (longbits l - 1) → scan bmap nbit left (fuel + 1) n (n * longbits l) = some (answer p left)) := by
  have readable : word bmap nbit n = some (bmap n) := if_pos (by omega)
  have width := longbits_pos l
  obtain ⟨all, ones⟩ | ⟨p, low, high, zero, ones, broken, stops⟩ := bitmap_scanned bmap n 0 width
  · rw [Nat.add_zero] at ones
    rw [BitVec.sshiftRight_zero] at all
    refine .inl ⟨ones, ?_⟩
    have some : bmap n ≠ 0 := by
      intro none
      have first := ones (n * longbits l) (Nat.le_refl _) (by rw [Nat.add_mul]; omega)
      rw [bit, Nat.mul_mod_left, Nat.mul_div_cancel _ width, none] at first
      simp at first
    rw [scan, if_pos more, readable, Option.bind_eq_bind, Option.bind_some, if_neg some, if_neg (by simp [all])]
  · simp only [Nat.add_zero, BitVec.sshiftRight_zero] at low ones broken stops
    refine .inr ⟨p, low, high, zero, ones, fun room => ?_⟩
    rw [scan, if_pos more, readable, Option.bind_eq_bind, Option.bind_some]
    split
    · rename_i none
      have same : p = n * longbits l := by
        by_contra other
        have first := ones (n * longbits l) (Nat.le_refl _) (by omega)
        rw [bit, Nat.mul_mod_left, Nat.mul_div_cancel _ width, none] at first
        simp at first
      rw [same, answer, if_pos more]
    · rw [stops room]
      rfl

include long

-- The scan finds a first zero below the limit.
theorem scan_found (p : Nat) (before : p < left) (zero : bit bmap p = false) (fuel n : Nat) (ones : Ones bmap (n * longbits l) p)
    (start : n * longbits l ≤ p) (enough : p < (n + fuel) * longbits l) : scan bmap nbit left fuel n (n * longbits l) = some (p : Int) := by
  induction fuel generalizing n with
  | zero =>
      rw [Nat.add_zero] at enough
      omega
  | succ fuel ih =>
      obtain ⟨full, turn⟩ | ⟨q, low, high, gap, first, turn⟩ := scan_turn bmap nbit left short fuel n (by omega)
      · have past := ones_gap bmap _ _ p full zero start
        have later := ih (n + 1) (ones_past bmap _ _ _ (by rw [next_word]; omega) ones) past (by rwa [Nat.add_right_comm])
        rw [turn, ladd, if_pos (by rw [next_word] at past; omega), ← next_word]
        exact later
      · have same : q = p := by
          have above := ones_gap bmap _ _ q ones gap low
          have below := ones_gap bmap _ _ p first zero start
          omega
        rw [turn (by omega), same, answer, if_pos before]

-- Without one it answers -1, unless its position passes LONG_MAX.
theorem scan_missed (m : Nat) (whole : 2 ^ (longbits l - 1) = (m + 1) * longbits l) (fuel n : Nat) (ones : Ones bmap (n * longbits l) left)
    (room : left ≤ m * longbits l ∨ ∃ z, n * longbits l ≤ z ∧ z < 2 ^ (longbits l - 1) ∧ bit bmap z = false)
    (turns : 0 < fuel) (enough : left + longbits l ≤ (n + fuel) * longbits l) :
    scan bmap nbit left fuel n (n * longbits l) = some (-1) := by
  induction fuel generalizing n with
  | zero => exact absurd turns (Nat.lt_irrefl 0)
  | succ fuel ih =>
      by_cases more : n * longbits l < left
      · have within : n < m + 1 := by
          by_contra past
          have scaled := Nat.mul_le_mul_right (longbits l) (Nat.le_of_not_lt past)
          omega
        obtain ⟨full, turn⟩ | ⟨q, low, high, gap, first, turn⟩ := scan_turn bmap nbit left short fuel n more
        · have fits : n * longbits l + longbits l < 2 ^ (longbits l - 1) := by
            rw [whole, next_word]
            have scaled := Nat.mul_le_mul_right (longbits l) (Nat.le_of_lt_succ within)
            rcases room with less | ⟨z, least, small, gap⟩
            · omega
            · have past := ones_gap bmap _ _ z full gap least
              rw [next_word] at past
              rw [whole, next_word] at small
              omega
          have rest : left ≤ m * longbits l ∨ ∃ z, (n + 1) * longbits l ≤ z ∧ z < 2 ^ (longbits l - 1) ∧ bit bmap z = false := by
            refine room.imp id ?_
            rintro ⟨z, least, small, gap⟩
            exact ⟨z, ones_gap bmap _ _ z full gap least, small, gap⟩
          have more : 0 < fuel := by
            by_contra none
            rw [Nat.eq_zero_of_not_pos none, Nat.zero_add, next_word] at enough
            omega
          have later := ih (n + 1) (ones_past bmap _ _ _ (by rw [next_word]; omega) ones) rest more (by rwa [Nat.add_right_comm])
          rw [turn, ladd, if_pos fits, ← next_word]
          exact later
        · have past := ones_gap bmap _ _ q ones gap low
          have scaled : (n + 1) * longbits l ≤ (m + 1) * longbits l := Nat.mul_le_mul_right _ within
          rw [turn (by omega), answer, if_neg (by omega)]
      · rw [scan, if_neg more]

omit long in
theorem scan_overflows (m : Nat) (whole : 2 ^ (longbits l - 1) = (m + 1) * longbits l) (far : m * longbits l < left) (fuel n : Nat)
    (within : n ≤ m) (ones : Ones bmap (n * longbits l) (2 ^ (longbits l - 1))) : scan bmap nbit left fuel n (n * longbits l) = none := by
  induction fuel generalizing n with
  | zero => rfl
  | succ fuel ih =>
      have scaled := Nat.mul_le_mul_right (longbits l) within
      obtain ⟨-, turn⟩ | ⟨q, low, high, gap, -, -⟩ := scan_turn bmap nbit left short fuel n (by omega)
      · rw [turn, ladd, ← next_word]
        split
        · rename_i fits
          have less : n + 1 ≤ m := by
            by_contra last
            have same : n = m := by omega
            rw [same, whole] at fits
            omega
          exact ih (n + 1) less (ones_past bmap _ _ _ (by rw [next_word]; omega) ones)
        · rfl
      · have next : (n + 1) * longbits l ≤ (m + 1) * longbits l := Nat.mul_le_mul_right _ (Nat.succ_le_succ within)
        have past := ones_gap bmap _ _ q ones gap low
        omega

end Loop

theorem count_parts (l ofs : Nat) : ofs &&& (1 <<< (l + 3) - 1) = ofs % longbits l ∧ ofs >>> (l + 3) = ofs / longbits l := by
  rw [Nat.one_shiftLeft, Nat.and_two_pow_sub_one_eq_mod, Nat.shiftRight_eq_div_pow]
  exact ⟨rfl, rfl⟩

section Calls

variable (ofs nbit : Nat) (inside : ofs < nbit) (long : nbit < 2 ^ (longbits l - 1))
include inside

-- A call that starts at a word's first bit is the scan; any other one looks at
-- the rest of its word first.
theorem call_whole (start : ofs % longbits l = 0) (fuel : Nat) : bfindzerol fuel bmap ofs nbit =
    scan bmap nbit (nbit - ofs) fuel (ofs / longbits l) (ofs / longbits l * longbits l) := by
  have parts := Nat.div_add_mod ofs (longbits l)
  rw [Nat.mul_comm, start, Nat.add_zero] at parts
  simp only [bfindzerol, (count_parts l ofs).1, (count_parts l ofs).2]
  rw [if_pos (by omega), if_neg (by simp [start]), parts]

theorem call_part (start : ofs % longbits l ≠ 0) (fuel : Nat) :
    (Ones bmap ofs ((ofs / longbits l + 1) * longbits l) ∧ bfindzerol fuel bmap ofs nbit =
      ladd l ofs (longbits l - ofs % longbits l) >>= fun ofs' => scan bmap nbit (nbit - ofs) fuel (ofs / longbits l + 1) ofs') ∨
    ∃ p, ofs ≤ p ∧ p < (ofs / longbits l + 1) * longbits l ∧ bit bmap p = false ∧ Ones bmap ofs p ∧
      (p < 2 ^ (longbits l - 1) → bfindzerol fuel bmap ofs nbit = some (answer p (nbit - ofs))) := by
  have parts := Nat.div_add_mod ofs (longbits l)
  rw [Nat.mul_comm] at parts
  have less := Nat.mod_lt ofs (longbits_pos l)
  have readable : word bmap nbit (ofs / longbits l) = some (bmap (ofs / longbits l)) := if_pos (by omega)
  simp only [bfindzerol, (count_parts l ofs).1, (count_parts l ofs).2]
  rw [if_pos (by omega), if_pos start, readable, Option.bind_eq_bind, Option.bind_some]
  obtain ⟨all, ones⟩ | ⟨p, low, high, zero, ones, broken, stops⟩ := bitmap_scanned bmap (ofs / longbits l) (ofs % longbits l) less
  · rw [parts] at ones
    rw [if_neg (by simp [all])]
    exact .inl ⟨ones, rfl⟩
  · rw [parts] at low ones stops
    refine .inr ⟨p, low, high, zero, ones, fun room => ?_⟩
    rw [if_pos broken, stops room]
    rfl

include long

theorem call_found (p : Nat) (before : p < nbit - ofs) (zero : bit bmap p = false) (ones : Ones bmap ofs p) (low : ofs ≤ p) (fuel : Nat)
    (enough : p < fuel) : bfindzerol fuel bmap ofs nbit = some (p : Int) := by
  have width := longbits_pos l
  have turns : fuel ≤ fuel * longbits l := Nat.le_mul_of_pos_right _ width
  have parts := Nat.div_add_mod ofs (longbits l)
  rw [Nat.mul_comm] at parts
  by_cases start : ofs % longbits l = 0
  · rw [start, Nat.add_zero] at parts
    rw [call_whole bmap ofs nbit inside start fuel]
    exact scan_found bmap nbit _ (Nat.sub_le ..) long p before zero fuel _ (by rwa [parts]) (by rwa [parts]) (by rw [Nat.add_mul]; omega)
  · obtain ⟨full, turn⟩ | ⟨q, low', high, gap, first, turn⟩ := call_part bmap ofs nbit inside start fuel
    · have past := ones_gap bmap _ _ p full zero low
      have less := Nat.mod_lt ofs width
      rw [turn, ladd, if_pos (by rw [next_word] at past; omega)]
      have place : ofs + (longbits l - ofs % longbits l) = (ofs / longbits l + 1) * longbits l := by
        rw [next_word]
        omega
      rw [place]
      exact scan_found bmap nbit _ (Nat.sub_le ..) long p before zero fuel _ (ones_past bmap _ _ _ (by omega) ones) past
        (by rw [Nat.add_mul]; omega)
    · have above := ones_gap bmap _ _ q ones gap low'
      have below := ones_gap bmap _ _ p first zero low
      have same : q = p := by omega
      rw [turn (by omega), same, answer, if_pos before]

theorem call_missed (ones : Ones bmap ofs (nbit - ofs)) (sound : ¬Overflows bmap ofs nbit) (fuel : Nat) (enough : nbit + 2 ≤ fuel) :
    bfindzerol fuel bmap ofs nbit = some (-1) := by
  have width := longbits_pos l
  obtain ⟨m, whole⟩ := whole_words l
  have parts := Nat.div_add_mod ofs (longbits l)
  rw [Nat.mul_comm] at parts
  have turns : (nbit + 2) * longbits l ≤ fuel * longbits l := Nat.mul_le_mul_right _ enough
  have long' : nbit ≤ nbit * longbits l := Nat.le_mul_of_pos_right _ width
  rw [Nat.add_mul] at turns
  have gap : 2 ^ (longbits l - 1) < nbit - ofs + longbits l ∨ (2 ^ (longbits l - 1) < ofs + longbits l ∧ ofs < nbit) →
      ∃ z, ofs ≤ z ∧ z < 2 ^ (longbits l - 1) ∧ bit bmap z = false := fun far => by
    by_contra none
    refine sound ⟨fun j low high => ?_, far⟩
    by_contra zero
    exact none ⟨j, low, high, Bool.eq_false_iff.mpr zero⟩
  have room : nbit - ofs ≤ m * longbits l ∨ ∃ z, ofs ≤ z ∧ z < 2 ^ (longbits l - 1) ∧ bit bmap z = false := by
    by_cases far : 2 ^ (longbits l - 1) < nbit - ofs + longbits l
    · exact .inr (gap (.inl far))
    · rw [whole, next_word] at far
      exact .inl (by omega)
  by_cases start : ofs % longbits l = 0
  · rw [start, Nat.add_zero] at parts
    rw [call_whole bmap ofs nbit inside start fuel]
    exact scan_missed bmap nbit _ (Nat.sub_le ..) long m whole fuel _ (by rwa [parts]) (by rwa [parts]) (by omega) (by rw [Nat.add_mul]; omega)
  · obtain ⟨full, turn⟩ | ⟨q, low, high, zero, first, turn⟩ := call_part bmap ofs nbit inside start fuel
    · have less := Nat.mod_lt ofs width
      have place : ofs + (longbits l - ofs % longbits l) = (ofs / longbits l + 1) * longbits l := by
        rw [next_word]
        omega
      have within : ofs / longbits l < m + 1 := by
        rw [Nat.div_lt_iff_lt_mul width, ← whole]
        omega
      have fits : (ofs / longbits l + 1) * longbits l < 2 ^ (longbits l - 1) := by
        have scaled : (ofs / longbits l + 1) * longbits l ≤ (m + 1) * longbits l := Nat.mul_le_mul_right _ within
        by_contra last
        have same : (ofs / longbits l + 1) * longbits l = 2 ^ (longbits l - 1) := by omega
        obtain ⟨z, least, small, zero⟩ := gap (.inr ⟨by rw [← same, next_word]; omega, inside⟩)
        have past := ones_gap bmap _ _ z full zero least
        omega
      have rest : nbit - ofs ≤ m * longbits l ∨
          ∃ z, (ofs / longbits l + 1) * longbits l ≤ z ∧ z < 2 ^ (longbits l - 1) ∧ bit bmap z = false := by
        refine room.imp id ?_
        rintro ⟨z, least, small, zero⟩
        exact ⟨z, ones_gap bmap _ _ z full zero least, small, zero⟩
      rw [turn, ladd, place, if_pos fits]
      exact scan_missed bmap nbit _ (Nat.sub_le ..) long m whole fuel _ (ones_past bmap _ _ _ (by rw [next_word]; omega) ones) rest (by omega)
        (by rw [Nat.add_mul, next_word]; omega)
    · have past := ones_gap bmap _ _ q ones zero low
      have within : (ofs / longbits l + 1) * longbits l ≤ (m + 1) * longbits l := by
        apply Nat.mul_le_mul_right
        rw [Nat.succ_le_iff, Nat.div_lt_iff_lt_mul width, ← whole]
        omega
      rw [turn (by omega), answer, if_neg (by omega)]

theorem call_overflows (wrong : Overflows bmap ofs nbit) (fuel : Nat) : bfindzerol fuel bmap ofs nbit = none := by
  have width := longbits_pos l
  obtain ⟨m, whole⟩ := whole_words l
  have parts := Nat.div_add_mod ofs (longbits l)
  rw [Nat.mul_comm] at parts
  have less := Nat.mod_lt ofs width
  have within : ofs / longbits l < m + 1 := by
    rw [Nat.div_lt_iff_lt_mul width, ← whole]
    omega
  obtain ⟨ones, far⟩ := wrong
  have last := next_word (l := l) m
  by_cases start : ofs % longbits l = 0
  · rw [start, Nat.add_zero] at parts
    have scaled : ofs / longbits l * longbits l ≤ m * longbits l := Nat.mul_le_mul_right _ (Nat.le_of_lt_succ within)
    rw [call_whole bmap ofs nbit inside start fuel]
    exact scan_overflows bmap nbit _ (Nat.sub_le ..) m whole (by omega) fuel _ (Nat.le_of_lt_succ within) (by rwa [parts])
  · obtain ⟨-, turn⟩ | ⟨q, low, high, zero, -, -⟩ := call_part bmap ofs nbit inside start fuel
    · have place : ofs + (longbits l - ofs % longbits l) = (ofs / longbits l + 1) * longbits l := by
        rw [next_word]
        omega
      rw [turn, ladd, place]
      split
      · rename_i fits
        have before : ofs / longbits l + 1 ≤ m := by
          by_contra past
          have same : ofs / longbits l = m := by omega
          rw [same, whole] at fits
          omega
        have scaled : (ofs / longbits l + 1) * longbits l ≤ m * longbits l := Nat.mul_le_mul_right _ before
        rw [next_word] at scaled
        exact scan_overflows bmap nbit _ (Nat.sub_le ..) m whole (by omega) fuel _ before (ones_past bmap _ _ _ (by rw [next_word]; omega) ones)
      · rfl
    · have past := ones_gap bmap _ _ q ones zero low
      have scaled : (ofs / longbits l + 1) * longbits l ≤ (m + 1) * longbits l := Nat.mul_le_mul_right _ within
      omega

end Calls

theorem call_empty (nbit fuel : Nat) : bfindzerol fuel bmap nbit nbit = some (-1) := by
  simp only [bfindzerol]
  rw [Nat.sub_self, if_neg (Nat.lt_irrefl 0)]

theorem no_overflow_empty (nbit : Nat) : ¬Overflows bmap nbit nbit := by
  obtain ⟨m, whole⟩ := whole_words l
  rw [next_word] at whole
  rintro ⟨-, far | ⟨-, less⟩⟩
  · omega
  · omega

theorem bfindzerol_answers_iff (ofs nbit : Nat) (within : ofs ≤ nbit) (long : nbit < 2 ^ (longbits l - 1)) :
    (∃ r, Returns bmap ofs nbit r ∧ Answers bmap ofs nbit r) ↔
      ((∀ j, ofs ≤ j → j < nbit → bit bmap j = true) ∧ ¬Overflows bmap ofs nbit) ∨ ∃ i, ofs ≤ i ∧ i < nbit - ofs ∧ bit bmap i = false := by
  constructor
  · rintro ⟨r, ⟨enough, returns⟩, answers⟩
    by_cases seen : ∃ i, ofs ≤ i ∧ i < nbit - ofs ∧ bit bmap i = false
    · exact .inr seen
    · have ones : Ones bmap ofs (nbit - ofs) := fun j low high => by
        by_contra zero
        exact seen ⟨j, low, high, Bool.eq_false_iff.mpr zero⟩
      rcases Nat.eq_or_lt_of_le within with rfl | inside
      · exact .inl ⟨fun j low high => absurd high (Nat.not_lt_of_le low), no_overflow_empty bmap ofs⟩
      · have sound : ¬Overflows bmap ofs nbit := fun wrong => by
          have lost := returns enough (Nat.le_refl _)
          rw [call_overflows bmap ofs nbit inside long wrong] at lost
          cases lost
        have last := returns (enough + (nbit + 2)) (Nat.le_add_right ..)
        rw [call_missed bmap ofs nbit inside long ones sound _ (Nat.le_add_left ..)] at last
        have none : r = -1 := (Option.some.inj last).symm
        rcases answers with ⟨i, same, -⟩ | ⟨-, all⟩
        · omega
        · exact .inl ⟨all, sound⟩
  · rintro (⟨all, sound⟩ | some)
    · refine ⟨-1, ?_, .inr ⟨rfl, all⟩⟩
      rcases Nat.eq_or_lt_of_le within with rfl | inside
      · exact ⟨0, fun fuel _ => call_empty bmap ofs fuel⟩
      · exact ⟨nbit + 2, call_missed bmap ofs nbit inside long (fun j low high => all j low (by omega)) sound⟩
    · obtain ⟨low, high, zero⟩ := Nat.find_spec some
      have first : Ones bmap ofs (Nat.find some) := fun j past less => by
        by_contra other
        exact Nat.find_min some less ⟨past, by omega, Bool.eq_false_iff.mpr other⟩
      generalize Nat.find some = p at low high zero first
      exact ⟨p, ⟨p + 1, fun fuel enough => call_found bmap ofs nbit (by omega) long p high zero first low fuel enough⟩,
        .inl ⟨p, rfl, low, by omega, zero, first⟩⟩

-- 40 ones and zeros after them.
def forty : Bitmap 3 := fun n => if n = 0 then 0xFFFFFFFFFF#64 else 0#64

-- The scan begins among the ones, and bit 40 is below 100 - 10.
theorem bfindzerol_answers_iff_forty : ∃ r, Returns forty 10 100 r ∧ Answers forty 10 100 r :=
  (bfindzerol_answers_iff forty 10 100 (by decide) (by decide)).mpr (.inr ⟨40, by decide, by decide, by decide⟩)

theorem bfindzerol_rebased : (∀ fuel, bfindzerol fuel forty 40 64 = some (-1)) ∧ bit forty 40 = false ∧ ¬Answers forty 40 64 (-1) := by
  have zero : bit forty 40 = false := by decide
  refine ⟨fun fuel => rfl, zero, ?_⟩
  rintro (⟨i, same, -⟩ | ⟨-, ones⟩)
  · omega
  · exact absurd (ones 40 (by decide) (by decide)) (by rw [zero]; exact Bool.false_ne_true)

end Words

end OsZero.Kern

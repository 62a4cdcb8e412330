import OsZero.Lib.Cstring
import OsZero.Lib.Numerals
import OsZero.Lib.Stores
import OsZero.Trix.Division
import OsZero.Trix.Mulrange

set_option autoImplicit false

namespace OsZero.Kern

open Cstring
open Numerals
open OsZero.Trix (divu10 zeroabs)
open Stores

def LONGLONGBUFSIZE : Nat := 32

-- '0' to '9' and 'a' to 'f'.
def ltoxtab : List UInt8 := [48, 49, 50, 51, 52, 53, 54, 55, 56, 57, 97, 98, 99, 100, 101, 102]

def minus : UInt8 := 45

section Routines

variable {w : Nat}

-- The rest of a value after a digit, and the digit.
def hexdigit (uval : BitVec w) : BitVec w × BitVec w := (uval >>> 4, uval &&& 0xf)

def decdigit (uval : BitVec w) : BitVec w × BitVec w := (divu10 uval, uval - 10 * divu10 uval)

-- do { l--; buf[l] = _ltoxtab[byte]; } while (uval): none where the table has no such
-- byte, or l is 0 and wraps.
def digitloop (next : BitVec w → BitVec w × BitVec w) : Nat → BitVec w → Mem UInt8 → Option (Nat × Mem UInt8)
  | 0, _, _ => none
  | l + 1, uval, buf =>
      ltoxtab[(next uval).2.toNat]? >>= fun c =>
        if (next uval).1 ≠ 0 then digitloop next l (next uval).1 (buf.put l c) else some (l, buf.put l c)

def ulton (next : BitVec w → BitVec w × BitVec w) (uval : BitVec w) (buf : Mem UInt8) : Nat → Option (Nat × Mem UInt8)
  | 0 => none
  | l + 1 => digitloop next l uval (buf.put l 0)

def lton (next : BitVec w → BitVec w × BitVec w) (val : BitVec w) (buf : Mem UInt8) (len : Nat) : Option (Nat × Mem UInt8) :=
  ulton next (zeroabs val) buf len >>= fun done =>
    if val.slt 0 then if done.1 = 0 then none else some (done.1 - 1, done.2.put (done.1 - 1) minus) else some done

def ltoxn (val : BitVec w) (buf : Mem UInt8) (len : Nat) : Option (Nat × Mem UInt8) := lton hexdigit val buf len
def ltodn (val : BitVec w) (buf : Mem UInt8) (len : Nat) : Option (Nat × Mem UInt8) := lton decdigit val buf len
def ultoxn (uval : BitVec w) (buf : Mem UInt8) (len : Nat) : Option (Nat × Mem UInt8) := ulton hexdigit uval buf len
def ultodn (uval : BitVec w) (buf : Mem UInt8) (len : Nat) : Option (Nat × Mem UInt8) := ulton decdigit uval buf len

end Routines

-- The sign and the digits of a number, and the number that such a text stands for.
def glyph (d : Nat) : UInt8 := ltoxtab.getD d 0

def spelling (base n : Nat) : List UInt8 := (numeral base n).map glyph

def signed (base : Nat) (v : Int) : List UInt8 := (if v < 0 then [minus] else []) ++ spelling base v.natAbs

def digitof (base : Nat) (c : UInt8) : Option Nat := if ltoxtab.idxOf c < base then some (ltoxtab.idxOf c) else none

def parsenat (base : Nat) : List UInt8 → Nat → Option Nat
  | [], v => some v
  | c :: t, v => digitof base c >>= fun d => parsenat base t (v * base + d)

def parse (base : Nat) (t : List UInt8) : Option Int :=
  if t.head? = some minus then parsenat base t.tail 0 >>= fun v => some (-v) else parsenat base t 0 >>= fun v => some v

-- The string at l, whose NUL is in the buffer.
def stringat (buf : Mem UInt8) (l : Nat) : Option (List UInt8) :=
  if 0 ∈ slice buf.cell l LONGLONGBUFSIZE then some ((slice buf.cell l LONGLONGBUFSIZE).takeWhile (· ≠ 0)) else none

def Prints (base : Nat) (v : Int) (answer : Option (Nat × Mem UInt8)) : Prop :=
  ∃ l str, answer = some (l, str) ∧ str.Within 0 LONGLONGBUFSIZE ∧ stringat str l = some (signed base v) ∧ parse base (signed base v) = some v

-- What the shifts and sums make of a tenth of n, and what they leave.
def tenth (n : Nat) : Nat :=
  let q := n / 2 + n / 4
  let q := q + q / 16
  let q := q + q / 256
  let q := q + q / 65536
  q / 8

def left (n : Nat) : Nat := n - 10 * tenth n

-- At each prefix of the number the remainder r of the estimate is one for which the
-- correction (r + 6) / 16 is r / 10.
def Tens (n : Nat) : Prop := ∀ k, left (n / 10 ^ k) < 20 ∨ 26 ≤ left (n / 10 ^ k) ∧ left (n / 10 ^ k) < 30

-- The bytes that the loop makes, the last first.
def spelled {w : Nat} (next : BitVec w → BitVec w × BitVec w) : Nat → BitVec w → Option (List UInt8)
  | 0, _ => none
  | l + 1, uval =>
      ltoxtab[(next uval).2.toNat]? >>= fun c =>
        if (next uval).1 ≠ 0 then spelled next l (next uval).1 >>= fun t => some (t ++ [c]) else some [c]

section Glyphs

theorem ltoxtab_get (d : Nat) (small : d < 16) : ltoxtab[d]? = some (glyph d) := by
  rw [glyph, List.getD_eq_getElem?_getD, List.getElem?_eq_getElem small, Option.getD_some]

theorem glyph_index : ∀ d < 16, ltoxtab.idxOf (glyph d) = d ∧ glyph d ≠ minus ∧ glyph d ≠ 0 := by decide

theorem ltoxtab_index (d : Nat) (c : UInt8) (found : ltoxtab[d]? = some c) : d < 16 ∧ glyph d = c := by
  have small : d < 16 := (List.getElem?_eq_some_iff.mp found).1
  rw [ltoxtab_get d small] at found
  exact ⟨small, Option.some.inj found⟩

theorem glyph_injective (d e : Nat) (first : d < 16) (second : e < 16) (same : glyph d = glyph e) : d = e := by
  rw [← (glyph_index d first).1, same, (glyph_index e second).1]

variable {base : Nat} (large : 1 < base) (few : base ≤ 16)
include large

theorem spelling_step (n : Nat) : spelling base n = (if n / base = 0 then [] else spelling base (n / base)) ++ [glyph (n % base)] := by
  rw [spelling, numeral_step large, List.map_append]
  by_cases last : n / base = 0
  · rw [if_pos last, if_pos last]
    rfl
  · rw [if_neg last, if_neg last]
    rfl

include few

theorem spelling_glyph (n : Nat) (c : UInt8) (member : c ∈ spelling base n) : c ≠ minus ∧ c ≠ 0 := by
  obtain ⟨d, digit, rfl⟩ := List.mem_map.mp member
  exact (glyph_index d (Nat.lt_of_lt_of_le (numeral_below large n d digit) few)).2

theorem parsenat_glyphs (digits : List Nat) (below : ∀ d ∈ digits, d < base) (v : Nat) :
    parsenat base (digits.map glyph) v = some (digits.foldl (fun v d => v * base + d) v) := by
  induction digits generalizing v with
  | nil => rfl
  | cons d digits ih =>
    have digit := below d (List.mem_cons_self ..)
    have found : digitof base (glyph d) = some d := by
      rw [digitof, (glyph_index d (by omega)).1, if_pos digit]
    rw [List.map_cons, parsenat, found]
    exact ih (fun e member => below e (List.mem_cons_of_mem _ member)) _

theorem parse_signed (v : Int) : parse base (signed base v) = some v := by
  have value : parsenat base (spelling base v.natAbs) 0 = some v.natAbs := by
    rw [spelling, parsenat_glyphs large few _ (numeral_below large _)]
    exact congrArg some (numeral_value large _)
  by_cases negative : v < 0
  · rw [signed, if_pos negative, parse, if_pos (show ([minus] ++ spelling base v.natAbs).head? = some minus from rfl),
      show ([minus] ++ spelling base v.natAbs).tail = spelling base v.natAbs from rfl, value]
    exact congrArg some (by omega)
  · have plain : (spelling base v.natAbs).head? ≠ some minus := by
      intro head
      exact (spelling_glyph large few _ _ (List.mem_of_mem_head? head)).1 rfl
    rw [signed, if_neg negative, List.nil_append, parse, if_neg plain, value]
    exact congrArg some (by omega)

end Glyphs

section Loops

variable {w : Nat} (next : BitVec w → BitVec w × BitVec w)

-- What the loop leaves in the buffer: the bytes in front of l, the places behind as they were.
theorem digitloop_spelled (l : Nat) (uval : BitVec w) (buf : Mem UInt8) :
    (spelled next l uval = none → digitloop next l uval buf = none) ∧
    ∀ t, spelled next l uval = some t → ∃ str, digitloop next l uval buf = some (l - t.length, str) ∧ t.length ≤ l ∧
      slice str.cell (l - t.length) l = t ∧ (∀ j, l ≤ j → str.cell j = buf.cell j) ∧ ∀ i ∈ str.stored, i ∈ buf.stored ∨ i < l := by
  induction l generalizing uval buf with
  | zero =>
    refine ⟨fun _ => rfl, ?_⟩
    intro t made
    contradiction
  | succ l ih =>
    rw [spelled, digitloop]
    cases found : ltoxtab[(next uval).2.toNat]? with
    | none =>
      refine ⟨fun _ => rfl, ?_⟩
      intro t made
      contradiction
    | some c =>
      simp only [Option.bind_eq_bind, Option.bind_some]
      obtain ⟨fails, makes⟩ := ih (next uval).1 (buf.put l c)
      by_cases more : (next uval).1 ≠ 0
      · rw [if_pos more, if_pos more]
        cases rest : spelled next l (next uval).1 with
        | none =>
          refine ⟨fun _ => fails rest, ?_⟩
          intro t made
          contradiction
        | some t =>
          refine ⟨by intro made; contradiction, ?_⟩
          intro all made
          obtain rfl : t ++ [c] = all := Option.some.inj made
          obtain ⟨str, ran, short, text, kept, stored⟩ := makes t rest
          have there : str.cell l = c := (kept l (Nat.le_refl l)).trans (put_cell_self buf l c)
          refine ⟨str, ?_, ?_, ?_, ?_, ?_⟩
          · rw [ran, List.length_append, List.length_singleton, Nat.add_sub_add_right]
          · rw [List.length_append, List.length_singleton]
            omega
          · rw [List.length_append, List.length_singleton, Nat.add_sub_add_right, slice_next _ _ _ (Nat.sub_le ..), text, there]
          · intro j behind
            rw [kept j (by omega), put_cell_of_ne buf l j c (by omega)]
          · intro i member
            rcases stored i member with before | low
            · rw [put_stored, List.mem_append, List.mem_singleton] at before
              exact before.imp_right fun same => by omega
            · exact .inr (by omega)
      · rw [if_neg more, if_neg more]
        refine ⟨by intro made; contradiction, ?_⟩
        intro all made
        obtain rfl : [c] = all := Option.some.inj made
        refine ⟨buf.put l c, rfl, Nat.le_add_left 1 l, ?_, ?_, ?_⟩
        · rw [List.length_singleton, Nat.add_sub_cancel, slice_next _ _ _ (Nat.le_refl l), slice_empty, put_cell_self]
          rfl
        · intro j behind
          rw [put_cell_of_ne buf l j c (by omega)]
        · intro i member
          rw [put_stored, List.mem_append, List.mem_singleton] at member
          exact member.imp_right fun same => by omega

-- A digit that leaves the rest, at every value that the digits go through.
def Divides (base : Nat) (uval : BitVec w) : Prop :=
  ∀ (k : Nat) (m : BitVec w), m.toNat = uval.toNat / base ^ k → (next m).1.toNat = m.toNat / base ∧ (next m).2.toNat = m.toNat % base

theorem divides_next (base : Nat) (uval : BitVec w) (divides : Divides next base uval) : Divides next base (next uval).1 := by
  intro k m value
  rw [(divides 0 uval (by rw [Nat.pow_zero, Nat.div_one])).1, Nat.div_div_eq_div_mul, ← Nat.pow_succ'] at value
  exact divides (k + 1) m value

variable {base : Nat} (large : 1 < base) (few : base ≤ 16)
include large few

theorem spelled_right (l : Nat) (uval : BitVec w) (divides : Divides next base uval) (room : 0 < l) (small : uval.toNat < base ^ l) :
    spelled next l uval = some (spelling base uval.toNat) := by
  induction l generalizing uval with
  | zero => omega
  | succ l ih =>
    obtain ⟨quotient, rest⟩ := divides 0 uval (by rw [Nat.pow_zero, Nat.div_one])
    have below : uval.toNat % base < 16 := Nat.lt_of_lt_of_le (Nat.mod_lt _ (by omega)) few
    rw [spelled, rest, ltoxtab_get _ below, spelling_step large, Option.bind_eq_bind, Option.bind_some]
    by_cases last : uval.toNat / base = 0
    · have none : (next uval).1 = 0 := BitVec.eq_of_toNat_eq (quotient.trans last)
      rw [if_neg (not_not.mpr none), if_pos last]
      rfl
    · have more : (next uval).1 ≠ 0 := by
        intro none
        rw [none] at quotient
        exact last quotient.symm
      have less : (next uval).1.toNat < base ^ l := by
        rw [quotient]
        exact Nat.div_lt_of_lt_mul (by rwa [Nat.mul_comm, ← Nat.pow_succ])
      have inner : 0 < l := by
        rcases Nat.eq_zero_or_pos l with rfl | inner
        · exact absurd (quotient ▸ Nat.lt_one_iff.mp less) last
        · exact inner
      rw [if_pos more, if_neg last, ih (next uval).1 (divides_next next base uval divides) inner less, quotient]
      rfl

end Loops

section Buffers

variable {w : Nat}

theorem stringat_text (str : Mem UInt8) (l : Nat) (t : List UInt8) (text : slice str.cell l (LONGLONGBUFSIZE - 1) = t)
    (nul : str.cell (LONGLONGBUFSIZE - 1) = 0) (inside : l ≤ LONGLONGBUFSIZE - 1) (plain : ∀ c ∈ t, c ≠ 0) : stringat str l = some t := by
  have whole : slice str.cell l LONGLONGBUFSIZE = t ++ [0] := by
    rw [← text, ← nul]
    exact slice_next str.cell l (LONGLONGBUFSIZE - 1) inside
  rw [stringat, whole, if_pos (List.mem_append_right _ (List.mem_singleton.mpr rfl)),
    List.takeWhile_append_of_pos fun c member => decide_eq_true (plain c member)]
  exact congrArg some (List.append_nil t)

theorem spelled_plain (next : BitVec w → BitVec w × BitVec w) (l : Nat) (uval : BitVec w) (t : List UInt8) (made : spelled next l uval = some t) :
    ∀ c ∈ t, c ≠ 0 := by
  induction l generalizing uval t with
  | zero => contradiction
  | succ l ih =>
    rw [spelled] at made
    cases found : ltoxtab[(next uval).2.toNat]? with
    | none =>
      rw [found] at made
      contradiction
    | some c =>
      obtain ⟨small, same⟩ := ltoxtab_index _ c found
      have plain : c ≠ 0 := same ▸ (glyph_index _ small).2.2
      rw [found, Option.bind_eq_bind, Option.bind_some] at made
      by_cases more : (next uval).1 ≠ 0
      · rw [if_pos more] at made
        obtain ⟨t', rest, all⟩ := Option.bind_eq_some_iff.mp made
        obtain rfl := Option.some.inj all
        intro d member
        rcases List.mem_append.mp member with before | last
        · exact ih _ t' rest d before
        · exact List.mem_singleton.mp last ▸ plain
      · rw [if_neg more] at made
        obtain rfl := Option.some.inj made
        intro d member
        exact List.mem_singleton.mp member ▸ plain

theorem ulton_spelled (next : BitVec w → BitVec w × BitVec w) (uval : BitVec w) (buf : Nat → UInt8) :
    (spelled next 31 uval = none → ulton next uval ⟨buf, []⟩ LONGLONGBUFSIZE = none) ∧
    ∀ t, spelled next 31 uval = some t → ∃ str, ulton next uval ⟨buf, []⟩ LONGLONGBUFSIZE = some (31 - t.length, str) ∧ t.length ≤ 31 ∧
      str.Within 0 LONGLONGBUFSIZE ∧ slice str.cell (31 - t.length) 31 = t ∧ str.cell 31 = 0 := by
  obtain ⟨fails, makes⟩ := digitloop_spelled next 31 uval ((⟨buf, []⟩ : Mem UInt8).put 31 0)
  refine ⟨fails, ?_⟩
  intro t made
  obtain ⟨str, ran, short, text, kept, stored⟩ := makes t made
  refine ⟨str, ran, short, ?_, text, ?_⟩
  · intro i member
    rw [LONGLONGBUFSIZE]
    rcases stored i member with first | low
    · rw [put_stored, List.nil_append, List.mem_singleton] at first
      omega
    · omega
  · rw [kept 31 (Nat.le_refl 31), put_cell_self]

variable {base : Nat} (large : 1 < base) (few : base ≤ 16)
include large few

theorem ulton_prints (next : BitVec w → BitVec w × BitVec w) (uval : BitVec w) (buf : Nat → UInt8) :
    Prints base uval.toNat (ulton next uval ⟨buf, []⟩ LONGLONGBUFSIZE) ↔ spelled next 31 uval = some (spelling base uval.toNat) := by
  have plain : signed base uval.toNat = spelling base uval.toNat := by
    rw [signed, if_neg (by omega)]
    rfl
  obtain ⟨fails, makes⟩ := ulton_spelled next uval buf
  constructor
  · rintro ⟨l, str, ran, -, text, -⟩
    cases made : spelled next 31 uval with
    | none =>
      rw [fails made] at ran
      contradiction
    | some t =>
      obtain ⟨str', ran', short, -, text', nul⟩ := makes t made
      obtain ⟨rfl, rfl⟩ := Prod.mk.inj (Option.some.inj (ran.symm.trans ran'))
      have string := stringat_text str _ t text' nul (Nat.sub_le ..) (spelled_plain next 31 uval t made)
      rw [← plain, ← text, string]
  · intro made
    obtain ⟨str, ran, -, within, text, nul⟩ := makes _ made
    refine ⟨_, str, ran, within, ?_, parse_signed large few _⟩
    rw [plain]
    exact stringat_text str _ _ text nul (Nat.sub_le ..) (spelled_plain next 31 uval _ made)

omit large few in
theorem slice_put (str : Mem UInt8) (i l lim : Nat) (c : UInt8) (before : i < l) : slice (str.put i c).cell l lim = slice str.cell l lim := by
  rw [slice, slice]
  refine List.map_congr_left fun j _ => ?_
  rw [put_cell_of_ne str i (l + j) c (by omega)]

-- The sign in front of the digits.
theorem lton_prints (next : BitVec w → BitVec w × BitVec w) (val : BitVec w) (buf : Nat → UInt8)
    (room : (spelling base val.toInt.natAbs).length ≤ 30) :
    Prints base val.toInt (lton next val ⟨buf, []⟩ LONGLONGBUFSIZE) ↔
      spelled next 31 (zeroabs val) = some (spelling base val.toInt.natAbs) := by
  obtain ⟨fails, makes⟩ := ulton_spelled next (zeroabs val) buf
  have negative : val.slt 0 = true ↔ val.toInt < 0 := by
    rw [BitVec.slt_iff_toInt_lt, show (0 : BitVec w).toInt = 0 from BitVec.toInt_zero]
  -- The run where the digits were made, and what it prints.
  have signs : ∀ t, spelled next 31 (zeroabs val) = some t → (val.toInt < 0 → t.length ≤ 30) → ∃ l str, lton next val ⟨buf, []⟩ LONGLONGBUFSIZE = some (l, str) ∧
      str.Within 0 LONGLONGBUFSIZE ∧ stringat str l = some ((if val.toInt < 0 then [minus] else []) ++ t) := by
    intro t made short
    obtain ⟨str, ran, -, within, text, nul⟩ := makes t made
    have plain := spelled_plain next 31 (zeroabs val) t made
    rw [lton, ran, Option.bind_eq_bind, Option.bind_some]
    by_cases sign : val.toInt < 0
    · have room := short sign
      rw [if_pos (negative.mpr sign), if_neg (by omega), if_pos sign]
      refine ⟨_, _, rfl, ?_, ?_⟩
      · exact put_within str _ 0 LONGLONGBUFSIZE minus within (Nat.zero_le _) (by rw [LONGLONGBUFSIZE]; omega)
      · refine stringat_text _ _ _ ?_ ?_ (by rw [LONGLONGBUFSIZE]; omega) ?_
        · rw [LONGLONGBUFSIZE, slice_cons _ _ _ (by omega), put_cell_self, slice_put _ _ _ _ _ (by omega), show 31 - t.length - 1 + 1 = 31 - t.length by omega]
          exact congrArg (minus :: ·) text
        · rw [LONGLONGBUFSIZE, put_cell_of_ne _ _ _ _ (by omega)]
          exact nul
        · intro c member
          rcases List.mem_cons.mp member with rfl | inside
          · decide
          · exact plain c inside
    · rw [if_neg (fun less => sign (negative.mp less)), if_neg sign]
      exact ⟨_, _, rfl, within, stringat_text str _ t text nul (Nat.sub_le ..) plain⟩
  constructor
  · rintro ⟨l, str, ran, -, text, -⟩
    cases made : spelled next 31 (zeroabs val) with
    | none =>
      rw [lton, fails made] at ran
      contradiction
    | some t =>
      have short : val.toInt < 0 → t.length ≤ 30 := by
        intro sign
        obtain ⟨str', ran', short, -⟩ := makes t made
        by_contra long
        rw [lton, ran', Option.bind_eq_bind, Option.bind_some, if_pos (negative.mpr sign), if_pos (by omega)] at ran
        contradiction
      obtain ⟨l', str', ran', -, text'⟩ := signs t made short
      obtain ⟨rfl, rfl⟩ := Prod.mk.inj (Option.some.inj (ran.symm.trans ran'))
      have same := Option.some.inj (text'.symm.trans text)
      rw [signed] at same
      exact congrArg some (List.append_cancel_left same)
  · intro made
    obtain ⟨l, str, ran, within, text⟩ := signs _ made fun _ => room
    exact ⟨l, str, ran, within, text, parse_signed large few _⟩

end Buffers

section Hex

variable {w : Nat} (wide : 4 ≤ w)
include wide

theorem hexdigit_divides (uval : BitVec w) : Divides hexdigit 16 uval := by
  intro k m _
  constructor
  · exact (BitVec.toNat_ushiftRight m 4).trans (Nat.shiftRight_eq_div_pow m.toNat 4)
  · have bits : 2 ^ 4 ≤ 2 ^ w := Nat.pow_le_pow_right (by decide) wide
    have mask : (0xf : BitVec w).toNat = 2 ^ 4 - 1 := OsZero.Trix.literal 15 (by omega)
    rw [hexdigit, BitVec.toNat_and, mask, Nat.and_two_pow_sub_one_eq_mod]

end Hex

section Tens

theorem tenth_bound (n : Nat) : 10 * tenth n ≤ n := by
  simp only [tenth]
  generalize first : n / 2 + n / 4 = p
  have one : 4 * p ≤ 3 * n := by omega
  generalize second : p + p / 16 = q
  have two : 64 * q ≤ 51 * n := by
    clear first
    omega
  generalize third : q + q / 256 = r
  have three : 16384 * r ≤ 13107 * n := by
    clear first second
    omega
  generalize fourth : r + r / 65536 = t
  have four : 5 * t ≤ 4 * n := by
    clear first second third
    omega
  omega

theorem tenth_digit (n : Nat) : tenth n + (left n + 6) / 16 = n / 10 ↔ left n < 20 ∨ 26 ≤ left n ∧ left n < 30 := by
  have bound := tenth_bound n
  rw [left]
  omega

theorem tenth_below (n : Nat) : 10 * (tenth n + (left n + 6) / 16) ≤ n := by
  have bound := tenth_bound n
  rw [left]
  omega

variable {w : Nat} (wide : 2 ^ 32 ≤ 2 ^ w)
include wide

open OsZero.Trix in
theorem divu10_value (x : BitVec w) : (divu10 x).toNat = tenth x.toNat + (left x.toNat + 6) / 16 := by
  have bound := tenth_bound x.toNat
  have below := tenth_below x.toNat
  have small := x.isLt
  have large : x.toNat / 16 ≤ tenth x.toNat := by
    simp only [tenth]
    omega
  have estimate : ∀ q : BitVec w, q.toNat = tenth x.toNat → (q + ((x - q * 10 + 6) >>> 4)).toNat = tenth x.toNat + (left x.toNat + 6) / 16 := by
    intro q value
    have product : (q * 10).toNat = tenth x.toNat * 10 := by
      have factor : (10 : BitVec w).toNat = 10 := literal 10 (by omega)
      rw [BitVec.toNat_mul_of_lt (by rw [factor, value]; omega), factor, value]
    have rest : (x - q * 10).toNat = left x.toNat := by
      rw [BitVec.toNat_sub_of_le (by rw [BitVec.le_def, product]; omega), product, left, Nat.mul_comm]
    have added : (x - q * 10 + 6).toNat = left x.toNat + 6 := by
      have term : (6 : BitVec w).toNat = 6 := literal 6 (by omega)
      rw [BitVec.toNat_add_of_lt (by rw [rest, term, left]; omega), rest, term]
    rw [shift_add _ _ _ (by rw [added, value]; omega), added, value]
    rfl
  clear below large bound
  simp only [divu10]
  apply estimate
  clear estimate
  simp only [tenth]
  have first : ((x >>> 1) + (x >>> 2)).toNat = x.toNat / 2 + x.toNat / 4 := shift_pair x x 1 2 (by omega)
  generalize (x >>> 1) + (x >>> 2) = p at first ⊢
  have one : 4 * p.toNat ≤ 3 * x.toNat := by omega
  rw [← first]
  clear first
  have second : (p + (p >>> 4)).toNat = p.toNat + p.toNat / 16 := shift_add p p 4 (by omega)
  generalize p + (p >>> 4) = q at second ⊢
  have two : 64 * q.toNat ≤ 51 * x.toNat := by omega
  rw [← second]
  clear second one
  have third : (q + (q >>> 8)).toNat = q.toNat + q.toNat / 256 := shift_add q q 8 (by omega)
  generalize q + (q >>> 8) = r at third ⊢
  have three : 16384 * r.toNat ≤ 13107 * x.toNat := by omega
  rw [← third]
  clear third two
  have fourth : (r + (r >>> 16)).toNat = r.toNat + r.toNat / 65536 := shift_add r r 16 (by omega)
  rw [← fourth]
  exact shift_toNat _ 3

theorem decdigit_value (x : BitVec w) : (decdigit x).1.toNat = tenth x.toNat + (left x.toNat + 6) / 16 ∧
    (decdigit x).2.toNat = x.toNat - 10 * (tenth x.toNat + (left x.toNat + 6) / 16) := by
  have value := divu10_value wide x
  have below := tenth_below x.toNat
  have small := x.isLt
  refine ⟨value, ?_⟩
  have product : (10 * divu10 x).toNat = 10 * (tenth x.toNat + (left x.toNat + 6) / 16) := by
    have factor : (10 : BitVec w).toNat = 10 := OsZero.Trix.literal 10 (by omega)
    rw [BitVec.toNat_mul_of_lt (by rw [factor, value]; omega), factor, value]
  rw [decdigit, BitVec.toNat_sub_of_le (by rw [BitVec.le_def, product]; omega), product]

-- A right digit comes of a right tenth.
theorem decdigit_right (x : BitVec w) : ((decdigit x).1.toNat = x.toNat / 10 ∧ (decdigit x).2.toNat = x.toNat % 10) ↔
    left x.toNat < 20 ∨ 26 ≤ left x.toNat ∧ left x.toNat < 30 := by
  obtain ⟨quotient, rest⟩ := decdigit_value wide x
  rw [← tenth_digit, quotient, rest]
  constructor
  · exact fun right => right.1
  · intro right
    refine ⟨right, ?_⟩
    rw [right]
    omega

theorem decdigit_last (x : BitVec w) (last : (decdigit x).2.toNat = x.toNat % 10) : (decdigit x).1.toNat = x.toNat / 10 := by
  have below := tenth_below x.toNat
  obtain ⟨quotient, rest⟩ := decdigit_value wide x
  rw [rest] at last
  rw [quotient]
  omega

theorem decdigit_divides (uval : BitVec w) : Divides decdigit 10 uval ↔ Tens uval.toNat := by
  constructor
  · intro divides k
    have small : uval.toNat / 10 ^ k < 2 ^ w := Nat.lt_of_le_of_lt (Nat.div_le_self ..) uval.isLt
    have value : (BitVec.ofNat w (uval.toNat / 10 ^ k)).toNat = uval.toNat / 10 ^ k := OsZero.Trix.literal _ small
    have right := (decdigit_right wide _).mp (divides k (BitVec.ofNat w (uval.toNat / 10 ^ k)) value)
    rwa [value] at right
  · intro tens k m value
    apply (decdigit_right wide m).mpr
    rw [value]
    exact tens k

theorem spelled_divides (l : Nat) (uval : BitVec w) (made : spelled decdigit l uval = some (spelling 10 uval.toNat)) : Divides decdigit 10 uval := by
  induction l generalizing uval with
  | zero => contradiction
  | succ l ih =>
    rw [spelled] at made
    cases found : ltoxtab[(decdigit uval).2.toNat]? with
    | none =>
      rw [found] at made
      contradiction
    | some c =>
      obtain ⟨small, same⟩ := ltoxtab_index _ c found
      have below : uval.toNat % 10 < 16 := Nat.lt_of_lt_of_le (Nat.mod_lt _ (by decide)) (by decide)
      rw [found, Option.bind_eq_bind, Option.bind_some, spelling_step (by decide)] at made
      by_cases more : (decdigit uval).1 ≠ 0
      · rw [if_pos more] at made
        obtain ⟨t, rest, all⟩ := Option.bind_eq_some_iff.mp made
        obtain ⟨front, back⟩ := List.append_inj' (Option.some.inj all) rfl
        have digit := glyph_injective _ _ small below (same.trans (List.singleton_inj.mp back))
        have quotient := decdigit_last wide uval digit
        have nonzero : uval.toNat / 10 ≠ 0 := fun none => more (BitVec.eq_of_toNat_eq (quotient.trans none))
        rw [if_neg nonzero, ← quotient] at front
        have later := ih (decdigit uval).1 (front ▸ rest)
        intro k m value
        cases k with
        | zero =>
          rw [Nat.pow_zero, Nat.div_one] at value
          rw [BitVec.eq_of_toNat_eq value]
          exact ⟨quotient, digit⟩
        | succ k =>
          rw [Nat.pow_succ', ← Nat.div_div_eq_div_mul, ← quotient] at value
          exact later k m value
      · rw [if_neg more] at made
        obtain ⟨front, back⟩ := List.append_inj' (show [] ++ [c] = _ from Option.some.inj made) rfl
        have digit := glyph_injective _ _ small below (same.trans (List.singleton_inj.mp back))
        have quotient := decdigit_last wide uval digit
        rw [not_ne_iff.mp more] at quotient
        have few : uval.toNat < 10 := by
          have none : 0 = uval.toNat / 10 := quotient
          omega
        apply (decdigit_divides wide uval).mpr
        intro k
        have lower : uval.toNat / 10 ^ k ≤ uval.toNat := Nat.div_le_self ..
        left
        rw [left]
        omega

end Tens

-- Every value of 32 bits is divided right.
theorem tens_small (n : Nat) (small : n < 2 ^ 32) : Tens n := by
  intro k
  have less : n / 10 ^ k < 2 ^ 32 := Nat.lt_of_le_of_lt (Nat.div_le_self ..) small
  have value : (BitVec.ofNat 32 (n / 10 ^ k)).toNat = n / 10 ^ k := OsZero.Trix.literal _ less
  have exact := OsZero.Trix.divu10_exact (BitVec.ofNat 32 (n / 10 ^ k)) (Nat.le_refl _) (by rwa [value])
  rwa [divu10_value (Nat.le_refl _), tenth_digit, value] at exact

section Prints

variable {w : Nat} (wide : 2 ^ 32 ≤ 2 ^ w) (fits : 2 ^ w ≤ 2 ^ 64) (buf : Nat → UInt8)
include wide fits

omit wide fits in
theorem spelling_room (base n : Nat) (ten : 10 ≤ base) (small : n < 2 ^ 64) : (spelling base n).length ≤ 30 := by
  have powers : 10 ^ 30 ≤ base ^ 30 := Nat.pow_le_pow_left ten 30
  rw [spelling, List.length_map]
  exact numeral_length (by omega) n 30 (by decide) (by omega)

theorem ulton_divides (next : BitVec w → BitVec w × BitVec w) (base : Nat) (ten : 10 ≤ base) (few : base ≤ 16) (uval : BitVec w)
    (divides : Divides next base uval) : spelled next 31 uval = some (spelling base uval.toNat) := by
  have small := uval.isLt
  have powers : 10 ^ 31 ≤ base ^ 31 := Nat.pow_le_pow_left ten 31
  exact spelled_right next (by omega) few 31 uval divides (by decide) (by omega)

theorem ultodn_prints (uval : BitVec w) : Prints 10 uval.toNat (ultodn uval ⟨buf, []⟩ LONGLONGBUFSIZE) ↔ Tens uval.toNat := by
  rw [ultodn, ulton_prints (by decide) (by decide), ← decdigit_divides wide]
  exact ⟨spelled_divides wide 31 uval, ulton_divides wide fits decdigit 10 (by decide) (by decide) uval⟩

theorem ultoxn_prints (uval : BitVec w) : Prints 16 uval.toNat (ultoxn uval ⟨buf, []⟩ LONGLONGBUFSIZE) := by
  have bits : 32 ≤ w := (Nat.pow_le_pow_iff_right (by decide)).mp wide
  rw [ultoxn, ulton_prints (by decide) (by decide)]
  exact ulton_divides wide fits hexdigit 16 (by decide) (by decide) uval (hexdigit_divides (by omega) uval)

theorem lton_spelled (next : BitVec w → BitVec w × BitVec w) (base : Nat) (ten : 10 ≤ base) (few : base ≤ 16) (val : BitVec w) :
    Prints base val.toInt (lton next val ⟨buf, []⟩ LONGLONGBUFSIZE) ↔ spelled next 31 (zeroabs val) = some (spelling base (zeroabs val).toNat) := by
  have bits : 32 ≤ w := (Nat.pow_le_pow_iff_right (by decide)).mp wide
  have absolute : (zeroabs val).toNat = val.toInt.natAbs := OsZero.Trix.zeroabs_toNat val (by omega)
  have small := (zeroabs val).isLt
  rw [absolute] at small ⊢
  exact lton_prints (by omega) few next val buf (spelling_room base _ ten (by omega))

theorem ltodn_prints (val : BitVec w) : Prints 10 val.toInt (ltodn val ⟨buf, []⟩ LONGLONGBUFSIZE) ↔ Tens val.toInt.natAbs := by
  have bits : 32 ≤ w := (Nat.pow_le_pow_iff_right (by decide)).mp wide
  have absolute : (zeroabs val).toNat = val.toInt.natAbs := OsZero.Trix.zeroabs_toNat val (by omega)
  rw [ltodn, lton_spelled wide fits buf decdigit 10 (by decide) (by decide), ← absolute, ← decdigit_divides wide]
  exact ⟨spelled_divides wide 31 _, ulton_divides wide fits decdigit 10 (by decide) (by decide) _⟩

theorem ltoxn_prints (val : BitVec w) : Prints 16 val.toInt (ltoxn val ⟨buf, []⟩ LONGLONGBUFSIZE) := by
  have bits : 32 ≤ w := (Nat.pow_le_pow_iff_right (by decide)).mp wide
  rw [ltoxn, lton_spelled wide fits buf hexdigit 16 (by decide) (by decide)]
  exact ulton_divides wide fits hexdigit 16 (by decide) (by decide) _ (hexdigit_divides (by omega) _)

end Prints

-- A long of 32 bits is always printed right, and one of 64 bits in base sixteen; in
-- base ten where its tenths are right.
theorem numbers_print_iff (buf : Nat → UInt8) (v : BitVec 32) (x : BitVec 64) :
    (Prints 10 v.toInt (ltodn v ⟨buf, []⟩ LONGLONGBUFSIZE) ∧ Prints 16 v.toInt (ltoxn v ⟨buf, []⟩ LONGLONGBUFSIZE) ∧
      Prints 10 v.toNat (ultodn v ⟨buf, []⟩ LONGLONGBUFSIZE) ∧ Prints 16 v.toNat (ultoxn v ⟨buf, []⟩ LONGLONGBUFSIZE)) ∧
    (Prints 10 x.toInt (ltodn x ⟨buf, []⟩ LONGLONGBUFSIZE) ↔ Tens x.toInt.natAbs) ∧ Prints 16 x.toInt (ltoxn x ⟨buf, []⟩ LONGLONGBUFSIZE) ∧
      (Prints 10 x.toNat (ultodn x ⟨buf, []⟩ LONGLONGBUFSIZE) ↔ Tens x.toNat) ∧ Prints 16 x.toNat (ultoxn x ⟨buf, []⟩ LONGLONGBUFSIZE) := by
  have absolute : v.toInt.natAbs < 2 ^ 32 := by
    rw [← OsZero.Trix.zeroabs_toNat v (by decide)]
    exact (zeroabs v).isLt
  have half : 2 ^ 32 ≤ 2 ^ 64 := by decide
  have same32 := Nat.le_refl (2 ^ 32)
  have same64 := Nat.le_refl (2 ^ 64)
  exact ⟨⟨(ltodn_prints same32 half buf v).mpr (tens_small _ absolute), ltoxn_prints same32 half buf v,
      (ultodn_prints same32 half buf v).mpr (tens_small _ v.isLt), ultoxn_prints same32 half buf v⟩,
    ltodn_prints half same64 buf x, ltoxn_prints half same64 buf x, ultodn_prints half same64 buf x, ultoxn_prints half same64 buf x⟩

theorem ltodn_misprints : (ltodn (29685721450 : BitVec 64) ⟨fun _ => 0, []⟩ LONGLONGBUFSIZE >>= fun done => stringat done.2 done.1) =
      some [50, 57, 54, 56, 53, 55, 50, 49, 52, 52, 97] ∧
    parse 10 [50, 57, 54, 56, 53, 55, 50, 49, 52, 52, 97] = none ∧
    ¬Prints 10 29685721450 (ltodn (29685721450 : BitVec 64) ⟨fun _ => 0, []⟩ LONGLONGBUFSIZE) := by
  have text : (ltodn (29685721450 : BitVec 64) ⟨fun _ => 0, []⟩ LONGLONGBUFSIZE >>= fun done => stringat done.2 done.1) =
      some [50, 57, 54, 56, 53, 55, 50, 49, 52, 52, 97] := by decide
  have parsed : parse 10 [50, 57, 54, 56, 53, 55, 50, 49, 52, 52, 97] = none := by decide
  refine ⟨text, parsed, ?_⟩
  rintro ⟨l, str, ran, -, string, value⟩
  rw [ran, Option.bind_eq_bind, Option.bind_some, string] at text
  rw [Option.some.inj text, parsed] at value
  contradiction

end OsZero.Kern

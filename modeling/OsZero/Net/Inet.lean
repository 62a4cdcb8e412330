import OsZero.Lib.Cstring
import OsZero.Lib.Stores
import OsZero.Trix.Division
import Mathlib.Algebra.Group.Nat.Defs
import Mathlib.Data.List.TakeWhile

set_option autoImplicit false

namespace OsZero.Net

open Cstring
open Stores

def divu10 (x : UInt64) : UInt64 :=
  let q := (x >>> 1) + (x >>> 2)
  let q := q + (q >>> 4)
  let q := q + (q >>> 8)
  let q := q + (q >>> 16)
  let q := q >>> 3
  let r := x - q * 10
  q + ((r + 6) >>> 4)

def divu100 (x : UInt64) : UInt64 :=
  let q := (x >>> 1) + (x >>> 3) + (x >>> 6) - (x >>> 10) + (x >>> 12) + (x >>> 13) - (x >>> 16)
  let q := q + (q >>> 20)
  let q := q >>> 6
  let r := x - q * 100
  q + ((r + 28) >>> 7)

def modu10 (u : UInt64) : UInt64 := u - divu10 u * 10

def asctodectab (i : UInt64) : UInt8 := [48, 49, 50, 51, 52, 53, 54, 55, 56, 57].getD i.toNat 0

def dot : UInt8 := code '.'

-- The text in _inaddrstr, where the next field goes, and the length of the last one.
structure Text where
  str : Mem UInt8
  u8ptr : Nat
  len : Nat

def ntoadigits (len : Nat) (tmp1 tmp4 tmp5 : UInt64) (str : Mem UInt8) (u8ptr : Nat) : Mem UInt8 :=
  match len with
  | 3 => ((str.put (u8ptr + 2) (asctodectab tmp1)).put (u8ptr + 1) (asctodectab tmp4)).put u8ptr (asctodectab tmp5)
  | 2 => (str.put (u8ptr + 1) (asctodectab tmp1)).put u8ptr (asctodectab tmp4)
  | 1 => str.put u8ptr (asctodectab tmp1)
  | _ => str

-- A field below ten leaves len as it was: val is set in its place, and not read again.
def ntoafield (ndx : Nat) (byte : UInt8) (t : Text) : Text :=
  let val := byte.toUInt64
  let tmp1 := modu10 val
  let tmp2 := divu10 val
  let tmp3 := divu100 val
  let tmp4 := modu10 tmp2
  let tmp5 := modu10 tmp3
  let len := if 100 ≤ val then 3 else if 10 ≤ val then 2 else t.len
  let str := ntoadigits len tmp1 tmp4 tmp5 t.str t.u8ptr
  let u8ptr := t.u8ptr + len
  ⟨str.put u8ptr (if ndx < 3 then dot else 0), u8ptr, len⟩

def inet_ntoa (adr : Nat → UInt8) (inaddrstr : Mem UInt8) : Mem UInt8 :=
  ((List.range 4).foldl (fun t ndx => ntoafield ndx (adr ndx) t) ⟨inaddrstr, 0, 0⟩).str

-- The value of a run of digits as the loop makes it, and where the run ends. A sum
-- past LONG_MAX is undefined.
def atonval (longmax : Nat) : List UInt8 → Nat → Option (Nat × List UInt8)
  | [], val => some (val, [])
  | c :: ptr, val =>
      if isdigit c then
        if longmax < val * 10 + c.toNat then none else atonval longmax ptr (val * 10 + c.toNat)
      else some (val, c :: ptr)

theorem atonval_shorter (longmax : Nat) (ptr rest : List UInt8) (val val' : Nat)
    (found : atonval longmax ptr val = some (val', rest)) : rest.length ≤ ptr.length := by
  induction ptr generalizing val with
  | nil =>
      rw [atonval, Option.some.injEq, Prod.mk.injEq] at found
      rw [← found.2]
  | cons c ptr ih =>
      rw [atonval] at found
      by_cases digit : isdigit c
      · rw [if_pos digit] at found
        by_cases large : longmax < val * 10 + c.toNat
        · rw [if_pos large] at found
          contradiction
        · rw [if_neg large] at found
          exact Nat.le_succ_of_le (ih _ found)
      · rw [if_neg digit, Option.some.injEq, Prod.mk.injEq] at found
        rw [← found.2]

-- The string is the bytes in front of its NUL, and reads as NUL behind them.
def atonloop (longmax : Nat) (ptr : List UInt8) (n aptr : Nat) (adr : Mem UInt8) : Option (Nat × Mem UInt8) :=
  if isdigit (ptr.headD 0) then
    match found : atonval longmax ptr 0 with
    | none => none
    | some (val, rest) =>
        if more : rest.head? = some dot then
          if 0xff < val then some (0, adr)
          else atonloop longmax rest.tail (n + 1) (aptr + 1) (adr.put aptr (UInt8.ofNat val))
        else if rest.headD 0 = 0 ∧ n + 1 = 4 then some (1, adr)
        else some (0, adr)
  else some (0, adr)
termination_by ptr.length
decreasing_by
  have shorter := atonval_shorter longmax ptr rest 0 val found
  cases rest with
  | nil => contradiction
  | cons c rest =>
      simp only [List.length_cons, List.tail_cons] at shorter ⊢
      omega

def inet_aton (longmax : Nat) (cptr : List UInt8) (adr : Mem UInt8) : Option (Nat × Mem UInt8) := atonloop longmax cptr 0 0 adr

-- What a dotted address is: four numbers of at most 255 with single dots between them.
def isnumber (w : List UInt8) : Bool := w ≠ [] && w.all isdigit

def value (w : List UInt8) : Nat := w.foldl (fun v c => v * 10 + (c.toNat - 48)) 0

def quad (s : List UInt8) : Bool := (s.splitOn dot).length = 4 ∧ ∀ w ∈ s.splitOn dot, isnumber w ∧ value w ≤ 255

def decimal (n : Nat) : List UInt8 :=
  if n < 10 then [UInt8.ofNat (48 + n)] else decimal (n / 10) ++ [UInt8.ofNat (48 + n % 10)]

def dotted (adr : Nat → UInt8) : List UInt8 :=
  decimal (adr 0).toNat ++ dot :: decimal (adr 1).toNat ++ dot :: decimal (adr 2).toNat ++ dot :: decimal (adr 3).toNat

def Holds (str : Nat → UInt8) (s : List UInt8) : Prop := (∀ i c, s[i]? = some c → str i = c) ∧ str s.length = 0

def AtonMeets (longmax : Nat) (s : List UInt8) (b : Nat → UInt8) : Prop :=
  ∃ ret adr, inet_aton longmax s ⟨b, []⟩ = some (ret, adr) ∧ adr.Within 0 4 ∧
    if quad s then ret = 1 ∧ ∀ i, i < 4 → adr.cell i = UInt8.ofNat (value ((s.splitOn dot).getD i [])) else ret = 0

-- The leading fields of one digit with their dots, and what follows them.
def ones : List UInt8 → List UInt8 × List UInt8
  | c :: d :: s => if isdigit c ∧ d = dot then (c :: (ones s).1, (ones s).2) else ([], c :: d :: s)
  | s => ([], s)

-- The sum that the loop makes of a run of digits, of their codes in place of their values.
def codes (val : Nat) (w : List UInt8) : Nat := w.foldl (fun v c => v * 10 + c.toNat) val

theorem codes_ge (val : Nat) (w : List UInt8) : val ≤ codes val w := by
  induction w generalizing val with
  | nil => exact Nat.le_refl val
  | cons c w ih =>
      have later : val * 10 + c.toNat ≤ codes val (c :: w) := ih (val * 10 + c.toNat)
      omega

theorem atonval_eq (longmax : Nat) (s : List UInt8) (val : Nat) (low : val ≤ longmax) :
    atonval longmax s val =
      if codes val (s.takeWhile isdigit) ≤ longmax then
        some (codes val (s.takeWhile isdigit), s.dropWhile isdigit) else none := by
  induction s generalizing val with
  | nil => rw [List.takeWhile_nil, codes, List.foldl_nil, if_pos low, atonval, List.dropWhile_nil]
  | cons c s ih =>
      rw [atonval]
      by_cases digit : isdigit c = true
      · rw [if_pos digit, List.takeWhile_cons_of_pos digit, List.dropWhile_cons_of_pos digit]
        have first : codes val (c :: s.takeWhile isdigit) = codes (val * 10 + c.toNat) (s.takeWhile isdigit) := rfl
        rw [first]
        by_cases large : longmax < val * 10 + c.toNat
        · have later := codes_ge (val * 10 + c.toNat) (s.takeWhile isdigit)
          rw [if_pos large, if_neg (by omega)]
        · rw [if_neg large, ih _ (by omega)]
      · rw [if_neg digit, List.takeWhile_cons_of_neg digit, List.dropWhile_cons_of_neg digit, codes, List.foldl_nil, if_pos low]

theorem digit_code (c : UInt8) (digit : isdigit c = true) : 48 ≤ c.toNat ∧ c.toNat ≤ 57 := by
  rw [isdigit, decide_eq_true_eq] at digit
  exact digit

theorem atonloop_eq (longmax : Nat) (ptr : List UInt8) (n aptr : Nat) (adr : Mem UInt8) (digit : isdigit (ptr.headD 0) = true) :
    atonloop longmax ptr n aptr adr =
      if codes 0 (ptr.takeWhile isdigit) ≤ longmax then
        if (ptr.dropWhile isdigit).head? = some dot then
          if 0xff < codes 0 (ptr.takeWhile isdigit) then some (0, adr)
          else atonloop longmax (ptr.dropWhile isdigit).tail (n + 1) (aptr + 1)
            (adr.put aptr (UInt8.ofNat (codes 0 (ptr.takeWhile isdigit))))
        else if (ptr.dropWhile isdigit).headD 0 = 0 ∧ n + 1 = 4 then some (1, adr)
        else some (0, adr)
      else none := by
  have run := atonval_eq longmax ptr 0 (Nat.zero_le _)
  rw [atonloop, if_pos digit]
  split
  case h_1 none =>
      rw [run] at none
      by_cases fits : codes 0 (ptr.takeWhile isdigit) ≤ longmax
      · rw [if_pos fits] at none
        contradiction
      · rw [if_neg fits]
  case h_2 val rest found =>
      rw [run] at found
      by_cases fits : codes 0 (ptr.takeWhile isdigit) ≤ longmax
      · rw [if_pos fits, Option.some.injEq, Prod.mk.injEq] at found
        obtain ⟨rfl, rfl⟩ := found
        rw [if_pos fits]
        rfl
      · rw [if_neg fits] at found
        contradiction

theorem atonloop_one (longmax : Nat) (wide : 57 ≤ longmax) (c : UInt8) (digit : isdigit c = true) (s : List UInt8)
    (n aptr : Nat) (adr : Mem UInt8) :
    atonloop longmax (c :: dot :: s) n aptr adr = atonloop longmax s (n + 1) (aptr + 1) (adr.put aptr c) := by
  have low := (digit_code c digit).2
  have run : (c :: dot :: s).takeWhile isdigit = [c] := by
    rw [List.takeWhile_cons_of_pos digit, List.takeWhile_cons_of_neg (by decide)]
  have rest : (c :: dot :: s).dropWhile isdigit = dot :: s := by
    rw [List.dropWhile_cons_of_pos digit, List.dropWhile_cons_of_neg (by decide)]
  have code : codes 0 [c] = c.toNat := by rw [codes, List.foldl_cons, List.foldl_nil, Nat.zero_mul, Nat.zero_add]
  rw [atonloop_eq longmax (c :: dot :: s) n aptr adr digit, run, rest, code, if_pos (by omega), List.head?_cons, if_pos rfl,
    if_neg (by omega), List.tail_cons, UInt8.ofNat_toNat]

theorem isnumber_iff (w : List UInt8) : isnumber w = true ↔ isdigit (w.headD 0) = true ∧ w.dropWhile isdigit = [] := by
  rw [isnumber, Bool.and_eq_true, decide_eq_true_eq, List.all_eq_true]
  cases w with
  | nil => simp [isdigit]
  | cons c w => simp [List.dropWhile_eq_nil_iff]

-- Two digits are past 255 already, by their codes.
theorem codes_two (c d : UInt8) (w : List UInt8) (first : isdigit c = true) (second : isdigit d = true) :
    528 ≤ codes 0 (c :: d :: w) := by
  have low := digit_code c first
  have next := digit_code d second
  have later : codes ((0 * 10 + c.toNat) * 10 + d.toNat) w ≤ codes 0 (c :: d :: w) := Nat.le_refl _
  have least := codes_ge ((0 * 10 + c.toNat) * 10 + d.toNat) w
  omega

theorem codes_stop (s left : List UInt8) (digit : isdigit (s.headD 0) = true) (rest : s.dropWhile isdigit = dot :: left)
    (none : (ones s).1 = []) : 528 ≤ codes 0 (s.takeWhile isdigit) := by
  cases s with
  | nil => contradiction
  | cons c s =>
      rw [List.headD_cons] at digit
      rw [List.dropWhile_cons_of_pos digit] at rest
      rw [List.takeWhile_cons_of_pos digit]
      cases s with
      | nil => contradiction
      | cons d s =>
          by_cases second : isdigit d = true
          · rw [List.takeWhile_cons_of_pos second]
            exact codes_two c d _ digit second
          · rw [List.dropWhile_cons_of_neg second, List.cons.injEq] at rest
            rw [ones, if_pos ⟨digit, rest.1⟩] at none
            contradiction

theorem atonloop_stop (longmax : Nat) (s : List UInt8) (plain : 0 ∉ s) (n aptr : Nat) (adr : Mem UInt8) (none : (ones s).1 = []) :
    atonloop longmax s n aptr adr =
      if codes 0 (s.takeWhile isdigit) ≤ longmax then
        if isnumber s = true ∧ n + 1 = 4 then some (1, adr) else some (0, adr)
      else Option.none := by
  by_cases digit : isdigit (s.headD 0) = true
  · rw [atonloop_eq longmax s n aptr adr digit]
    congr 1
    cases rest : s.dropWhile isdigit with
    | nil =>
        have all : isnumber s = true := (isnumber_iff s).mpr ⟨digit, rest⟩
        simp [all]
    | cons c left =>
        have other : ¬ isnumber s = true := by
          rw [isnumber_iff, rest]
          simp
        have inside : c ∈ s := (List.dropWhile_sublist isdigit).subset (rest ▸ List.mem_cons_self)
        have some : c ≠ 0 := fun zero => plain (zero ▸ inside)
        rw [if_neg (fun both : isnumber s = true ∧ n + 1 = 4 => other both.1), List.head?_cons, List.headD_cons,
          if_neg (fun both : c = 0 ∧ n + 1 = 4 => some both.1)]
        by_cases at_dot : c = dot
        · subst at_dot
          have large := codes_stop s left digit rest none
          rw [if_pos rfl, if_pos (by omega)]
        · rw [if_neg (fun same => at_dot (Option.some.inj same))]
  · have empty : s.takeWhile isdigit = [] := by
      cases s with
      | nil => rfl
      | cons c s => exact List.takeWhile_cons_of_neg digit
    rw [atonloop, if_neg digit, empty, codes, List.foldl_nil, if_pos (Nat.zero_le _), if_neg]
    intro both
    exact digit ((isnumber_iff s).mp both.1).1

theorem ones_short (s : List UInt8) (short : ∀ c d rest, s = c :: d :: rest → False) : (ones s).1 = [] := by
  cases s with
  | nil => rfl
  | cons c s =>
      cases s with
      | nil => rfl
      | cons d s => exact (short c d s rfl).elim

-- The whole run: the leading fields of one digit are stored as they stand, and the
-- first other field decides.
theorem atonloop_run (longmax : Nat) (wide : 57 ≤ longmax) (s : List UInt8) (plain : 0 ∉ s) (n aptr : Nat) (adr : Mem UInt8) :
    atonloop longmax s n aptr adr =
      if codes 0 ((ones s).2.takeWhile isdigit) ≤ longmax then
        if isnumber (ones s).2 = true ∧ n + (ones s).1.length + 1 = 4 then some (1, adr.fill aptr (ones s).1)
        else some (0, adr.fill aptr (ones s).1)
      else none := by
  fun_induction ones s generalizing n aptr adr with
  | case1 c d s both ih =>
      rw [both.2, atonloop_one longmax wide c both.1 s n aptr adr,
        ih (fun inside => plain (by simp [inside])) (n + 1) (aptr + 1) (adr.put aptr c), List.length_cons]
      simp only [Mem.fill, Nat.add_assoc, Nat.add_comm 1]
  | case2 c d s other => exact atonloop_stop longmax _ plain n aptr adr (by rw [ones, if_neg other])
  | case3 s other => exact atonloop_stop longmax s plain n aptr adr (ones_short s other)

theorem run_within (s : List UInt8) (b : Nat → UInt8) : (Mem.fill ⟨b, []⟩ 0 (ones s).1).Within 0 4 ↔ (ones s).1.length < 5 := by
  rw [Mem.Within, fill_stored, List.nil_append]
  constructor
  · intro within
    by_cases few : (ones s).1.length < 5
    · exact few
    · have bound := within 4 (List.mem_range'_1.mpr (by omega))
      omega
  · intro few i inside
    have bound := List.mem_range'_1.mp inside
    omega

-- The first field that is stored keeps its digit's code, which no number of one
-- digit is.
theorem first_differs (s : List UInt8) (some : (ones s).1 ≠ []) :
    ∃ c, (ones s).1[0]? = Option.some c ∧ isdigit c = true ∧ (s.splitOn dot).getD 0 [] = [c] ∧ UInt8.ofNat (value [c]) ≠ c := by
  fun_cases ones s with
  | case1 c d s both =>
      have low := digit_code c both.1
      refine ⟨c, rfl, both.1, ?_, ?_⟩
      · rw [both.2]
        have plain : ∀ x ∈ [c], (x == dot) = false := by
          intro x inside
          rw [List.mem_singleton.mp inside, beq_eq_false_iff_ne]
          rintro rfl
          exact absurd both.1 (by decide)
        have split : (c :: dot :: s).splitOn dot = [c] :: s.splitOn dot :=
          List.splitOnP_append_cons_of_forall_mem plain dot (beq_self_eq_true dot) s
        rw [split, List.getD_cons_zero]
      · intro same
        have codes := congrArg UInt8.toNat same
        rw [UInt8.toNat_ofNat', value, List.foldl_cons, List.foldl_nil] at codes
        omega
  | case2 c d s other => exact absurd (by rw [ones, if_neg other]) some
  | case3 s other => exact absurd (ones_short s other) some

theorem aton_meets_iff (longmax : Nat) (wide : 57 ≤ longmax) (s : List UInt8) (plain : 0 ∉ s) (b : Nat → UInt8) :
    AtonMeets longmax s b ↔
      quad s = false ∧ (ones s).1.length < 5 ∧ ¬ ((ones s).1.length = 3 ∧ isnumber (ones s).2 = true) ∧
        codes 0 ((ones s).2.takeWhile isdigit) ≤ longmax := by
  rw [AtonMeets, inet_aton, atonloop_run longmax wide s plain 0 0 ⟨b, []⟩]
  by_cases fits : codes 0 ((ones s).2.takeWhile isdigit) ≤ longmax
  · rw [if_pos fits]
    by_cases last : isnumber (ones s).2 = true ∧ 0 + (ones s).1.length + 1 = 4
    · rw [if_pos last]
      constructor
      · rintro ⟨ret, adr, result, within, meets⟩
        exfalso
        rw [Option.some.injEq, Prod.mk.injEq] at result
        obtain ⟨rfl, rfl⟩ := result
        by_cases good : quad s = true
        · rw [if_pos good] at meets
          obtain ⟨c, first, digit, word, other⟩ := first_differs s (fun none => by rw [none] at last; simp at last)
          have stored := meets.2 0 (by omega)
          rw [word, ← Nat.zero_add 0, fill_inside ⟨b, []⟩ 0 0 _ c first] at stored
          exact other stored.symm
        · rw [if_neg good] at meets
          contradiction
      · rintro ⟨good, few, other, fine⟩
        exact absurd ⟨by omega, last.1⟩ other
    · rw [if_neg last]
      constructor
      · rintro ⟨ret, adr, result, within, meets⟩
        rw [Option.some.injEq, Prod.mk.injEq] at result
        obtain ⟨rfl, rfl⟩ := result
        refine ⟨?_, (run_within s b).mp within, fun both => last ⟨both.2, by omega⟩, fits⟩
        by_cases good : quad s = true
        · rw [if_pos good] at meets
          exact absurd meets.1 (by decide)
        · exact Bool.not_eq_true _ ▸ good
      · rintro ⟨good, few, other, fine⟩
        refine ⟨0, _, rfl, (run_within s b).mpr few, ?_⟩
        rw [good]
        rfl
  · rw [if_neg fits]
    constructor
    · rintro ⟨ret, adr, result, rest⟩
      contradiction
    · rintro ⟨good, few, other, fine⟩
      exact absurd fine fits

theorem asctodectab_toNat (i : UInt64) (low : i.toNat < 10) : (asctodectab i).toNat = 48 + i.toNat := by
  rw [asctodectab]
  generalize i.toNat = n at low
  revert n
  decide

theorem last_digit (x : UInt64) (small : x.toNat < 2 ^ 32) : (asctodectab (modu10 x)).toNat = 48 + x.toNat % 10 := by
  have rest : (modu10 x).toNat = x.toNat % 10 := Trix.modu10_exact x.toBitVec (by decide) small
  rw [asctodectab_toNat _ (rest ▸ Nat.mod_lt _ (by decide)), rest]

theorem digit_chars (byte : UInt8) :
    (asctodectab (modu10 byte.toUInt64)).toNat = 48 + byte.toNat % 10 ∧
    (asctodectab (modu10 (divu10 byte.toUInt64))).toNat = 48 + byte.toNat / 10 % 10 ∧
    (asctodectab (modu10 (divu100 byte.toUInt64))).toNat = 48 + byte.toNat / 100 % 10 := by
  have below := byte.toNat_lt
  have small : byte.toUInt64.toNat < 2 ^ 32 := by
    rw [UInt8.toNat_toUInt64]
    omega
  have tens : (divu10 byte.toUInt64).toNat = byte.toUInt64.toNat / 10 := Trix.divu10_exact byte.toUInt64.toBitVec (by decide) small
  have hundreds : (divu100 byte.toUInt64).toNat = byte.toUInt64.toNat / 100 := Trix.divu100_exact byte.toUInt64.toBitVec (by decide) small
  rw [last_digit _ small, last_digit _ (by omega), last_digit _ (by omega), tens, hundreds, UInt8.toNat_toUInt64]
  exact ⟨rfl, rfl, rfl⟩

theorem digit_of_code (c : UInt8) (k : Nat) (code : c.toNat = 48 + k) (low : k < 10) : isdigit c = true := by
  rw [isdigit, decide_eq_true_eq]
  omega

theorem chars_digits (byte : UInt8) :
    isdigit (asctodectab (modu10 byte.toUInt64)) = true ∧
    isdigit (asctodectab (modu10 (divu10 byte.toUInt64))) = true ∧
    isdigit (asctodectab (modu10 (divu100 byte.toUInt64))) = true := by
  have chars := digit_chars byte
  exact ⟨digit_of_code _ _ chars.1 (by omega), digit_of_code _ _ chars.2.1 (by omega), digit_of_code _ _ chars.2.2 (by omega)⟩

theorem put_digit (mem : Mem UInt8) (i j : Nat) (c : UInt8) (digit : isdigit c = true)
    (held : j = i ∨ isdigit (mem.cell j) = true) : isdigit ((mem.put i c).cell j) = true := by
  by_cases same : j = i
  · rw [same, put_cell_self, digit]
  · rw [put_cell_of_ne mem i j c same]
    exact held.resolve_left same

-- The text after n fields: digits alone, from the start up to where the next goes.
structure Printed (n : Nat) (t : Text) : Prop where
  within : t.str.Within 0 16
  place : t.u8ptr ≤ 3 * n
  short : t.len ≤ 3
  digits : ∀ i, i < t.u8ptr → isdigit (t.str.cell i) = true

theorem ntoadigits_printed (len : Nat) (short : len ≤ 3) (tmp1 tmp4 tmp5 : UInt64) (str : Mem UInt8) (u8ptr : Nat)
    (place : u8ptr + 3 ≤ 15) (within : str.Within 0 16) (digits : ∀ i, i < u8ptr → isdigit (str.cell i) = true)
    (one : isdigit (asctodectab tmp1) = true) (ten : isdigit (asctodectab tmp4) = true) (hundred : isdigit (asctodectab tmp5) = true) :
    (ntoadigits len tmp1 tmp4 tmp5 str u8ptr).Within 0 16 ∧
      ∀ i, i < u8ptr + len → isdigit ((ntoadigits len tmp1 tmp4 tmp5 str u8ptr).cell i) = true := by
  have earlier (i : Nat) (low : i < u8ptr + len) : isdigit (str.cell i) = true ∨ u8ptr ≤ i ∧ i < u8ptr + len := by
    by_cases before : i < u8ptr
    · exact Or.inl (digits i before)
    · exact Or.inr ⟨by omega, low⟩
  match len, short with
  | 0, _ => exact ⟨within, digits⟩
  | 1, _ =>
      refine ⟨put_within _ _ _ _ _ within (Nat.zero_le _) (by omega), fun i low => put_digit _ _ _ _ one ?_⟩
      rcases earlier i low with held | here
      · exact Or.inr held
      · exact Or.inl (by omega)
  | 2, _ =>
      refine ⟨put_within _ _ _ _ _ (put_within _ _ _ _ _ within (Nat.zero_le _) (by omega)) (Nat.zero_le _) (by omega),
        fun i low => put_digit _ _ _ _ ten ?_⟩
      rcases earlier i low with held | here
      · exact Or.inr (put_digit _ _ _ _ one (Or.inr held))
      · by_cases first : i = u8ptr
        · exact Or.inl first
        · exact Or.inr (put_digit _ _ _ _ one (Or.inl (by omega)))
  | 3, _ =>
      refine ⟨put_within _ _ _ _ _ (put_within _ _ _ _ _ (put_within _ _ _ _ _ within (Nat.zero_le _) (by omega))
        (Nat.zero_le _) (by omega)) (Nat.zero_le _) (by omega), fun i low => put_digit _ _ _ _ hundred ?_⟩
      rcases earlier i low with held | here
      · exact Or.inr (put_digit _ _ _ _ ten (Or.inr (put_digit _ _ _ _ one (Or.inr held))))
      · by_cases first : i = u8ptr
        · exact Or.inl first
        · by_cases second : i = u8ptr + 1
          · exact Or.inr (put_digit _ _ _ _ ten (Or.inl second))
          · exact Or.inr (put_digit _ _ _ _ ten (Or.inr (put_digit _ _ _ _ one (Or.inl (by omega)))))

theorem ntoafield_printed (n ndx : Nat) (low : n < 4) (byte : UInt8) (t : Text) (printed : Printed n t) :
    Printed (n + 1) (ntoafield ndx byte t) ∧
      (ntoafield ndx byte t).str.cell (ntoafield ndx byte t).u8ptr = if ndx < 3 then dot else 0 := by
  have place := printed.place
  have short := printed.short
  obtain ⟨one, ten, hundred⟩ := chars_digits byte
  have few : (if 100 ≤ byte.toUInt64 then 3 else if 10 ≤ byte.toUInt64 then 2 else t.len) ≤ 3 := by
    by_cases large : 100 ≤ byte.toUInt64
    · rw [if_pos large]
    · by_cases middle : 10 ≤ byte.toUInt64
      · rw [if_neg large, if_pos middle]
        decide
      · rw [if_neg large, if_neg middle]
        exact short
  have written := ntoadigits_printed _ few _ _ _ t.str t.u8ptr (by omega) printed.within printed.digits one ten hundred
  rw [ntoafield]
  dsimp only
  generalize (if 100 ≤ byte.toUInt64 then 3 else if 10 ≤ byte.toUInt64 then 2 else t.len) = len at few written ⊢
  refine ⟨⟨put_within _ _ _ _ _ written.1 (Nat.zero_le _) (by omega), ?_, few, fun i before => ?_⟩, put_cell_self _ _ _⟩
  · show t.u8ptr + len ≤ 3 * (n + 1)
    omega
  · rw [put_cell_of_ne _ _ _ _ (Nat.ne_of_lt before)]
    exact written.2 i before

theorem ntoa_printed (adr : Nat → UInt8) (inaddrstr : Nat → UInt8) (n : Nat) (low : n ≤ 4) :
    Printed n ((List.range n).foldl (fun t ndx => ntoafield ndx (adr ndx) t) ⟨⟨inaddrstr, []⟩, 0, 0⟩) := by
  induction n with
  | zero => exact ⟨fun i none => absurd none List.not_mem_nil, Nat.le_refl 0, Nat.zero_le 3, fun i none => absurd none (Nat.not_lt_zero i)⟩
  | succ n ih =>
      rw [List.range_succ, List.foldl_append]
      exact (ntoafield_printed n n low _ _ (ih (by omega))).1

-- No text that holds a dot is ever printed: each dot is where the next field goes.
theorem ntoa_no_dot (adr : Nat → UInt8) (inaddrstr : Nat → UInt8) :
    (inet_ntoa adr ⟨inaddrstr, []⟩).Within 0 16 ∧
      ∃ len, (inet_ntoa adr ⟨inaddrstr, []⟩).cell len = 0 ∧
        ∀ i, i < len → isdigit ((inet_ntoa adr ⟨inaddrstr, []⟩).cell i) = true := by
  have before := ntoa_printed adr inaddrstr 3 (by decide)
  have last := ntoafield_printed 3 3 (by decide) (adr 3) _ before
  exact ⟨last.1.within, _, last.2, last.1.digits⟩

theorem decimal_digits (n : Nat) : ∀ c ∈ decimal n, isdigit c = true := by
  fun_induction decimal n with
  | case1 n low =>
      intro c inside
      rw [List.mem_singleton.mp inside]
      exact digit_of_code _ n (UInt8.toNat_ofNat_of_lt' (by rw [UInt8.size]; omega)) low
  | case2 n large ih =>
      intro c inside
      rw [List.mem_append, List.mem_singleton] at inside
      rcases inside with before | rfl
      · exact ih c before
      · have low := Nat.mod_lt n (by decide : 10 > 0)
        exact digit_of_code _ (n % 10) (UInt8.toNat_ofNat_of_lt' (by rw [UInt8.size]; omega)) low

theorem value_append (w : List UInt8) (c : UInt8) : value (w ++ [c]) = value w * 10 + (c.toNat - 48) := by
  rw [value, List.foldl_append]
  rfl

theorem value_decimal (n : Nat) : value (decimal n) = n := by
  fun_induction decimal n with
  | case1 n low =>
      have code : (UInt8.ofNat (48 + n)).toNat = 48 + n := UInt8.toNat_ofNat_of_lt' (by rw [UInt8.size]; omega)
      rw [value, List.foldl_cons, List.foldl_nil, code]
      omega
  | case2 n large ih =>
      have code : (UInt8.ofNat (48 + n % 10)).toNat = 48 + n % 10 := UInt8.toNat_ofNat_of_lt' (by rw [UInt8.size]; omega)
      rw [value_append, ih, code]
      omega

theorem decimal_some (n : Nat) : decimal n ≠ [] := by
  rw [decimal]
  by_cases low : n < 10
  · rw [if_pos low]
    exact List.cons_ne_nil _ _
  · rw [if_neg low]
    exact List.concat_ne_nil _ _

theorem decimal_plain (n : Nat) : ∀ c ∈ decimal n, (c == dot) = false := by
  intro c inside
  rw [beq_eq_false_iff_ne]
  rintro rfl
  exact absurd (decimal_digits n dot inside) (by decide)

theorem dotted_words (adr : Nat → UInt8) : (dotted adr).splitOn dot =
    [decimal (adr 0).toNat, decimal (adr 1).toNat, decimal (adr 2).toNat, decimal (adr 3).toNat] := by
  simp only [dotted, List.append_assoc, List.cons_append]
  have head (n : Nat) (s : List UInt8) : (decimal n ++ dot :: s).splitOn dot = decimal n :: s.splitOn dot :=
    List.splitOnP_append_cons_of_forall_mem (decimal_plain n) dot (beq_self_eq_true dot) s
  have last : (decimal (adr 3).toNat).splitOn dot = [decimal (adr 3).toNat] := List.splitOnP_eq_singleton (decimal_plain _)
  rw [head, head, head, last]

theorem dotted_quad (adr : Nat → UInt8) : quad (dotted adr) = true := by
  have number (byte : UInt8) : isnumber (decimal byte.toNat) = true ∧ value (decimal byte.toNat) ≤ 255 := by
    rw [isnumber, Bool.and_eq_true, decide_eq_true_eq, List.all_eq_true, value_decimal]
    exact ⟨⟨decimal_some _, decimal_digits _⟩, Nat.le_of_lt_succ byte.toNat_lt⟩
  rw [quad, dotted_words, decide_eq_true_eq]
  refine ⟨rfl, fun w inside => ?_⟩
  simp only [List.mem_cons, List.not_mem_nil, or_false] at inside
  rcases inside with rfl | rfl | rfl | rfl <;> exact number _

theorem dotted_chars (adr : Nat → UInt8) : ∀ c ∈ dotted adr, c ≠ 0 := by
  rintro c inside rfl
  have digits (n : Nat) : (0 : UInt8) ∉ decimal n := fun here => absurd (decimal_digits n 0 here) (by decide)
  simp only [dotted, List.mem_append, List.mem_cons, digits, or_false, false_or] at inside
  exact absurd inside (by decide)

theorem ntoa_misses (adr : Nat → UInt8) (inaddrstr : Nat → UInt8) : ¬ Holds (inet_ntoa adr ⟨inaddrstr, []⟩).cell (dotted adr) := by
  intro holds
  obtain ⟨within, len, nul, digits⟩ := ntoa_no_dot adr inaddrstr
  have first : (dotted adr)[(decimal (adr 0).toNat).length]? = some dot := by
    simp only [dotted, List.append_assoc, List.cons_append]
    rw [List.getElem?_append_right (Nat.le_refl _), Nat.sub_self, List.getElem?_cons_zero]
  have far : len ≤ (decimal (adr 0).toNat).length := by
    apply Nat.le_of_not_lt
    intro before
    have digit := digits _ before
    rw [holds.1 _ dot first] at digit
    exact absurd digit (by decide)
  have inside : len < (dotted adr).length := Nat.lt_of_le_of_lt far (List.getElem?_eq_some_iff.mp first).1
  have zero := holds.1 len _ (List.getElem?_eq_getElem inside)
  exact dotted_chars adr _ (List.getElem_mem inside) (zero.symm.trans nul)

-- The text of an address is never read back as that address.
theorem aton_misses (longmax : Nat) (wide : 57 ≤ longmax) (adr b : Nat → UInt8) :
    ¬ ∃ adr', inet_aton longmax (dotted adr) ⟨b, []⟩ = some (1, adr') ∧ adr'.Within 0 4 ∧ ∀ i, i < 4 → adr'.cell i = adr i := by
  rintro ⟨adr', result, within, same⟩
  have plain : 0 ∉ dotted adr := fun inside => dotted_chars adr 0 inside rfl
  have meets : AtonMeets longmax (dotted adr) b := by
    refine ⟨1, adr', result, within, ?_⟩
    rw [if_pos (dotted_quad adr)]
    refine ⟨rfl, fun i low => ?_⟩
    rw [same i low, dotted_words]
    have back (byte : UInt8) : byte = UInt8.ofNat (value (decimal byte.toNat)) := by
      rw [value_decimal, UInt8.ofNat_toNat]
    match i, low with
    | 0, _ => exact back (adr 0)
    | 1, _ => exact back (adr 1)
    | 2, _ => exact back (adr 2)
    | 3, _ => exact back (adr 3)
  have bad := ((aton_meets_iff longmax wide (dotted adr) plain b).mp meets).1
  rw [dotted_quad] at bad
  contradiction

-- No address is printed as its text or read back from it. A text is rejected as it
-- should be when it is no address, has fewer than five leading fields of one digit,
-- is not three of them and one number more, and has no run of digits past LONG_MAX.
theorem inet_round_trip_iff (longmax : Nat) (wide : 2 ^ 31 - 1 ≤ longmax) :
    (∀ adr inaddrstr b : Nat → UInt8, (inet_ntoa adr ⟨inaddrstr, []⟩).Within 0 16 ∧
      ¬ Holds (inet_ntoa adr ⟨inaddrstr, []⟩).cell (dotted adr) ∧
      ¬ ∃ adr', inet_aton longmax (dotted adr) ⟨b, []⟩ = some (1, adr') ∧ adr'.Within 0 4 ∧ ∀ i, i < 4 → adr'.cell i = adr i) ∧
    ∀ s : List UInt8, 0 ∉ s → ∀ b : Nat → UInt8, AtonMeets longmax s b ↔
      quad s = false ∧ (ones s).1.length < 5 ∧ ¬ ((ones s).1.length = 3 ∧ isnumber (ones s).2 = true) ∧
        codes 0 ((ones s).2.takeWhile isdigit) ≤ longmax := by
  refine ⟨fun adr inaddrstr b => ⟨(ntoa_no_dot adr inaddrstr).1, ntoa_misses adr inaddrstr, aton_misses longmax (by omega) adr b⟩, ?_⟩
  intro s plain b
  exact aton_meets_iff longmax (by omega) s plain b

theorem inet_round_trip_iff_at_short :
    AtonMeets (2 ^ 63 - 1) (text "1.2.3") (fun _ => 0) ∧ ¬ AtonMeets (2 ^ 63 - 1) (text "1.2.3.456") (fun _ => 0) := by
  have settled := (inet_round_trip_iff (2 ^ 63 - 1) (by decide)).2
  constructor
  · exact (settled (text "1.2.3") (by decide +kernel) _).mpr (by decide +kernel)
  · exact fun meets => absurd ((settled (text "1.2.3.456") (by decide +kernel) _).mp meets) (by decide +kernel)

def loopback (i : Nat) : UInt8 := [127, 0, 0, 1].getD i 0

theorem inet_ntoa_loopback :
    ¬ (∀ adr inaddrstr : Nat → UInt8, Holds (inet_ntoa adr ⟨inaddrstr, []⟩).cell (dotted adr)) ∧
      (inet_ntoa loopback ⟨fun _ => 0, []⟩).cell 3 = code '0' ∧ (dotted loopback)[3]? = some dot := by
  refine ⟨?_, by decide +kernel, by decide +kernel⟩
  intro holds
  have place := (holds loopback (fun _ => 0)).1 3 dot (by decide +kernel)
  exact absurd place (by decide +kernel)

end OsZero.Net

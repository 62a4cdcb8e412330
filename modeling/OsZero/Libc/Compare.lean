import OsZero.Lib.Cstring
import Mathlib.Data.List.TakeWhile

set_option autoImplicit false

namespace OsZero.Libc

open Cstring

def difference (buf1 buf2 : Nat → UInt8) (i : Nat) : Int := (buf1 i).toNat - (buf2 i).toNat

-- memcmp and kmemcmp are the same text. Beside the value stands how far into the
-- arrays the loop has read.
def comparebytes (buf1 buf2 : Nat → UInt8) (n : Nat) : Int × Nat :=
  if n ≠ 0 then
    let ends := countdown (fun i => buf1 i == buf2 i) n 0
    (if ends.1 ≠ 0 then difference buf1 buf2 ends.2 else 0, ends.2 + 1)
  else (0, 0)

def memcmp (ptr1 ptr2 : Nat → UInt8) (n : Nat) : Int × Nat := comparebytes ptr1 ptr2 n

def kmemcmp (ptr1 ptr2 : Nat → UInt8) (nb : Nat) : Int × Nat := comparebytes ptr1 ptr2 nb

-- strcmp and kstrcmp are the same text, too.
def comparestrings (room : Nat) (buf1 buf2 : Nat → UInt8) : Option Int := do
  let i ← advance (fun i => buf1 i ≠ 0 && buf1 i == buf2 i) room 0
  some (if buf1 i ≠ 0 then difference buf1 buf2 i else 0)

def strcmp (room : Nat) (str1 str2 : Nat → UInt8) : Option Int := comparestrings room str1 str2

def kstrcmp (room : Nat) (str1 str2 : Nat → UInt8) : Option Int := comparestrings room str1 str2

def strncmp (str1 str2 : Nat → UInt8) (n : Nat) : Int :=
  if n ≠ 0 then
    let ends := countdown (fun i => str1 i ≠ 0 && str1 i == str2 i) n 0
    if ends.1 ≠ 0 then difference str1 str2 ends.2 else 0
  else 0

-- The string of at most n bytes that an array holds.
def upto (buf : Nat → UInt8) (n : Nat) : List UInt8 := (slice buf 0 n).takeWhile (· ≠ 0)

theorem difference_same (buf1 buf2 : Nat → UInt8) (i : Nat) (same : buf1 i = buf2 i) : difference buf1 buf2 i = 0 := by
  rw [difference, same, Int.sub_self]

theorem slice_same (buf1 buf2 : Nat → UInt8) (n : Nat) : slice buf1 0 n = slice buf2 0 n ↔ ∀ i, i < n → buf1 i = buf2 i := by
  rw [slice, slice, List.map_inj_left]
  simp only [Nat.sub_zero, List.mem_range, Nat.zero_add]

theorem slice_take (buf : Nat → UInt8) (lim k : Nat) : (slice buf 0 lim).take k = slice buf 0 (min k lim) := by
  have portion := slice_portion buf 0 lim k
  rwa [Nat.zero_add, Nat.zero_add] at portion

-- The loop ends where the arrays differ first, or one byte behind them.
theorem comparebytes_ends (buf1 buf2 : Nat → UInt8) (n : Nat) (some_bytes : n ≠ 0) :
    (∃ i, i < n ∧ (∀ j, j < i → buf1 j = buf2 j) ∧ buf1 i ≠ buf2 i ∧ comparebytes buf1 buf2 n = (difference buf1 buf2 i, i + 1)) ∨
      (∀ j, j < n → buf1 j = buf2 j) ∧ comparebytes buf1 buf2 n = (0, n + 1) := by
  obtain ⟨k, low, run, ends⟩ := countdown_stops (fun i => buf1 i == buf2 i) n 0
  simp only [Nat.zero_add, beq_iff_eq, beq_eq_false_iff_ne] at run ends
  rw [comparebytes, if_pos some_bytes]
  dsimp only
  rcases ends with ⟨differ, stop⟩ | ⟨rfl, same, stop⟩
  · rw [stop]
    rcases Nat.lt_or_eq_of_le low with inside | rfl
    · exact .inl ⟨k, inside, run, differ, by rw [if_pos (Nat.sub_ne_zero_of_lt inside)]⟩
    · exact .inr ⟨run, by rw [Nat.sub_self, if_neg (not_not_intro rfl)]⟩
  · rw [stop]
    exact .inr ⟨run, by rw [if_pos size_max_ne_zero, difference_same buf1 buf2 k same]⟩

theorem comparebytes_iff (buf1 buf2 : Nat → UInt8) (n : Nat) :
    Signs (comparebytes buf1 buf2 n).1 (slice buf1 0 n) (slice buf2 0 n) ∧
      ((comparebytes buf1 buf2 n).2 ≤ n ↔ n = 0 ∨ slice buf1 0 n ≠ slice buf2 0 n) := by
  by_cases empty : n = 0
  · subst empty
    exact ⟨(signs_zero _ _).mpr rfl, iff_of_true (Nat.le_refl 0) (.inl rfl)⟩
  · rw [or_iff_right empty]
    rcases comparebytes_ends buf1 buf2 n empty with ⟨i, inside, run, differ, ends⟩ | ⟨run, ends⟩
    · rw [ends]
      have byte1 := slice_getD buf1 n i inside
      have byte2 := slice_getD buf2 n i inside
      have signs := signs_first (slice buf1 0 n) (slice buf2 0 n) i (.inl (by rw [slice_length, slice_length]))
        (fun j low => by rw [slice_getD buf1 n j (Nat.lt_trans low inside), slice_getD buf2 n j (Nat.lt_trans low inside), run j low])
        (by rw [byte1, byte2]; exact differ)
      rw [byte1, byte2] at signs
      exact ⟨signs, iff_of_true inside fun same => differ ((slice_same buf1 buf2 n).mp same i inside)⟩
    · rw [ends]
      have same := (slice_same buf1 buf2 n).mpr run
      exact ⟨(signs_zero _ _).mpr same, iff_of_false (Nat.not_succ_le_self n) (not_not_intro same)⟩

theorem comparestrings_iff (str1 str2 : Cstr) (more : Nat) : ∃ retval, comparestrings (str1.len + 1 + more) str1.buf str2.buf = some retval ∧
    (Signs retval str1.bytes str2.bytes ↔ ¬ (str1.bytes <+: str2.bytes ∧ str1.bytes ≠ str2.bytes)) := by
  have stop : (str1.buf str1.len ≠ 0 && str1.buf str1.len == str2.buf str1.len) = false := by
    rw [str1.nul]
    rfl
  obtain ⟨i, found, -, low, ends, run⟩ := advance_stops (fun i => str1.buf i ≠ 0 && str1.buf i == str2.buf i) (str1.len + 1 + more) 0 str1.len
    stop (Nat.zero_le _) (by omega)
  simp only [Bool.and_eq_true, decide_eq_true_eq, beq_iff_eq] at run
  have high : i ≤ str2.len := Nat.le_of_not_lt fun less => by
    obtain ⟨plain, same⟩ := run str2.len (Nat.zero_le _) less
    exact plain (same.trans str2.nul)
  have same (j : Nat) (under : j < i) : str1.bytes.getD j 0 = str2.bytes.getD j 0 := by
    rw [bytes_getD str1 j (by omega), bytes_getD str2 j (by omega)]
    exact (run j (Nat.zero_le j) under).2
  refine ⟨_, by rw [comparestrings, found]; rfl, ?_⟩
  by_cases nul : str1.buf i = 0
  · have last : i = str1.len := Nat.le_antisymm low (Nat.le_of_not_lt fun less => str1.before i less nul)
    rw [if_neg (not_not_intro nul), signs_zero]
    have shorter : str1.bytes <+: str2.bytes := by
      rw [List.prefix_iff_eq_take, Cstr.bytes, Cstr.bytes, slice_length, Nat.sub_zero, slice_take, Nat.min_eq_left (last ▸ high), slice_same]
      exact fun j under => (run j (Nat.zero_le j) (last ▸ under)).2
    rw [and_iff_right shorter, not_not]
  · rw [if_pos nul]
    have differ : str1.buf i ≠ str2.buf i := by
      intro equal
      rw [equal, beq_self_eq_true, Bool.and_true, decide_eq_false_iff_not, ← equal] at ends
      exact ends nul
    have byte1 := bytes_getD str1 i low
    have byte2 := bytes_getD str2 i high
    have signs := signs_first str1.bytes str2.bytes i (.inr ⟨bytes_plain str1, bytes_plain str2⟩) same (by rw [byte1, byte2]; exact differ)
    rw [byte1, byte2] at signs
    refine iff_of_true signs fun shorter => ?_
    obtain ⟨rest, joined⟩ := shorter.1
    have inside : i < str1.bytes.length := by
      rw [Cstr.bytes, slice_length]
      exact Nat.lt_of_le_of_ne low fun last => nul (last ▸ str1.nul)
    rw [← joined, List.getD_eq_getElem?_getD, List.getElem?_append_left inside, ← List.getD_eq_getElem?_getD, byte1] at byte2
    exact differ byte2

theorem upto_plain (buf : Nat → UInt8) (n : Nat) : 0 ∉ upto buf n := by
  intro member
  have plain := List.mem_takeWhile_imp member
  simp at plain

theorem takeWhile_getD (list : List UInt8) (i : Nat) (run : ∀ j, j < i → list.getD j 0 ≠ 0) :
    (list.takeWhile (· ≠ 0)).getD i 0 = list.getD i 0 := by
  induction list generalizing i with
  | nil => rfl
  | cons c list ih =>
    by_cases nul : c = 0
    · cases i with
      | zero => rw [List.takeWhile_cons_of_neg (by simpa using nul), nul]; rfl
      | succ i => exact absurd nul (run 0 (Nat.succ_pos i))
    · rw [List.takeWhile_cons_of_pos (by simpa using nul)]
      cases i with
      | zero => rfl
      | succ i => exact ih i fun j low => run (j + 1) (Nat.succ_lt_succ low)

-- A string of at most n bytes reads as the array does, up to its end.
theorem upto_getD (buf : Nat → UInt8) (n i : Nat) (inside : i < n) (run : ∀ j, j < i → buf j ≠ 0) : (upto buf n).getD i 0 = buf i := by
  rw [upto, takeWhile_getD, slice_getD buf n i inside]
  intro j low
  rw [slice_getD buf n j (Nat.lt_trans low inside)]
  exact run j low

theorem strncmp_signs (buf1 buf2 : Nat → UInt8) (n : Nat) : Signs (strncmp buf1 buf2 n) (upto buf1 n) (upto buf2 n) := by
  by_cases empty : n = 0
  · subst empty
    exact (signs_zero _ _).mpr rfl
  · obtain ⟨k, low, run, ends⟩ := countdown_stops (fun i => buf1 i ≠ 0 && buf1 i == buf2 i) n 0
    simp only [Nat.zero_add, Bool.and_eq_true, decide_eq_true_eq, beq_iff_eq] at run ends
    have read1 (j : Nat) (under : j ≤ k) (inside : j < n) := upto_getD buf1 n j inside fun i less => (run i (by omega)).1
    have read2 (j : Nat) (under : j ≤ k) (inside : j < n) :=
      upto_getD buf2 n j inside fun i less => (run i (by omega)).2 ▸ (run i (by omega)).1
    have same (j : Nat) (under : j < k) : (upto buf1 n).getD j 0 = (upto buf2 n).getD j 0 := by
      rw [read1 j (by omega) (by omega), read2 j (by omega) (by omega)]
      exact (run j under).2
    have equal (all : ∀ j, j < n → buf1 j = buf2 j) : upto buf1 n = upto buf2 n := by rw [upto, upto, (slice_same buf1 buf2 n).mpr all]
    rw [strncmp, if_pos empty]
    dsimp only
    rcases ends with ⟨ended, stop⟩ | ⟨rfl, both, stop⟩
    · rw [stop]
      rcases Nat.lt_or_eq_of_le low with inside | rfl
      · rw [if_pos (Nat.sub_ne_zero_of_lt inside)]
        have byte1 := read1 k (Nat.le_refl k) inside
        have byte2 := read2 k (Nat.le_refl k) inside
        by_cases match_ : buf1 k = buf2 k
        · have nul : buf1 k = 0 := by
            rw [match_, beq_self_eq_true, Bool.and_true, decide_eq_false_iff_not, not_not, ← match_] at ended
            exact ended
          rw [difference_same buf1 buf2 k match_, signs_zero]
          apply same_ends _ _ k (upto_plain buf1 n) (upto_plain buf2 n) ?_ (byte1.trans nul)
          intro j under
          rcases Nat.lt_or_eq_of_le under with less | rfl
          · exact same j less
          · rw [byte1, byte2, match_]
        · have signs := signs_first _ _ k (.inr ⟨upto_plain buf1 n, upto_plain buf2 n⟩) same (by rw [byte1, byte2]; exact match_)
          rwa [byte1, byte2] at signs
      · rw [Nat.sub_self, if_neg (not_not_intro rfl), signs_zero]
        exact equal fun j under => (run j under).2
    · rw [stop, if_pos size_max_ne_zero, difference_same buf1 buf2 k both.2, signs_zero]
      exact equal fun j under => (run j under).2

-- The comparison of memory always has the right sign, and stays in front of n when the
-- arrays differ there; strcmp takes a proper prefix for the whole string.
theorem comparisons_iff (ptr1 ptr2 : Nat → UInt8) (n : Nat) (str1 str2 : Cstr) (more : Nat) :
    (Signs (memcmp ptr1 ptr2 n).1 (slice ptr1 0 n) (slice ptr2 0 n) ∧ (memcmp ptr1 ptr2 n).2 ≤ n ↔ n = 0 ∨ slice ptr1 0 n ≠ slice ptr2 0 n) ∧
    (Signs (kmemcmp ptr1 ptr2 n).1 (slice ptr1 0 n) (slice ptr2 0 n) ∧ (kmemcmp ptr1 ptr2 n).2 ≤ n ↔ n = 0 ∨ slice ptr1 0 n ≠ slice ptr2 0 n) ∧
    (∃ retval, strcmp (str1.len + 1 + more) str1.buf str2.buf = some retval ∧
      (Signs retval str1.bytes str2.bytes ↔ ¬ (str1.bytes <+: str2.bytes ∧ str1.bytes ≠ str2.bytes))) ∧
    (∃ retval, kstrcmp (str1.len + 1 + more) str1.buf str2.buf = some retval ∧
      (Signs retval str1.bytes str2.bytes ↔ ¬ (str1.bytes <+: str2.bytes ∧ str1.bytes ≠ str2.bytes))) ∧
    Signs (strncmp ptr1 ptr2 n) (upto ptr1 n) (upto ptr2 n) := by
  obtain ⟨signs, reads⟩ := comparebytes_iff ptr1 ptr2 n
  have bytes : Signs (comparebytes ptr1 ptr2 n).1 (slice ptr1 0 n) (slice ptr2 0 n) ∧
      (comparebytes ptr1 ptr2 n).2 ≤ n ↔ n = 0 ∨ slice ptr1 0 n ≠ slice ptr2 0 n := by
    rw [and_iff_right signs, reads]
  exact ⟨bytes, bytes, comparestrings_iff str1 str2 more, comparestrings_iff str1 str2 more, strncmp_signs ptr1 ptr2 n⟩

def spelled (word : List UInt8) (i : Nat) : UInt8 := word.getD i 0

def one : Cstr := ⟨spelled (text "a"), 1, rfl, by decide⟩

def two : Cstr := ⟨spelled (text "ab"), 2, rfl, by decide⟩

theorem prefix_compares_same : strcmp 2 one.buf two.buf = some 0 ∧ ¬ Signs 0 one.bytes two.bytes ∧
    ¬ (memcmp one.buf one.buf 1).2 ≤ 1 := by
  refine ⟨by decide, fun signs => ?_, by decide⟩
  exact absurd ((signs_zero _ _).mp signs) (by decide)

end OsZero.Libc

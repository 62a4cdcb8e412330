import Mathlib.Algebra.Group.Nat.Defs
import Mathlib.Logic.Function.Basic

set_option autoImplicit false

namespace Cstring

def code (c : Char) : UInt8 := UInt8.ofNat c.toNat

def text (s : String) : List UInt8 := s.toList.map code

-- The character classes of the C locale. No byte of the upper half is in one.
def isspace (c : UInt8) : Bool := c.toNat = 32 ∨ 9 ≤ c.toNat ∧ c.toNat ≤ 13

def isdigit (c : UInt8) : Bool := 48 ≤ c.toNat ∧ c.toNat ≤ 57

def isalpha (c : UInt8) : Bool := 65 ≤ c.toNat ∧ c.toNat ≤ 90 ∨ 97 ≤ c.toNat ∧ c.toNat ≤ 122

def isalnum (c : UInt8) : Bool := isalpha c || isdigit c

def isxdigit (c : UInt8) : Bool := isdigit c || (65 ≤ c.toNat ∧ c.toNat ≤ 70 ∨ 97 ≤ c.toNat ∧ c.toNat ≤ 102 : Bool)

def tolower (c : UInt8) : UInt8 := if 65 ≤ c.toNat ∧ c.toNat ≤ 90 then c + 32 else c

-- while (p(*str)) str++, in an array with room more bytes from str on: none
-- where it reads on behind the array.
def scan (p : UInt8 → Bool) (buf : Nat → UInt8) : Nat → Nat → Option Nat
  | 0, _ => none
  | room + 1, str => if p (buf str) then scan p buf room (str + 1) else some str

-- strncmp against a word without a NUL, over the length of the word.
def starts (buf : Nat → UInt8) : Nat → List UInt8 → Bool
  | _, [] => true
  | str, c :: word => buf str == c && starts buf (str + 1) word

-- The bytes in front of lim from str on.
def slice (buf : Nat → UInt8) (str lim : Nat) : List UInt8 := (List.range (lim - str)).map fun i => buf (str + i)

-- while (p(i)) i++, in room steps.
def advance (p : Nat → Bool) : Nat → Nat → Option Nat
  | 0, _ => none
  | room + 1, i => if p i then advance p room (i + 1) else some i

theorem advance_stops (p : Nat → Bool) (room i lim : Nat) (stop : p lim = false) (before : i ≤ lim) (inside : lim < i + room) :
    ∃ pos, advance p room i = some pos ∧ i ≤ pos ∧ pos ≤ lim ∧ p pos = false ∧ ∀ j, i ≤ j → j < pos → p j = true := by
  induction room generalizing i with
  | zero => omega
  | succ room ih =>
    rw [advance]
    by_cases more : p i = true
    · have further : i ≠ lim := by
        rintro rfl
        rw [more] at stop
        contradiction
      obtain ⟨pos, found, low, high, stopped, run⟩ := ih (i + 1) (by omega) (by omega)
      refine ⟨pos, by rw [if_pos more, found], by omega, high, stopped, fun j lower upper => ?_⟩
      by_cases same : j = i
      · rw [same, more]
      · exact run j (by omega) upper
    · exact ⟨i, by rw [if_neg more], Nat.le_refl i, before, Bool.not_eq_true _ ▸ more, fun j lower upper => by omega⟩

theorem scan_advance (p : UInt8 → Bool) (buf : Nat → UInt8) (room str : Nat) : scan p buf room str = advance (fun i => p (buf i)) room str := by
  induction room generalizing str with
  | zero => rfl
  | succ room ih => rw [scan, advance, ih]

theorem scan_stops (p : UInt8 → Bool) (buf : Nat → UInt8) (room str lim : Nat) (stop : p (buf lim) = false) (before : str ≤ lim)
    (inside : lim < str + room) :
    ∃ pos, scan p buf room str = some pos ∧ str ≤ pos ∧ pos ≤ lim ∧ p (buf pos) = false ∧ ∀ i, str ≤ i → i < pos → p (buf i) = true := by
  rw [scan_advance]
  exact advance_stops (fun i => p (buf i)) room str lim stop before inside

theorem scan_moves (p : UInt8 → Bool) (buf : Nat → UInt8) (room str pos : Nat) (first : p (buf str) = true)
    (found : scan p buf room str = some pos) : str < pos := by
  have later : ∀ room str, scan p buf room str = some pos → str ≤ pos := by
    intro room
    induction room with
    | zero => exact fun _ none => by contradiction
    | succ room ih =>
      intro str found
      rw [scan] at found
      split at found
      · exact Nat.le_of_succ_le (ih (str + 1) found)
      · exact Nat.le_of_eq (Option.some.inj found)
  cases room with
  | zero => contradiction
  | succ room =>
    rw [scan, if_pos first] at found
    exact later room (str + 1) found

-- A word without a NUL that stands in front of a NUL ends there at the latest.
theorem starts_le (buf : Nat → UInt8) (str lim : Nat) (word : List UInt8) (nul : buf lim = 0) (plain : 0 ∉ word)
    (before : str ≤ lim) (found : starts buf str word = true) : str + word.length ≤ lim := by
  induction word generalizing str with
  | nil => exact before
  | cons c word ih =>
    rw [starts, Bool.and_eq_true, beq_iff_eq] at found
    have further : str ≠ lim := by
      rintro rfl
      exact plain (List.mem_cons.mpr (.inl (nul.symm.trans found.1)))
    have rest := ih (str + 1) (fun inside => plain (List.mem_cons_of_mem c inside)) (by omega) found.2
    rw [List.length_cons]
    omega

theorem starts_get (buf : Nat → UInt8) (str : Nat) (word : List UInt8) (found : starts buf str word = true) (i : Nat) (c : UInt8)
    (get : word[i]? = some c) : buf (str + i) = c := by
  induction word generalizing str i with
  | nil => contradiction
  | cons first word ih =>
    rw [starts, Bool.and_eq_true, beq_iff_eq] at found
    cases i with
    | zero => exact found.1.trans (Option.some.inj get)
    | succ i =>
      have later := ih (str + 1) found.2 i get
      rw [← later, Nat.add_assoc, Nat.add_comm 1 i]

theorem slice_length (buf : Nat → UInt8) (str lim : Nat) : (slice buf str lim).length = lim - str := by
  rw [slice, List.length_map, List.length_range]

theorem slice_get (buf : Nat → UInt8) (str lim i : Nat) (c : UInt8) (get : (slice buf str lim)[i]? = some c) : buf (str + i) = c := by
  rw [slice, List.getElem?_map, Option.map_eq_some_iff] at get
  obtain ⟨j, at_j, rfl⟩ := get
  rw [(List.getElem?_eq_some_iff.mp at_j).2.symm, List.getElem_range]

theorem slice_empty (buf : Nat → UInt8) (str : Nat) : slice buf str str = [] := by
  rw [slice, Nat.sub_self]
  rfl

theorem slice_next (buf : Nat → UInt8) (str lim : Nat) (before : str ≤ lim) : slice buf str (lim + 1) = slice buf str lim ++ [buf lim] := by
  rw [slice, slice, Nat.succ_sub before, List.range_succ, List.map_append, List.map_singleton, Nat.add_sub_of_le before]

theorem slice_cons (buf : Nat → UInt8) (str lim : Nat) (before : str < lim) : slice buf str lim = buf str :: slice buf (str + 1) lim := by
  have size : lim - str = lim - (str + 1) + 1 := by omega
  rw [slice, slice, size, List.range_succ_eq_map, List.map_cons, List.map_map]
  simp only [Nat.add_zero, List.cons.injEq, true_and]
  refine List.map_congr_left fun j _ => ?_
  rw [Function.comp_apply, Nat.succ_eq_add_one, Nat.add_assoc, Nat.add_comm 1 j]

theorem slice_join (buf : Nat → UInt8) (str n m : Nat) : slice buf str (str + n) ++ slice buf (str + n) (str + n + m) = slice buf str (str + n + m) := by
  induction m with
  | zero => rw [Nat.add_zero, slice_empty, List.append_nil]
  | succ m ih => rw [← Nat.add_assoc, slice_next _ _ _ (by omega), ← List.append_assoc, ih, slice_next buf str (str + n + m) (by omega)]

theorem slice_portion (buf : Nat → UInt8) (str n k : Nat) : (slice buf str (str + n)).take k = slice buf str (str + min k n) := by
  rw [slice, slice, ← List.map_take, List.take_range, Nat.add_sub_cancel_left, Nat.add_sub_cancel_left]

-- An array with a NUL behind its first len bytes, none of which is one.
structure Cstr where
  buf : Nat → UInt8
  len : Nat
  nul : buf len = 0
  before : ∀ i, i < len → buf i ≠ 0

def Cstr.bytes (str : Cstr) : List UInt8 := slice str.buf 0 str.len

def SIZE_MAX : Nat := 2 ^ 64 - 1

theorem size_max_ne_zero : SIZE_MAX ≠ 0 := by decide

-- while (p(i) && n--) i++: the n and the i behind the loop, of which n is size_t.
def countdown (p : Nat → Bool) : Nat → Nat → Nat × Nat
  | 0, i => if p i then (SIZE_MAX, i) else (0, i)
  | n + 1, i => if p i then countdown p n (i + 1) else (n + 1, i)

theorem countdown_stops (p : Nat → Bool) (n i : Nat) : ∃ k, k ≤ n ∧ (∀ j, j < k → p (i + j) = true) ∧
    (p (i + k) = false ∧ countdown p n i = (n - k, i + k) ∨ k = n ∧ p (i + k) = true ∧ countdown p n i = (SIZE_MAX, i + k)) := by
  induction n generalizing i with
  | zero =>
    refine ⟨0, Nat.le_refl 0, fun j low => absurd low (Nat.not_lt_zero j), ?_⟩
    rw [countdown, Nat.add_zero]
    by_cases more : p i = true
    · exact .inr ⟨rfl, more, if_pos more⟩
    · exact .inl ⟨Bool.not_eq_true _ ▸ more, if_neg more⟩
  | succ n ih =>
    rw [countdown]
    by_cases more : p i = true
    · obtain ⟨k, low, run, ends⟩ := ih (i + 1)
      refine ⟨k + 1, Nat.succ_le_succ low, fun j under => ?_, ?_⟩
      · cases j with
        | zero => exact more
        | succ j =>
          rw [← Nat.succ_add_eq_add_succ]
          exact run j (Nat.lt_of_succ_lt_succ under)
      · rw [if_pos more, ← Nat.succ_add_eq_add_succ, Nat.add_sub_add_right, Nat.add_right_cancel_iff]
        exact ends
    · exact ⟨0, Nat.zero_le _, fun j low => absurd low (Nat.not_lt_zero j), .inl ⟨Bool.not_eq_true _ ▸ more, if_neg more⟩⟩

theorem slice_getD (buf : Nat → UInt8) (lim i : Nat) (inside : i < lim) : (slice buf 0 lim).getD i 0 = buf i := by
  rw [slice, Nat.sub_zero, List.getD_eq_getElem?_getD, List.getElem?_map, List.getElem?_range inside, Option.map_some, Nat.zero_add,
    Option.getD_some]

theorem bytes_getD (str : Cstr) (i : Nat) (inside : i ≤ str.len) : str.bytes.getD i 0 = str.buf i := by
  rcases Nat.lt_or_eq_of_le inside with low | rfl
  · exact slice_getD str.buf str.len i low
  · have ends : str.bytes.length ≤ str.len := Nat.le_of_eq (slice_length str.buf 0 str.len)
    rw [str.nul, List.getD_eq_getElem?_getD, List.getElem?_eq_none ends, Option.getD_none]

theorem bytes_plain (str : Cstr) : 0 ∉ str.bytes := by
  intro member
  obtain ⟨i, inside, nul⟩ := List.mem_map.mp member
  rw [Nat.zero_add] at nul
  exact str.before i (List.mem_range.mp inside) nul

-- The sign of a number is the order of two strings of unsigned bytes.
def Signs (retval : Int) (str1 str2 : List UInt8) : Prop :=
  (retval < 0 ↔ str1 < str2) ∧ (0 < retval ↔ str2 < str1) ∧ (retval = 0 ↔ str1 = str2)

theorem signs_zero (str1 str2 : List UInt8) : Signs 0 str1 str2 ↔ str1 = str2 := by
  constructor
  · exact fun signs => signs.2.2.mp rfl
  · rintro rfl
    exact ⟨iff_of_false (Int.lt_irrefl 0) (List.lt_irrefl _), iff_of_false (Int.lt_irrefl 0) (List.lt_irrefl _), iff_of_true rfl rfl⟩

theorem signs_swap (retval : Int) (str1 str2 : List UInt8) (signs : Signs retval str1 str2) : Signs (-retval) str2 str1 := by
  obtain ⟨less, more, same⟩ := signs
  refine ⟨?_, ?_, ?_⟩
  · rw [← more]
    omega
  · rw [← less]
    omega
  · rw [@eq_comm _ str2, ← same]
    omega

theorem signs_empty (c : UInt8) (str : List UInt8) (plain : c ≠ 0) : Signs (-c.toNat) [] (c :: str) := by
  have positive : 0 < c.toNat := Nat.pos_of_ne_zero fun zero => plain (UInt8.toNat_inj.mp zero)
  refine ⟨iff_of_true (by omega) (List.nil_lt_cons c str), iff_of_false (by omega) (List.not_lt_nil _), iff_of_false (by omega) (by simp)⟩

theorem signs_cons (c : UInt8) (retval : Int) (str1 str2 : List UInt8) : Signs retval (c :: str1) (c :: str2) ↔ Signs retval str1 str2 := by
  simp only [Signs, List.cons_lt_cons_iff, UInt8.lt_irrefl, false_or, true_and, List.cons.injEq]

theorem signs_head (c d : UInt8) (str1 str2 : List UInt8) (differ : c ≠ d) : Signs (c.toNat - d.toNat) (c :: str1) (d :: str2) := by
  have other : c.toNat ≠ d.toNat := fun same => differ (UInt8.toNat_inj.mp same)
  simp only [Signs, List.cons_lt_cons_iff, List.cons.injEq, differ, differ.symm, false_and, or_false, iff_false, UInt8.lt_iff_toNat_lt]
  omega

-- The first bytes that differ decide, where the end of a string counts as a NUL.
theorem signs_first (str1 str2 : List UInt8) (k : Nat) (ends : str1.length = str2.length ∨ 0 ∉ str1 ∧ 0 ∉ str2)
    (same : ∀ j, j < k → str1.getD j 0 = str2.getD j 0) (differ : str1.getD k 0 ≠ str2.getD k 0) :
    Signs ((str1.getD k 0).toNat - (str2.getD k 0).toNat) str1 str2 := by
  induction k generalizing str1 str2 with
  | zero =>
    cases str1 with
    | nil =>
      cases str2 with
      | nil => exact absurd rfl differ
      | cons d str2 =>
        have signs := signs_empty d str2 (Ne.symm differ)
        rwa [← Int.zero_sub] at signs
    | cons c str1 =>
      cases str2 with
      | nil =>
        have signs := signs_swap _ _ _ (signs_empty c str1 differ)
        rwa [Int.neg_neg, ← Int.sub_zero (c.toNat : Int)] at signs
      | cons d str2 => exact signs_head c d str1 str2 differ
  | succ k ih =>
    have first := same 0 (Nat.succ_pos k)
    cases str1 with
    | nil =>
      cases str2 with
      | nil => exact absurd rfl differ
      | cons d str2 =>
        have plain := ends.resolve_left (by simp)
        have nul : 0 = d := first
        exact absurd (nul ▸ List.mem_cons_self) plain.2
    | cons c str1 =>
      cases str2 with
      | nil =>
        have plain := ends.resolve_left (by simp)
        have nul : c = 0 := first
        exact absurd (nul ▸ List.mem_cons_self) plain.1
      | cons d str2 =>
        obtain rfl : c = d := first
        refine (signs_cons c _ _ _).mpr (ih str1 str2 ?_ (fun j low => same (j + 1) (Nat.succ_lt_succ low)) differ)
        exact ends.imp Nat.succ.inj fun plain => ⟨fun member => plain.1 (by simp [member]), fun member => plain.2 (by simp [member])⟩

theorem same_ends (str1 str2 : List UInt8) (k : Nat) (plain1 : 0 ∉ str1) (plain2 : 0 ∉ str2)
    (same : ∀ j, j ≤ k → str1.getD j 0 = str2.getD j 0) (ends : str1.getD k 0 = 0) : str1 = str2 := by
  induction k generalizing str1 str2 with
  | zero =>
    have other : str2.getD 0 0 = 0 := (same 0 (Nat.le_refl 0)).symm.trans ends
    cases str1 with
    | nil =>
      cases str2 with
      | nil => rfl
      | cons d str2 => exact absurd (other ▸ List.mem_cons_self : (0 : UInt8) ∈ d :: str2) plain2
    | cons c str1 => exact absurd (ends ▸ List.mem_cons_self : (0 : UInt8) ∈ c :: str1) plain1
  | succ k ih =>
    have first := same 0 (Nat.zero_le _)
    cases str1 with
    | nil =>
      cases str2 with
      | nil => rfl
      | cons d str2 =>
        have nul : 0 = d := first
        exact absurd (nul ▸ List.mem_cons_self) plain2
    | cons c str1 =>
      cases str2 with
      | nil =>
        have nul : c = 0 := first
        exact absurd (nul ▸ List.mem_cons_self) plain1
      | cons d str2 =>
        obtain rfl : c = d := first
        congr 1
        exact ih str1 str2 (fun member => plain1 (by simp [member])) (fun member => plain2 (by simp [member]))
          (fun j low => same (j + 1) (Nat.succ_le_succ low)) ends

end Cstring

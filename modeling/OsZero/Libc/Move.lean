import OsZero.Lib.Blocks
import OsZero.Lib.Cstring

set_option autoImplicit false

namespace OsZero.Libc

open Blocks

-- An unsigned long has 2 ^ log bytes, as many as an address.
variable (log : Nat)

def addresses : Nat := 2 ^ (8 * 2 ^ log)

def labs (diff : Int) : Int := Int.bmod (if diff < 0 then -diff else diff) (addresses log)

-- *u8ptr2++ = *u8ptr1++ and *--u8ptr2 = *--u8ptr1.
def copybyte (u8ptr2 u8ptr1 : Nat) (mem : Memory) : Memory := moved u8ptr2 u8ptr1 1 mem

-- ulptr2[0] = ulptr1[0] to ulptr2[7] = ulptr1[7].
def copylongs (ulptr2 ulptr1 : Nat) (mem : Memory) : Memory := unrolled (2 ^ log) 8 ulptr2 ulptr1 mem

def memcpy (dest src n : Nat) (mem : Memory) : Memory :=
  if n = 0 then mem
  else
    let val := 2 ^ log
    let lined := val <<< 3 < n ∧ src &&& (val - 1) = dest &&& (val - 1)
    let cnt := if lined ∧ src &&& (val - 1) ≠ 0 then val - (src &&& (val - 1)) else 0
    let started := copyup 1 copybyte cnt (dest, src) mem
    let nleft := n - cnt
    let lines := if lined then nleft >>> (log + 3) else 0
    let body := copyup (8 * val) (copylongs log) lines started.1 started.2
    let nleft := nleft - lines <<< (log + 3)
    (copyup 1 copybyte nleft body.1 body.2).2

def memcpybk (dest src n : Nat) (mem : Memory) : Memory :=
  if n = 0 then mem
  else
    let u8ptr1 := src + n
    let u8ptr2 := dest + n
    let val := 2 ^ log
    let distance := labs log (Int.bmod ((u8ptr1 : Int) - u8ptr2) (addresses log))
    let lined := ((val <<< 3 : Nat) : Int) ≤ distance ∧ val <<< 3 ≤ n ∧ u8ptr1 &&& (val - 1) = u8ptr2 &&& (val - 1)
    let cnt := if lined then u8ptr1 &&& (val - 1) else 0
    let started := copydown 1 copybyte cnt (u8ptr2, u8ptr1) mem
    let nleft := n - cnt
    let lines := if lined then nleft >>> (log + 3) else 0
    let body := copydown (8 * val) (copylongs log) lines started.1 started.2
    let nleft := nleft - lines <<< (log + 3)
    (copydown 1 copybyte nleft body.1 body.2).2

def memmove (dest src n : Nat) (mem : Memory) : Memory :=
  if n = 0 then mem
  else if dest < src ∨ (src + n) % addresses log < dest then memcpy log dest src n mem
  else memcpybk log dest src n mem

section Loops

variable (cnt lines nleft dest src : Nat) (mem : Memory)

theorem bytes_up (clear : dest ≤ src ∨ src + cnt ≤ dest) : copyup 1 copybyte cnt (dest, src) mem = ((dest + cnt, src + cnt), moved dest src cnt mem) := by
  have bytes := @copyup_moved 1 copybyte (fun dest src mem _ => rfl) cnt dest src mem
  rw [Nat.mul_one] at bytes
  exact bytes clear

theorem lines_up (clear : dest ≤ src ∨ src + lines * (8 * 2 ^ log) ≤ dest) : copyup (8 * 2 ^ log) (copylongs log) lines (dest, src) mem =
    ((dest + lines * (8 * 2 ^ log), src + lines * (8 * 2 ^ log)), moved dest src (lines * (8 * 2 ^ log)) mem) :=
  copyup_moved (unrolled_moved (2 ^ log) 8) lines dest src mem clear

theorem bytes_down (clear : src ≤ dest) : copydown 1 copybyte cnt (dest + cnt, src + cnt) mem = ((dest, src), moved dest src cnt mem) := by
  have bytes := @copydown_moved 1 copybyte dest src (fun i mem => rfl) cnt mem
  rw [Nat.mul_one] at bytes
  exact bytes clear

theorem lines_down (clear : src ≤ dest) (apart : lines ≠ 0 → src + 8 * 2 ^ log ≤ dest) :
    copydown (8 * 2 ^ log) (copylongs log) lines (dest + lines * (8 * 2 ^ log), src + lines * (8 * 2 ^ log)) mem =
      ((dest, src), moved dest src (lines * (8 * 2 ^ log)) mem) := by
  by_cases none : lines = 0
  · rw [none, Nat.zero_mul, moved_none]
    rfl
  · exact copydown_moved dest src (fun i mem => unrolled_moved (2 ^ log) 8 _ _ mem (Or.inr (by have := apart none; omega))) lines mem clear

variable (n : Nat) (parts : cnt + lines * (8 * 2 ^ log) + nleft = n)
include parts

-- The loops over the head, the lines and the tail copy what one copy of the whole would.
theorem forward_moved (clear : dest ≤ src ∨ src + n ≤ dest) :
    (let started := copyup 1 copybyte cnt (dest, src) mem
    let body := copyup (8 * 2 ^ log) (copylongs log) lines started.1 started.2
    (copyup 1 copybyte nleft body.1 body.2).2) = moved dest src n mem := by
  rw [← parts] at clear ⊢
  dsimp only
  rw [bytes_up cnt dest src mem (by omega), lines_up log lines _ _ _ (by omega), Nat.add_assoc dest, Nat.add_assoc src,
    moved_up dest src cnt _ mem (by omega), bytes_up _ _ _ _ (by omega), moved_up dest src _ nleft mem (by omega)]

theorem backward_moved (clear : src ≤ dest) (apart : lines ≠ 0 → src + 8 * 2 ^ log ≤ dest) :
    (let started := copydown 1 copybyte cnt (dest + n, src + n) mem
    let body := copydown (8 * 2 ^ log) (copylongs log) lines started.1 started.2
    (copydown 1 copybyte nleft body.1 body.2).2) = moved dest src n mem := by
  have reversed : n = nleft + lines * (8 * 2 ^ log) + cnt := by omega
  rw [reversed]
  dsimp only
  rw [← Nat.add_assoc dest, ← Nat.add_assoc src, bytes_down cnt _ _ mem (by omega), ← Nat.add_assoc dest, ← Nat.add_assoc src,
    lines_down log lines _ _ _ (by omega) (fun some_lines => by have := apart some_lines; omega), bytes_down nleft dest src _ clear, Nat.add_assoc dest,
    Nat.add_assoc src, moved_down dest src nleft _ _ clear, moved_down dest src _ cnt mem clear]

end Loops

-- What is left after the head and the lines.
theorem split_count (n cnt : Nat) (lined : Prop) [Decidable lined] (head : cnt ≤ n) :
    cnt + (if lined then (n - cnt) >>> (log + 3) else 0) * (8 * 2 ^ log) + (n - cnt - (if lined then (n - cnt) >>> (log + 3) else 0) <<< (log + 3)) = n := by
  have line : 8 * 2 ^ log = 2 ^ (log + 3) := by rw [Nat.pow_add, Nat.mul_comm]
  have whole := Nat.div_mul_le_self (n - cnt) (2 ^ (log + 3))
  rw [line, Nat.shiftLeft_eq, Nat.shiftRight_eq_div_pow]
  split_ifs
  · omega
  · omega

theorem memcpy_moved (dest src n : Nat) (mem : Memory) (clear : dest ≤ src ∨ src + n ≤ dest) : memcpy log dest src n mem = moved dest src n mem := by
  by_cases bytes : n = 0
  · rw [memcpy, if_pos bytes, bytes, moved_none]
  · rw [memcpy, if_neg bytes]
    dsimp only
    generalize counted : (if ((2 ^ log) <<< 3 < n ∧ src &&& (2 ^ log - 1) = dest &&& (2 ^ log - 1)) ∧ src &&& (2 ^ log - 1) ≠ 0 then
      2 ^ log - (src &&& (2 ^ log - 1)) else 0) = cnt
    have head : cnt ≤ n := by
      rw [← counted, Nat.shiftLeft_eq]
      split_ifs with lined
      · omega
      · omega
    exact forward_moved log cnt _ _ dest src mem n (split_count log n cnt _ head) clear

theorem two_lines_addressed : 2 * (8 * 2 ^ log) ≤ addresses log := by
  have positive : 8 * 2 ^ log ≠ 0 := Nat.mul_ne_zero (by decide) (Nat.ne_of_gt (Nat.two_pow_pos log))
  obtain ⟨k, size⟩ := Nat.exists_eq_succ_of_ne_zero positive
  rw [addresses, size, Nat.pow_succ, Nat.mul_comm]
  exact Nat.mul_le_mul_right 2 Nat.lt_two_pow_self

-- Pointers that are less than a line apart have a distance less than that.
theorem near_labs (dptr sptr : Nat) (clear : sptr ≤ dptr) (near : dptr < sptr + 8 * 2 ^ log) :
    labs log (Int.bmod ((sptr : Int) - dptr) (addresses log)) < (8 * 2 ^ log : Nat) := by
  have room := two_lines_addressed log
  have diff : Int.bmod ((sptr : Int) - dptr) (addresses log) = (sptr : Int) - dptr := Int.bmod_eq_of_le_mul_two (by omega) (by omega)
  have back : Int.bmod ((dptr : Int) - sptr) (addresses log) = (dptr : Int) - sptr := Int.bmod_eq_of_le_mul_two (by omega) (by omega)
  rw [diff, labs]
  split_ifs with negative
  · rw [Int.neg_sub, back]
    omega
  · rw [diff]
    omega

theorem memcpybk_moved (dest src n : Nat) (mem : Memory) (clear : src ≤ dest) : memcpybk log dest src n mem = moved dest src n mem := by
  by_cases bytes : n = 0
  · rw [memcpybk, if_pos bytes, bytes, moved_none]
  · rw [memcpybk, if_neg bytes]
    dsimp only
    by_cases lined : (((2 ^ log) <<< 3 : Nat) : Int) ≤ labs log (Int.bmod (((src + n : Nat) : Int) - (dest + n : Nat)) (addresses log)) ∧
      (2 ^ log) <<< 3 ≤ n ∧ (src + n) &&& (2 ^ log - 1) = (dest + n) &&& (2 ^ log - 1)
    · have head : (src + n) &&& (2 ^ log - 1) ≤ n := by
        have low := Nat.mod_lt (src + n) (Nat.two_pow_pos log)
        have long := lined.2.1
        rw [Nat.shiftLeft_eq] at long
        rw [Nat.and_two_pow_sub_one_eq_mod]
        omega
      have distant : src + 8 * 2 ^ log ≤ dest := by
        refine Nat.le_of_not_lt fun near => absurd lined.1 ?_
        have short := near_labs log (dest + n) (src + n) (by omega) (by omega)
        rw [Nat.shiftLeft_eq, Nat.mul_comm]
        exact Int.not_le.mpr short
      simp only [if_pos lined]
      exact backward_moved log _ _ _ dest src mem n (split_count log n _ True head) clear fun _ => distant
    · simp only [if_neg lined]
      exact backward_moved log 0 0 _ dest src mem n (split_count log n 0 False (Nat.zero_le n)) clear fun some_lines => absurd rfl some_lines

theorem memmove_moved (dest src n : Nat) (mem : Memory) (source : src + n ≤ addresses log) (room : dest + n ≤ addresses log) :
    memmove log dest src n mem = moved dest src n mem := by
  rw [memmove]
  split_ifs with empty forward
  · rw [empty, moved_none]
  · refine memcpy_moved log dest src n mem ?_
    rcases Nat.lt_or_eq_of_le source with inside | whole
    · rw [Nat.mod_eq_of_lt inside] at forward
      omega
    · omega
  · exact memcpybk_moved log dest src n mem (by omega)

-- Any overlap and any alignment: the bytes are those the source had at the beginning.
theorem memmove_copies (dest src n : Nat) (mem : Memory) (source : src + n ≤ addresses log) (room : dest + n ≤ addresses log) :
    Moves dest src n mem (memmove log dest src n mem) ∧ (src + n ≤ dest ∨ dest + n ≤ src → Moves dest src n mem (memcpy log dest src n mem)) := by
  refine ⟨fun a => ?_, fun apart a => ?_⟩
  · rw [memmove_moved log dest src n mem source room, moved]
  · rw [memcpy_moved log dest src n mem (by omega), moved]

theorem overlap_copied : Moves 96 16 128 (marked 40) (memmove 3 96 16 128 (marked 40)) ∧ Moves 259 19 100 (marked 40) (memcpy 3 259 19 100 (marked 40)) :=
  ⟨(memmove_copies 3 96 16 128 (marked 40) (by decide) (by decide)).1, (memmove_copies 3 259 19 100 (marked 40) (by decide) (by decide)).2 (by decide)⟩

end OsZero.Libc

namespace OsZero.Libc.Overlap

open Blocks Cstring

-- while (*src) *cptr++ = *src++ and *cptr = *src behind it, in steps turns of the loop.
def strcpyloop : Nat → Nat → Nat → Memory → Option Memory
  | 0, _, _, _ => none
  | steps + 1, cptr, src, mem => if mem src ≠ 0 then strcpyloop steps (cptr + 1) (src + 1) (copybyte cptr src mem) else some (copybyte cptr src mem)

def strcpy (steps dest src : Nat) (mem : Memory) : Option Memory := strcpyloop steps dest src mem

def strcat (steps dest src : Nat) (mem : Memory) : Option Memory := do
  let cptr ← advance (fun ptr => mem ptr ≠ 0) steps dest
  strcpyloop steps cptr src mem

-- The string of len bytes at ptr.
structure Text (mem : Memory) (ptr len : Nat) : Prop where
  plain : ∀ i < len, mem (ptr + i) ≠ 0
  nul : mem (ptr + len) = 0

-- The copy has its first byte on a byte of the source behind the first, or on its terminator.
def Onto (dest src len : Nat) : Prop := src < dest ∧ dest ≤ src + len

instance (dest src len : Nat) : Decidable (Onto dest src len) := inferInstanceAs (Decidable (_ ∧ _))

theorem copybyte_here (cptr src : Nat) (mem : Memory) : copybyte cptr src mem cptr = mem src := by
  rw [copybyte, moved, if_pos (by omega), Nat.sub_self, Nat.add_zero]

theorem copybyte_elsewhere (cptr src a : Nat) (mem : Memory) (different : a ≠ cptr) : copybyte cptr src mem a = mem a := by
  rw [copybyte, moved, if_neg (by omega)]

theorem text_empty (mem : Memory) (ptr : Nat) (text : Text mem ptr 0) : mem ptr = 0 := text.nul

theorem text_first (mem : Memory) (ptr len : Nat) (text : Text mem ptr (len + 1)) : mem ptr ≠ 0 := text.plain 0 (Nat.zero_lt_succ len)

theorem text_behind (mem : Memory) (ptr len : Nat) (text : Text mem ptr (len + 1)) : Text mem (ptr + 1) len := by
  constructor
  · intro i inside
    rw [Nat.add_assoc, Nat.add_comm 1 i]
    exact text.plain (i + 1) (Nat.succ_lt_succ inside)
  · rw [Nat.add_assoc, Nat.add_comm 1 len]
    exact text.nul

theorem text_kept (mem other : Memory) (ptr len : Nat) (text : Text mem ptr len) (kept : ∀ i, i ≤ len → other (ptr + i) = mem (ptr + i)) :
    Text other ptr len := by
  constructor
  · intro i inside
    rw [kept i (Nat.le_of_lt inside)]
    exact text.plain i inside
  · rw [kept len (Nat.le_refl len)]
    exact text.nul

-- As long as the terminator is not stored over before it is read, each byte read is one of the source's.
theorem strcpyloop_moved (steps dest src len : Nat) (mem : Memory) (text : Text mem src len) (off : ¬ Onto dest src len) :
    strcpyloop steps dest src mem = if len < steps then some (moved dest src (len + 1) mem) else none := by
  rw [Onto] at off
  induction steps generalizing dest src len mem with
  | zero => rw [strcpyloop, if_neg (Nat.not_lt_zero len)]
  | succ steps ih =>
      rw [strcpyloop]
      cases len with
      | zero =>
          rw [if_neg (not_not_intro (text_empty mem src text)), if_pos (Nat.zero_lt_succ steps)]
          rfl
      | succ len =>
          have rest : Text (copybyte dest src mem) (src + 1) len := by
            refine text_kept mem _ (src + 1) len (text_behind mem src len text) fun i inside => ?_
            exact copybyte_elsewhere dest src (src + 1 + i) mem (by omega)
          rw [if_pos (text_first mem src len text), ih (dest + 1) (src + 1) len _ rest (by omega),
            copybyte, moved_up dest src 1 (len + 1) mem (by omega), Nat.add_comm 1 (len + 1)]
          simp only [Nat.succ_lt_succ_iff]

-- The bytes between the pointers are not zero, and each turn stores one of them in front of cptr.
theorem strcpyloop_onto (steps cptr src : Nat) (mem : Memory) (less : src < cptr) (plain : ∀ a, src ≤ a → a < cptr → mem a ≠ 0) :
    strcpyloop steps cptr src mem = none := by
  induction steps generalizing cptr src mem with
  | zero => rfl
  | succ steps ih =>
      rw [strcpyloop, if_pos (plain src (Nat.le_refl src) less)]
      apply ih (cptr + 1) (src + 1) _ (Nat.succ_lt_succ less)
      intro a low high
      by_cases same : a = cptr
      · rw [same, copybyte_here]
        exact plain src (Nat.le_refl src) less
      · rw [copybyte_elsewhere _ _ _ _ same]
        exact plain a (by omega) (by omega)

theorem strcpyloop_endless (steps dest src len : Nat) (mem : Memory) (text : Text mem src len) (onto : Onto dest src len) :
    strcpyloop steps dest src mem = none := by
  apply strcpyloop_onto steps dest src mem onto.1
  intro a low high
  have byte := text.plain (a - src) (by have last := onto.2; omega)
  rwa [Nat.add_sub_cancel' low] at byte

theorem strcpyloop_iff (dest src len : Nat) (mem : Memory) (text : Text mem src len) :
    (∃ steps, (strcpyloop steps dest src mem).isSome) ↔ ¬ Onto dest src len := by
  constructor
  · rintro ⟨steps, ends⟩ onto
    rw [strcpyloop_endless steps dest src len mem text onto] at ends
    contradiction
  · intro off
    refine ⟨len + 1, ?_⟩
    rw [strcpyloop_moved _ dest src len mem text off, if_pos (Nat.lt_succ_self len)]
    rfl

theorem strcpyloop_some (steps dest src len : Nat) (mem after : Memory) (text : Text mem src len)
    (ends : strcpyloop steps dest src mem = some after) : ¬ Onto dest src len ∧ after = moved dest src (len + 1) mem := by
  by_cases onto : Onto dest src len
  · rw [strcpyloop_endless steps dest src len mem text onto] at ends
    contradiction
  · rw [strcpyloop_moved steps dest src len mem text onto] at ends
    split_ifs at ends
    exact ⟨onto, (Option.some.inj ends).symm⟩

theorem advance_text (steps ptr len : Nat) (mem : Memory) (text : Text mem ptr len) :
    advance (fun a => mem a ≠ 0) steps ptr = if len < steps then some (ptr + len) else none := by
  induction steps generalizing ptr len with
  | zero => rw [advance, if_neg (Nat.not_lt_zero len)]
  | succ steps ih =>
      rw [advance]
      cases len with
      | zero =>
          rw [if_neg (by simpa using text_empty mem ptr text), if_pos (Nat.zero_lt_succ steps)]
          rfl
      | succ len =>
          rw [if_pos (decide_eq_true (text_first mem ptr len text)), ih (ptr + 1) len (text_behind mem ptr len text), Nat.add_assoc, Nat.add_comm 1 len]
          simp only [Nat.succ_lt_succ_iff]

-- What a copy of the string of len bytes at src has to do where it ends.
def Copies (log dest src len : Nat) (mem : Memory) (copy : Nat → Option Memory) : Prop :=
  ((∃ steps, (copy steps).isSome) ↔ ¬ Onto dest src len) ∧ ∀ steps after, copy steps = some after → after = memmove log dest src (len + 1) mem

-- The two strings one behind the other.
def Joined (dest held src len : Nat) (mem after : Memory) : Prop :=
  Text after dest (held + len) ∧ (∀ i < held, after (dest + i) = mem (dest + i)) ∧ ∀ i < len, after (dest + held + i) = mem (src + i)

theorem joined_moved (dest held src len : Nat) (mem : Memory) (string : Text mem dest held) (text : Text mem src len) :
    Joined dest held src len mem (moved (dest + held) src (len + 1) mem) := by
  have before : ∀ i < held, moved (dest + held) src (len + 1) mem (dest + i) = mem (dest + i) := by
    intro i inside
    rw [moved, if_neg (by omega)]
  have behind : ∀ i ≤ len, moved (dest + held) src (len + 1) mem (dest + held + i) = mem (src + i) := by
    intro i inside
    rw [moved, if_pos (by omega), Nat.add_sub_cancel_left]
  refine ⟨⟨?_, ?_⟩, before, fun i inside => behind i (Nat.le_of_lt inside)⟩
  · intro i inside
    by_cases first : i < held
    · rw [before i first]
      exact string.plain i first
    · have second := behind (i - held) (by omega)
      rw [Nat.add_assoc, Nat.add_sub_cancel' (by omega)] at second
      rw [second]
      exact text.plain (i - held) (by omega)
  · rw [← Nat.add_assoc, behind len (Nat.le_refl len)]
    exact text.nul

theorem strcat_eq (steps dest src held : Nat) (mem : Memory) (string : Text mem dest held) :
    strcat steps dest src mem = if held < steps then strcpyloop steps (dest + held) src mem else none := by
  rw [strcat, advance_text steps dest held mem string]
  split_ifs <;> rfl

theorem strcpy_copies (log dest src len : Nat) (mem : Memory) (text : Text mem src len)
    (source : src + (len + 1) ≤ addresses log) (room : dest + (len + 1) ≤ addresses log) :
    Copies log dest src len mem fun steps => strcpy steps dest src mem := by
  refine ⟨strcpyloop_iff dest src len mem text, fun steps after ends => ?_⟩
  rw [memmove_moved log dest src (len + 1) mem source room]
  exact (strcpyloop_some steps dest src len mem after text ends).2

theorem strcat_copies (log dest src len held : Nat) (mem : Memory) (text : Text mem src len) (string : Text mem dest held)
    (source : src + (len + 1) ≤ addresses log) (room : dest + held + (len + 1) ≤ addresses log) :
    Copies log (dest + held) src len mem fun steps => strcat steps dest src mem := by
  refine ⟨⟨?_, fun off => ?_⟩, fun steps after ends => ?_⟩
  · rintro ⟨steps, ends⟩
    dsimp only at ends
    rw [strcat_eq steps dest src held mem string] at ends
    split_ifs at ends
    · exact (strcpyloop_iff (dest + held) src len mem text).mp ⟨steps, ends⟩
    · contradiction
  · refine ⟨held + len + 1, ?_⟩
    dsimp only
    rw [strcat_eq _ dest src held mem string, if_pos (by omega), strcpyloop_moved _ (dest + held) src len mem text off, if_pos (by omega)]
    rfl
  · dsimp only at ends
    rw [strcat_eq steps dest src held mem string] at ends
    split_ifs at ends
    rw [memmove_moved log (dest + held) src (len + 1) mem source room]
    exact (strcpyloop_some steps (dest + held) src len mem after text ends).2

-- Both run on and on where the copy would begin on the source, and else leave what memmove
-- leaves; strcat of a string to itself ends for the empty string only.
theorem copies_end_iff (log dest src len : Nat) (mem : Memory) (text : Text mem src len)
    (source : src + (len + 1) ≤ addresses log) (room : dest + (len + 1) ≤ addresses log) :
    (Copies log dest src len mem fun steps => strcpy steps dest src mem) ∧
    (∀ held, Text mem dest held → dest + held + (len + 1) ≤ addresses log →
      (Copies log (dest + held) src len mem fun steps => strcat steps dest src mem) ∧
      ∀ steps after, strcat steps dest src mem = some after → Joined dest held src len mem after) ∧
    ((∃ steps, (strcat steps src src mem).isSome) ↔ len = 0) := by
  refine ⟨strcpy_copies log dest src len mem text source room, fun held string space => ?_, ?_⟩
  · have copies := strcat_copies log dest src len held mem text string source space
    refine ⟨copies, fun steps after ends => ?_⟩
    rw [copies.2 steps after ends, memmove_moved log (dest + held) src (len + 1) mem source space]
    exact joined_moved dest held src len mem string text
  · constructor
    · rintro ⟨steps, ends⟩
      rw [strcat_eq steps src src len mem text] at ends
      split_ifs at ends
      · have off := (strcpyloop_iff (src + len) src len mem text).mp ⟨steps, ends⟩
        rw [Onto] at off
        omega
      · contradiction
    · rintro rfl
      refine ⟨1, ?_⟩
      rw [strcat_eq 1 src src 0 mem text, if_pos Nat.zero_lt_one, strcpyloop_moved 1 (src + 0) src 0 mem text (by rw [Onto]; omega), if_pos Nat.zero_lt_one]
      rfl

theorem copies_end_iff_marked : ((∃ steps, (strcat steps 40 40 (marked 40)).isSome) ↔ 1 = 0) ∧ (Copies 3 41 40 1 (marked 40) fun steps => strcpy steps 41 40 (marked 40)) := by
  have text : Text (marked 40) 40 1 := ⟨by decide, by decide⟩
  exact ⟨(copies_end_iff 3 41 40 1 (marked 40) text (by decide) (by decide)).2.2, (copies_end_iff 3 41 40 1 (marked 40) text (by decide) (by decide)).1⟩

end OsZero.Libc.Overlap

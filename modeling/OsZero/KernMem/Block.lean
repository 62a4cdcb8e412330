import Mathlib.Data.BitVec
import OsZero.Lib.Blocks

set_option autoImplicit false

namespace OsZero.Block

open Blocks

-- A long has 2 ^ log bytes, where log stands for LONGSIZELOG2.
variable (log : Nat)

def putlong (ptr : Nat) (val : Nat → UInt8) (mem : Memory) : Memory :=
  fun adr => if ptr ≤ adr ∧ adr < ptr + 2 ^ log then val (adr - ptr) else mem adr

-- ptr[0] = val to ptr[7] = val.
def putline (ptr : Nat) (val : Nat → UInt8) (mem : Memory) : Memory :=
  (List.range 8).foldl (fun mem i => putlong log (ptr + i * 2 ^ log) val mem) mem

-- while (nleft--) *ptr++ = val.
def putlongs (val : Nat → UInt8) : Nat → Nat → Memory → Nat × Memory
  | 0, ptr, mem => (ptr, mem)
  | nleft + 1, ptr, mem => putlongs val nleft (ptr + 2 ^ log) (putlong log ptr val mem)

def putlines (val : Nat → UInt8) : Nat → Nat → Memory → Nat × Memory
  | 0, ptr, mem => (ptr, mem)
  | len + 1, ptr, mem => putlines val len (ptr + 8 * 2 ^ log) (putline log ptr val mem)

-- kbzero and kmemset have one text but for val and for what ptr is at the beginning.
def setblock (ptr adr len : Nat) (val : Nat → UInt8) (mem : Memory) : Memory :=
  let line := 1 <<< (log + 3)
  let before := adr &&& (line - 1)
  let head := if line < len ∧ before ≠ 0 then (line - before) >>> log else 0
  let started := putlongs log val head ptr mem
  let rest := len - head
  let nleft := if line < len then rest - (rest &&& (line - 1)) else 0
  let lined := if line ≤ rest then putlines log val (rest >>> (log + 3)) started.1 started.2 else started
  let nleft := if line ≤ rest then rest &&& (line - 1) else nleft
  (putlongs log val nleft lined.1 lined.2).2

def kbzero (adr len : Nat) (mem : Memory) : Memory := setblock log adr adr len (fun _ => 0) mem

-- val |= val << 8 and so on, up to the width of a long; the bytes of the result.
def spread (val : BitVec (8 * 2 ^ log)) : Nat → UInt8 :=
  let val := val ||| (val <<< 8)
  let val := val ||| (val <<< 16)
  let val := if log = 3 then val ||| (val <<< 32) else val
  fun k => UInt8.ofNat (val >>> (8 * k)).toNat

-- kmemset never sets ptr: it holds whatever it holds.
def kmemset (ptr adr : Nat) (byte : Int) (len : Nat) (mem : Memory) : Memory :=
  setblock log ptr adr len (spread log (BitVec.ofInt _ byte)) mem

-- The pointer ptr of kbfill stays at the line that was filled last.
def filllines (val : Nat → UInt8) : Nat → Nat → Nat → Memory → Nat × Memory
  | 0, ptr, _, mem => (ptr, mem)
  | len + 1, _, next, mem => filllines val len next (next + 8 * 2 ^ log) (putline log next val mem)

def kbfill (adr : Nat) (byte : UInt8) (len : Nat) (mem : Memory) : Memory :=
  let val := spread log (BitVec.ofNat _ byte.toNat)
  let lines := len >>> (log + 3)
  let nleft := len - lines <<< (log + 3)
  let filled := filllines log val lines 0 adr mem
  (putlongs log val nleft filled.1 filled.2).2

def copylong (dptr sptr : Nat) (mem : Memory) : Memory := moved dptr sptr (2 ^ log) mem

-- dptr[0] = sptr[0] to dptr[7] = sptr[7].
def copyline (dptr sptr : Nat) (mem : Memory) : Memory := unrolled (2 ^ log) 8 dptr sptr mem

def copylongs : Nat → Nat → Nat → Memory → Memory
  | 0, _, _, mem => mem
  | nleft + 1, dptr, sptr, mem => copylongs nleft (dptr + 2 ^ log) (sptr + 2 ^ log) (copylong log dptr sptr mem)

def copylines : Nat → Nat × Nat → Nat × Nat → Memory → (Nat × Nat) × Memory
  | 0, ptrs, _, mem => (ptrs, mem)
  | len + 1, _, next, mem =>
      copylines len next (next.1 + 8 * 2 ^ log, next.2 + 8 * 2 ^ log) (copyline log next.1 next.2 mem)

def kmemcpy (dest src len : Nat) (mem : Memory) : Memory :=
  let lines := len >>> (log + 3)
  let nleft := len - lines <<< (log + 3)
  let copied := copylines log lines (0, 0) (dest, src) mem
  copylongs log nleft copied.1.1 copied.1.2 copied.2

section Filling

variable {log} {val : Nat → UInt8} {byte : UInt8} (same : ∀ k, k < 2 ^ log → val k = byte)

include same

theorem putlong_filled (ptr : Nat) (mem : Memory) : putlong log ptr val mem = filled ptr (2 ^ log) byte mem := by
  funext a
  rw [putlong, filled]
  by_cases inside : ptr ≤ a ∧ a < ptr + 2 ^ log
  · rw [if_pos inside, if_pos inside, same (a - ptr) (by omega)]
  · rw [if_neg inside, if_neg inside]

theorem putline_filled (ptr : Nat) (mem : Memory) : putline log ptr val mem = filled ptr (8 * 2 ^ log) byte mem := by
  have upto (n : Nat) : (List.range n).foldl (fun mem i => putlong log (ptr + i * 2 ^ log) val mem) mem = filled ptr (n * 2 ^ log) byte mem := by
    induction n with
    | zero => rw [Nat.zero_mul, filled_none]; rfl
    | succ n ih =>
        rw [List.range_succ, List.foldl_append, ih, List.foldl_cons, List.foldl_nil, putlong_filled same, filled_filled, Nat.succ_mul]
  exact upto 8

theorem putlongs_filled (count ptr : Nat) (mem : Memory) :
    putlongs log val count ptr mem = (ptr + count * 2 ^ log, filled ptr (count * 2 ^ log) byte mem) := by
  induction count generalizing ptr mem with
  | zero => rw [putlongs, Nat.zero_mul, filled_none, Nat.add_zero]
  | succ count ih =>
      rw [putlongs, ih, putlong_filled same, filled_filled, Nat.add_assoc, Nat.succ_mul, Nat.add_comm (2 ^ log)]

theorem putlines_filled (count ptr : Nat) (mem : Memory) :
    putlines log val count ptr mem = (ptr + count * (8 * 2 ^ log), filled ptr (count * (8 * 2 ^ log)) byte mem) := by
  induction count generalizing ptr mem with
  | zero => rw [putlines, Nat.zero_mul, filled_none, Nat.add_zero]
  | succ count ih =>
      rw [putlines, ih, putline_filled same, filled_filled, Nat.add_assoc, Nat.succ_mul count, Nat.add_comm (8 * 2 ^ log)]

theorem filllines_filled (count ptr next : Nat) (mem : Memory) : filllines log val count ptr next mem =
    (if count = 0 then ptr else next + (count - 1) * (8 * 2 ^ log), filled next (count * (8 * 2 ^ log)) byte mem) := by
  induction count generalizing ptr next mem with
  | zero => rw [filllines, Nat.zero_mul, filled_none, if_pos rfl]
  | succ count ih =>
      rw [filllines, ih, putline_filled same, filled_filled, Nat.succ_mul count, Nat.add_comm (8 * 2 ^ log), if_neg (Nat.succ_ne_zero count),
        Nat.add_sub_cancel]
      congr 1
      cases count with
      | zero => rw [if_pos rfl, Nat.zero_mul, Nat.add_zero]
      | succ count =>
          rw [if_neg (Nat.succ_ne_zero count), Nat.add_sub_cancel, Nat.succ_mul count]
          omega

-- How many longs the three loops of setblock store.
def setlongs (log adr len : Nat) : Nat :=
  let line := 1 <<< (log + 3)
  let before := adr &&& (line - 1)
  let head := if line < len ∧ before ≠ 0 then (line - before) >>> log else 0
  let rest := len - head
  if line ≤ rest then head + (rest >>> (log + 3)) * 8 + (rest &&& (line - 1)) else head

theorem setblock_filled (ptr adr len : Nat) (mem : Memory) :
    setblock log ptr adr len val mem = filled ptr (setlongs log adr len * 2 ^ log) byte mem := by
  simp only [setblock, setlongs, putlongs_filled same, putlines_filled same]
  generalize (if 1 <<< (log + 3) < len ∧ adr &&& (1 <<< (log + 3) - 1) ≠ 0 then
    (1 <<< (log + 3) - (adr &&& (1 <<< (log + 3) - 1))) >>> log else 0) = head
  by_cases lined : 1 <<< (log + 3) ≤ len - head
  · simp only [if_pos lined, filled_filled, Nat.add_mul, ← Nat.mul_assoc, Nat.add_assoc]
  · have rest : len - head - (len - head &&& (1 <<< (log + 3) - 1)) = 0 := by
      rw [Nat.one_shiftLeft] at lined ⊢
      rw [Nat.and_two_pow_sub_one_eq_mod, Nat.mod_eq_of_lt (Nat.lt_of_not_le lined), Nat.sub_self]
    simp only [if_neg lined, rest, ite_self, Nat.zero_mul, filled_none]

end Filling

-- A block of longs is just filled by lines, and by a single one wherever it is.
theorem setlongs_exact (log adr len : Nat) (size : log = 2 ∨ log = 3) (aligned : adr % 2 ^ log = 0) (whole : len % 2 ^ log = 0) :
    setlongs log adr len * 2 ^ log = len ↔
      len = 0 ∨ len % 2 ^ (log + 3) = 0 ∧ (adr % 2 ^ (log + 3) = 0 ∨ len = 2 ^ (log + 3)) := by
  simp only [setlongs, Nat.one_shiftLeft, Nat.and_two_pow_sub_one_eq_mod, Nat.shiftRight_eq_div_pow]
  rcases size with rfl | rfl
  all_goals
    simp only [Nat.reduceAdd, Nat.reducePow] at *
    split_ifs <;> omega

theorem kbzero_iff (log adr len : Nat) (size : log = 2 ∨ log = 3) (aligned : adr % 2 ^ log = 0) (whole : len % 2 ^ log = 0) :
    (∀ mem, Sets 0 adr len mem (kbzero log adr len mem)) ↔
      len = 0 ∨ len % 2 ^ (log + 3) = 0 ∧ (adr % 2 ^ (log + 3) = 0 ∨ len = 2 ^ (log + 3)) := by
  rw [← setlongs_exact log adr len size aligned whole, ← filled_sets_iff 0 adr len]
  refine forall_congr' fun mem => ?_
  rw [kbzero, setblock_filled fun _ _ => rfl]

theorem or_shift {w n : Nat} (val : BitVec w) (k : Nat) (value : val.toNat = n) (small : n < 2 ^ k) (room : n * 2 ^ k < 2 ^ w) :
    (val ||| val <<< k).toNat = n * (2 ^ k + 1) := by
  rw [BitVec.toNat_or, BitVec.toNat_shiftLeft, value, Nat.shiftLeft_eq, Nat.mod_eq_of_lt room, ← Nat.shiftLeft_eq, Nat.or_comm,
    ← Nat.shiftLeft_add_eq_or_of_lt small, Nat.shiftLeft_eq, Nat.mul_add, Nat.mul_one]

-- A byte times a number whose byte at a place is 1 has that byte there, where nothing is carried into it.
theorem ones_byte (n ones place : Nat) (small : n < 256) (one : ones / place % 256 = 1) (below : 255 * (ones % place) < place) :
    n * ones / place % 256 = n := by
  have parts : n * ones = n * (ones % place) + place * (n * (ones / place)) := by rw [Nat.mul_left_comm, ← Nat.mul_add, Nat.mod_add_div]
  have rest : n * (ones % place) < place := Nat.lt_of_le_of_lt (Nat.mul_le_mul_right _ (Nat.le_of_lt_succ small)) below
  rw [parts, Nat.add_mul_div_left _ _ (Nat.zero_lt_of_lt rest), Nat.div_eq_of_lt rest, Nat.zero_add, Nat.mul_mod, one, Nat.mul_one, Nat.mod_mod,
    Nat.mod_eq_of_lt small]

-- Every byte of the long that a byte is spread over is that byte.
theorem spread_byte (log : Nat) (size : log = 2 ∨ log = 3) (byte : UInt8) (k : Nat) (low : k < 2 ^ log) :
    spread log (BitVec.ofNat _ byte.toNat) k = byte := by
  have small := byte.toNat_lt
  rw [← UInt8.toNat_inj]
  rcases size with rfl | rfl
  · have two := or_shift (BitVec.ofNat 32 byte.toNat) 8 (Nat.mod_eq_of_lt (by omega)) small (by omega)
    have four := or_shift _ 16 two (by omega) (by omega)
    rw [Nat.mul_assoc] at four
    have places : ∀ k < 4, 0x01010101 / 2 ^ (8 * k) % 256 = 1 ∧ 255 * (0x01010101 % 2 ^ (8 * k)) < 2 ^ (8 * k) := by decide
    refine Eq.trans ?_ (ones_byte byte.toNat 0x01010101 (2 ^ (8 * k)) small (places k low).1 (places k low).2)
    rw [← Nat.shiftRight_eq_div_pow]
    exact congrArg (fun word => (word >>> (8 * k)) % 256) four
  · have two := or_shift (BitVec.ofNat 64 byte.toNat) 8 (Nat.mod_eq_of_lt (by omega)) small (by omega)
    have four := or_shift _ 16 two (by omega) (by omega)
    have eight := or_shift _ 32 four (by omega) (by omega)
    rw [Nat.mul_assoc, Nat.mul_assoc] at eight
    have places : ∀ k < 8, 0x0101010101010101 / 2 ^ (8 * k) % 256 = 1 ∧ 255 * (0x0101010101010101 % 2 ^ (8 * k)) < 2 ^ (8 * k) := by decide
    refine Eq.trans ?_ (ones_byte byte.toNat 0x0101010101010101 (2 ^ (8 * k)) small (places k low).1 (places k low).2)
    rw [← Nat.shiftRight_eq_div_pow]
    exact congrArg (fun word => (word >>> (8 * k)) % 256) eight

section Before

variable (val : Nat → UInt8) {ptr a : Nat} (mem : Memory) (before : a < ptr)
include before

theorem putlong_before : putlong log ptr val mem a = mem a := by
  rw [putlong, if_neg fun inside => absurd inside.1 (Nat.not_le.mpr before)]

theorem putline_before : putline log ptr val mem a = mem a := by
  have upto (n : Nat) : (List.range n).foldl (fun mem i => putlong log (ptr + i * 2 ^ log) val mem) mem a = mem a := by
    induction n with
    | zero => rfl
    | succ n ih => rw [List.range_succ, List.foldl_append, List.foldl_cons, List.foldl_nil, putlong_before log val _ (Nat.lt_add_right _ before), ih]
  exact upto 8

theorem putlongs_before (count : Nat) : a < (putlongs log val count ptr mem).1 ∧ (putlongs log val count ptr mem).2 a = mem a := by
  induction count generalizing ptr mem with
  | zero => exact ⟨before, rfl⟩
  | succ count ih =>
      rw [putlongs, ← putlong_before log val mem before]
      exact ih _ (Nat.lt_add_right _ before)

theorem putlines_before (count : Nat) : a < (putlines log val count ptr mem).1 ∧ (putlines log val count ptr mem).2 a = mem a := by
  induction count generalizing ptr mem with
  | zero => exact ⟨before, rfl⟩
  | succ count ih =>
      rw [putlines, ← putline_before log val mem before]
      exact ih _ (Nat.lt_add_right _ before)

theorem setblock_before (adr len : Nat) : setblock log ptr adr len val mem a = mem a := by
  simp only [setblock]
  generalize (if 1 <<< (log + 3) < len ∧ adr &&& (1 <<< (log + 3) - 1) ≠ 0 then
    (1 <<< (log + 3) - (adr &&& (1 <<< (log + 3) - 1))) >>> log else 0) = head
  obtain ⟨ahead, started⟩ := putlongs_before log val mem before head
  by_cases lined : 1 <<< (log + 3) ≤ len - head
  · simp only [if_pos lined]
    obtain ⟨further, kept⟩ := putlines_before log val (putlongs log val head ptr mem).2 ahead ((len - head) >>> (log + 3))
    rw [(putlongs_before log val _ further _).2, kept, started]
  · simp only [if_neg lined]
    rw [(putlongs_before log val _ ahead _).2, started]

end Before

theorem kmemset_iff (log adr len : Nat) (size : log = 2 ∨ log = 3) (byte : Int) :
    (∀ ptr mem, Sets (UInt8.ofInt byte) adr len mem (kmemset log ptr adr byte len mem)) ↔ len = 0 := by
  constructor
  · intro sets
    apply Nat.eq_zero_of_not_pos
    intro some_bytes
    have first := sets (adr + len) (fun _ => UInt8.ofInt byte + 1) adr
    rw [kmemset, setblock_before log _ _ (show adr < adr + len by omega), if_pos (by omega)] at first
    exact succ_ne _ first
  · rintro rfl ptr mem a
    have none_set : kmemset log ptr adr byte 0 mem = mem := by
      rcases size with rfl | rfl <;> simp [kmemset, setblock, putlongs]
    rw [none_set, if_neg (by omega)]

theorem filled_covers (byte : UInt8) (adr len ptr1 count1 ptr2 count2 : Nat)
    (sets : Sets byte adr len (fun _ => byte + 1) (filled ptr2 count2 byte (filled ptr1 count1 byte fun _ => byte + 1))) (a : Nat) :
    (ptr2 ≤ a ∧ a < ptr2 + count2 ∨ ptr1 ≤ a ∧ a < ptr1 + count1) ↔ adr ≤ a ∧ a < adr + len := by
  have cell := sets a
  simp only [filled] at cell
  have other := succ_ne byte
  split_ifs at cell <;> first | omega | exact absurd cell other | exact absurd cell.symm other

theorem kbfill_iff (log adr len : Nat) (size : log = 2 ∨ log = 3) (whole : len % 2 ^ log = 0) (byte : UInt8) :
    (∀ mem, Sets byte adr len mem (kbfill log adr byte len mem)) ↔ len % 2 ^ (log + 3) = 0 := by
  have stored (mem : Memory) : kbfill log adr byte len mem =
      filled (if len / 2 ^ (log + 3) = 0 then 0 else adr + (len / 2 ^ (log + 3) - 1) * (8 * 2 ^ log)) (len % 2 ^ (log + 3) * 2 ^ log) byte
        (filled adr (len / 2 ^ (log + 3) * (8 * 2 ^ log)) byte mem) := by
    have left : len - (len / 2 ^ (log + 3)) * 2 ^ (log + 3) = len % 2 ^ (log + 3) := (Nat.mod_eq_sub_div_mul).symm
    simp only [kbfill, filllines_filled (spread_byte log size byte), putlongs_filled (spread_byte log size byte), Nat.shiftRight_eq_div_pow,
      Nat.shiftLeft_eq, left]
  constructor
  · intro sets
    have covers := sets fun _ => byte + 1
    rw [stored] at covers
    have first := filled_covers _ _ _ _ _ _ _ covers 0
    have last := filled_covers _ _ _ _ _ _ _ covers (adr + len - 1)
    have behind := filled_covers _ _ _ _ _ _ _ covers (adr + len)
    rcases size with rfl | rfl
    all_goals
      simp only [Nat.reduceAdd, Nat.reducePow, Nat.reduceMul] at *
      split_ifs at first last behind <;> omega
  · intro lines
    have all : len / 2 ^ (log + 3) * (8 * 2 ^ log) = len := by
      rcases size with rfl | rfl
      all_goals
        simp only [Nat.reduceAdd, Nat.reducePow, Nat.reduceMul] at *
        omega
    intro mem
    rw [stored, lines, Nat.zero_mul, filled_none, all]
    exact fun a => rfl

section Moving

variable {log dest src len : Nat}

theorem copylongs_self (count ptr : Nat) (mem : Memory) : copylongs log count ptr ptr mem = mem := by
  induction count generalizing ptr with
  | zero => rfl
  | succ count ih => rw [copylongs, copylong, moved_self, ih]

variable (apart : src + len ≤ dest ∨ dest + len ≤ src)
include apart

theorem copylongs_moved (count from_ done : Nat) (mem : Memory) (begun : from_ ≤ done) (inside : from_ + count * 2 ^ log ≤ len) (within : done ≤ len) :
    copylongs log count (dest + from_) (src + from_) (moved dest src done mem) = moved dest src (max done (from_ + count * 2 ^ log)) mem := by
  induction count generalizing from_ done with
  | zero => rw [copylongs, Nat.zero_mul, Nat.add_zero, Nat.max_eq_left begun]
  | succ count ih =>
      rw [Nat.succ_mul] at inside ⊢
      rw [copylongs, copylong, moved_from dest src from_ done _ mem begun (by omega), Nat.add_assoc, Nat.add_assoc,
        ih (from_ + 2 ^ log) _ (Nat.le_max_right _ _) (by omega) (by omega)]
      congr 1
      omega

theorem copyline_moved (done : Nat) (mem : Memory) (inside : done + 8 * 2 ^ log ≤ len) :
    copyline log (dest + done) (src + done) (moved dest src done mem) = moved dest src (done + 8 * 2 ^ log) mem := by
  rw [copyline, unrolled_moved (2 ^ log) 8 (dest + done) (src + done) _ (by omega), moved_up dest src done _ mem (by omega)]

theorem copylines_moved (count done : Nat) (ptrs : Nat × Nat) (mem : Memory) (inside : done + count * (8 * 2 ^ log) ≤ len) :
    copylines log count ptrs (dest + done, src + done) (moved dest src done mem) =
      (if count = 0 then ptrs else (dest + (done + (count - 1) * (8 * 2 ^ log)), src + (done + (count - 1) * (8 * 2 ^ log))),
        moved dest src (done + count * (8 * 2 ^ log)) mem) := by
  induction count generalizing done ptrs with
  | zero => rw [copylines, if_pos rfl, Nat.zero_mul, Nat.add_zero]
  | succ count ih =>
      rw [Nat.succ_mul count] at inside
      rw [copylines]
      dsimp only
      rw [copyline_moved apart done mem (by omega), Nat.add_assoc, Nat.add_assoc, ih (done + 8 * 2 ^ log) _ (by omega), if_neg (Nat.succ_ne_zero count),
        Nat.add_sub_cancel, Nat.succ_mul count]
      congr 1
      · cases count with
        | zero => rw [if_pos rfl, Nat.zero_mul, Nat.add_zero]
        | succ count =>
            rw [if_neg (Nat.succ_ne_zero count), Nat.add_sub_cancel, Nat.succ_mul count, Nat.add_assoc, Nat.add_comm (8 * 2 ^ log)]
      · congr 1
        omega

end Moving

theorem copylongs_elsewhere (log count dptr sptr a : Nat) (mem : Memory) (before : a < dptr) : copylongs log count dptr sptr mem a = mem a := by
  induction count generalizing dptr sptr mem with
  | zero => rfl
  | succ count ih =>
      rw [copylongs, ih _ _ _ (Nat.lt_add_right _ before), copylong, moved, if_neg fun inside => absurd inside.1 (Nat.not_le.mpr before)]

theorem copylongs_add (log first second dptr sptr : Nat) (mem : Memory) : copylongs log (first + second) dptr sptr mem =
    copylongs log second (dptr + first * 2 ^ log) (sptr + first * 2 ^ log) (copylongs log first dptr sptr mem) := by
  induction first generalizing dptr sptr mem with
  | zero => rw [Nat.zero_add, Nat.zero_mul]; rfl
  | succ first ih =>
      rw [Nat.add_right_comm, copylongs, ih, copylongs, Nat.add_assoc, Nat.add_assoc, Nat.succ_mul, Nat.add_comm (2 ^ log)]

theorem marked_moves {dest src len adr : Nat} {after : Memory} (moves : Moves dest src len (marked adr) after) (at_ : Nat) (kept : after at_ = marked adr at_)
    (inside : dest ≤ at_ ∧ at_ < dest + len) (source : src + (at_ - dest) = adr) (other : at_ ≠ adr) : False := by
  have cell := moves at_
  rw [if_pos inside, kept, source, marked, if_neg other, marked, if_pos rfl] at cell
  exact absurd cell (by decide)

-- The tail starts with the last line again and counts bytes where it moves longs.
theorem kmemcpy_eq (log dest src len : Nat) (apart : src + len ≤ dest ∨ dest + len ≤ src) (mem : Memory) :
    kmemcpy log dest src len mem =
      if len / 2 ^ (log + 3) = 0 then mem
      else copylongs log (len % 2 ^ (log + 3)) (dest + (len / 2 ^ (log + 3) - 1) * (8 * 2 ^ log)) (src + (len / 2 ^ (log + 3) - 1) * (8 * 2 ^ log))
        (moved dest src (len / 2 ^ (log + 3) * (8 * 2 ^ log)) mem) := by
  have left : len - (len / 2 ^ (log + 3)) * 2 ^ (log + 3) = len % 2 ^ (log + 3) := (Nat.mod_eq_sub_div_mul).symm
  have eight : 8 * 2 ^ log = 2 ^ (log + 3) := by rw [Nat.pow_add, Nat.mul_comm]
  have lines := @copylines_moved log dest src len apart (len / 2 ^ (log + 3)) 0 (0, 0) mem
    (by rw [Nat.zero_add, eight]; exact Nat.div_mul_le_self _ _)
  simp only [moved_none, Nat.add_zero, Nat.zero_add] at lines
  simp only [kmemcpy, Nat.shiftRight_eq_div_pow, Nat.shiftLeft_eq, left, lines]
  split_ifs with none_lined
  · rw [none_lined, Nat.zero_mul, moved_none, copylongs_self]
  · rfl

section Tail

variable {log dest src len : Nat} (apart : src + len ≤ dest ∨ dest + len ≤ src) (from_ done : Nat) (mem : Memory) (begun : from_ ≤ done) (within : done ≤ len)
include apart begun within

theorem tail_short (count : Nat) (unfinished : done < len) (inside : from_ + count * 2 ^ log < len) :
    copylongs log count (dest + from_) (src + from_) (moved dest src done mem) (dest + (len - 1)) = mem (dest + (len - 1)) := by
  rw [copylongs_moved apart count from_ done mem begun (Nat.le_of_lt inside) within, moved, if_neg (by omega)]

theorem tail_long (enough more : Nat) (reached : from_ + enough * 2 ^ log = len) (bytes : 0 < len) (longer : 0 < more) :
    copylongs log (enough + more) (dest + from_) (src + from_) (moved dest src done mem) (dest + len) = if src + len = dest then mem src else mem (src + len) := by
  obtain ⟨more, rfl⟩ := Nat.exists_eq_succ_of_ne_zero (Nat.pos_iff_ne_zero.mp longer)
  have positive : 0 < 2 ^ log := Nat.two_pow_pos log
  rw [copylongs_add, copylongs_moved apart enough from_ done mem begun (Nat.le_of_eq reached) within, reached, Nat.max_eq_right within, copylongs,
    Nat.add_assoc dest, reached, Nat.add_assoc src, reached, copylongs_elsewhere _ _ _ _ _ _ (Nat.lt_add_of_pos_right positive), copylong, moved,
    if_pos ⟨Nat.le_refl _, Nat.lt_add_of_pos_right positive⟩, Nat.sub_self, Nat.add_zero, moved]
  split_ifs with here there there
  · rw [there, Nat.sub_self, Nat.add_zero]
  · omega
  · omega
  · rfl

end Tail

theorem kmemcpy_iff (log dest src len : Nat) (size : log = 2 ∨ log = 3) (whole : len % 2 ^ log = 0)
    (apart : src + len ≤ dest ∨ dest + len ≤ src) :
    (∀ mem, Moves dest src len mem (kmemcpy log dest src len mem)) ↔ len % 2 ^ (log + 3) = 0 := by
  have eight : 8 * 2 ^ log = 2 ^ (log + 3) := by rw [Nat.pow_add, Nat.mul_comm]
  have parts := Nat.div_add_mod' len (2 ^ (log + 3))
  by_cases lined : len / 2 ^ (log + 3) = 0
  · constructor
    · intro moves
      by_contra rest
      have kept := moves (marked src)
      rw [kmemcpy_eq log dest src len apart, if_pos lined] at kept
      have bytes : 0 < len := Nat.pos_of_ne_zero fun none_left => rest (by rw [none_left, Nat.zero_mod])
      exact marked_moves kept dest rfl (by omega) (by omega) (by omega)
    · intro lines mem a
      rw [lined, lines, Nat.zero_mul] at parts
      rw [kmemcpy_eq log dest src len apart, if_pos lined, if_neg (by omega)]
  · have copied (mem : Memory) := kmemcpy_eq log dest src len apart mem
    simp only [if_neg lined] at copied
    constructor
    · intro moves
      by_contra rest
      have bytes : 0 < len := Nat.pos_of_ne_zero fun none_left => rest (by rw [none_left, Nat.zero_mod])
      have behind := @tail_short log dest src len apart ((len / 2 ^ (log + 3) - 1) * (8 * 2 ^ log)) (len / 2 ^ (log + 3) * (8 * 2 ^ log)) (marked (src + (len - 1)))
        (Nat.mul_le_mul_right _ (Nat.sub_le _ _)) (by rw [eight]; omega) (len % 2 ^ (log + 3)) (by rw [eight]; omega)
      have beyond (mem : Memory) := @tail_long log dest src len apart ((len / 2 ^ (log + 3) - 1) * (8 * 2 ^ log)) (len / 2 ^ (log + 3) * (8 * 2 ^ log)) mem
        (Nat.mul_le_mul_right _ (Nat.sub_le _ _)) (by rw [eight]; omega)
        (8 + len % 2 ^ (log + 3) / 2 ^ log) (len % 2 ^ (log + 3) - (8 + len % 2 ^ (log + 3) / 2 ^ log))
      by_cases ends : (len / 2 ^ (log + 3) - 1) * (8 * 2 ^ log) + len % 2 ^ (log + 3) * 2 ^ log < len
      · have kept := behind ends
        rw [← copied] at kept
        exact marked_moves (moves _) _ kept (by omega) (by omega) (by omega)
      · have counted : 8 + len % 2 ^ (log + 3) / 2 ^ log < len % 2 ^ (log + 3) ∧
            (len / 2 ^ (log + 3) - 1) * (8 * 2 ^ log) + (8 + len % 2 ^ (log + 3) / 2 ^ log) * 2 ^ log = len := by
          rcases size with rfl | rfl
          all_goals
            simp only [Nat.reduceAdd, Nat.reducePow, Nat.reduceMul] at *
            omega
        have stored (mem : Memory) := beyond mem counted.2 bytes (Nat.sub_pos_of_lt counted.1)
        simp only [Nat.add_sub_cancel' (Nat.le_of_lt counted.1), ← copied] at stored
        have kept (mem : Memory) := moves mem (dest + len)
        simp only [stored, if_neg (show ¬ (dest ≤ dest + len ∧ dest + len < dest + len) by omega)] at kept
        have differ := kept (marked (dest + len))
        simp only [marked] at differ
        split_ifs at differ <;> first | omega | exact absurd differ (by decide)
    · intro lines mem a
      rw [lines, Nat.add_zero] at parts
      rw [copied, lines, copylongs, eight, parts, moved]

-- A block operation does as it should on whole lines only: elsewhere the count of bytes that is left moves longs, or nothing at all is stored.
theorem block_operations_iff (log : Nat) (size : log = 2 ∨ log = 3) :
    (∀ adr len, adr % 2 ^ log = 0 → len % 2 ^ log = 0 →
      ((∀ mem, Sets 0 adr len mem (kbzero log adr len mem)) ↔
        len = 0 ∨ len % 2 ^ (log + 3) = 0 ∧ (adr % 2 ^ (log + 3) = 0 ∨ len = 2 ^ (log + 3))) ∧
      (∀ byte : Int, (∀ ptr mem, Sets (UInt8.ofInt byte) adr len mem (kmemset log ptr adr byte len mem)) ↔ len = 0) ∧
      ∀ byte : UInt8, (∀ mem, Sets byte adr len mem (kbfill log adr byte len mem)) ↔ len % 2 ^ (log + 3) = 0) ∧
    ∀ dest src len, dest % 2 ^ log = 0 → src % 2 ^ log = 0 → len % 2 ^ log = 0 → src + len ≤ dest ∨ dest + len ≤ src →
      ((∀ mem, Moves dest src len mem (kmemcpy log dest src len mem)) ↔ len % 2 ^ (log + 3) = 0) := by
  refine ⟨fun adr len aligned whole => ⟨kbzero_iff log adr len size aligned whole, fun byte => kmemset_iff log adr len size byte,
    fun byte => kbfill_iff log adr len size whole byte⟩, fun dest src len _ _ whole apart => kmemcpy_iff log dest src len size whole apart⟩

theorem page_operations :
    (∀ mem, Sets 0 8192 4096 mem (kbzero 3 8192 4096 mem)) ∧ (∀ mem, Sets 7 8192 4096 mem (kbfill 3 8192 7 4096 mem)) ∧
      ∀ mem, Moves 8192 16384 4096 mem (kmemcpy 3 8192 16384 4096 mem) := by
  obtain ⟨sets, moves⟩ := block_operations_iff 3 (Or.inr rfl)
  obtain ⟨zeroed, -, filled⟩ := sets 8192 4096 (by decide) (by decide)
  exact ⟨zeroed.mpr (by decide), (filled 7).mpr (by decide),
    (moves 8192 16384 4096 (by decide) (by decide) (by decide) (by decide)).mpr (by decide)⟩

theorem single_long_left :
    ¬ Sets 0 64 8 (fun _ => 1) (kbzero 3 64 8 fun _ => 1) ∧ ¬ Sets 0 64 64 (fun _ => 1) (kmemset 3 256 64 0 64 fun _ => 1) ∧
      ¬ Sets 0 64 8 (fun _ => 1) (kbfill 3 64 0 8 fun _ => 1) ∧ ¬ Moves 64 128 8 (marked 128) (kmemcpy 3 64 128 8 (marked 128)) := by
  refine ⟨fun sets => absurd (sets 64) (by decide), fun sets => absurd (sets 64) (by decide), fun sets => absurd (sets 64) (by decide),
    fun moves => absurd (moves 64) (by decide)⟩

end OsZero.Block

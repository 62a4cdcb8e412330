import Mathlib.Algebra.Group.Nat.Defs
import Mathlib.Tactic.SplitIfs

set_option autoImplicit false

namespace Blocks

-- Memory by bytes.
abbrev Memory := Nat → UInt8

-- The memory with count bytes from adr on set to byte.
def filled (adr count : Nat) (byte : UInt8) (mem : Memory) : Memory := fun a => if adr ≤ a ∧ a < adr + count then byte else mem a

-- The memory with count bytes from dest on set to those from src on, all at once.
def moved (dest src count : Nat) (mem : Memory) : Memory := fun a => if dest ≤ a ∧ a < dest + count then mem (src + (a - dest)) else mem a

-- What setting a block has to leave.
def Sets (byte : UInt8) (adr len : Nat) (mem after : Memory) : Prop :=
  ∀ a, after a = if adr ≤ a ∧ a < adr + len then byte else mem a

-- What copying a block has to leave.
def Moves (dest src len : Nat) (mem after : Memory) : Prop :=
  ∀ a, after a = if dest ≤ a ∧ a < dest + len then mem (src + (a - dest)) else mem a

-- A memory where one byte only is not zero.
def marked (adr : Nat) : Memory := fun a => if a = adr then 1 else 0

theorem filled_filled (adr first second : Nat) (byte : UInt8) (mem : Memory) :
    filled (adr + first) second byte (filled adr first byte mem) = filled adr (first + second) byte mem := by
  funext a
  simp only [filled]
  split_ifs <;> first | rfl | omega

theorem filled_none (adr : Nat) (byte : UInt8) (mem : Memory) : filled adr 0 byte mem = mem := by
  funext a
  rw [filled, if_neg (by omega)]

theorem succ_ne (byte : UInt8) : byte + 1 ≠ byte := fun same => absurd (UInt8.add_eq_left.mp same) (by decide)

theorem filled_sets_iff (byte : UInt8) (adr len count : Nat) :
    (∀ mem, Sets byte adr len mem (filled adr count byte mem)) ↔ count = len := by
  constructor
  · intro sets
    rcases Nat.lt_trichotomy count len with short | same | long
    · have last := sets (fun _ => byte + 1) (adr + count)
      rw [filled, if_neg (by omega), if_pos (by omega)] at last
      exact absurd last (succ_ne byte)
    · exact same
    · have behind := sets (fun _ => byte + 1) (adr + len)
      rw [filled, if_pos (by omega), if_neg (by omega)] at behind
      exact absurd behind.symm (succ_ne byte)
  · rintro rfl mem a
    rfl

theorem moved_none (dest src : Nat) (mem : Memory) : moved dest src 0 mem = mem := by
  funext a
  rw [moved, if_neg (by omega)]

theorem moved_self (ptr count : Nat) (mem : Memory) : moved ptr ptr count mem = mem := by
  funext a
  rw [moved]
  split_ifs with inside
  · rw [Nat.add_sub_cancel' inside.1]
  · rfl

-- A piece is copied as it was at the beginning where nothing was stored in its source; it may start in what was copied before.
theorem moved_from (dest src start done count : Nat) (mem : Memory) (begun : start ≤ done)
    (clear : src + (start + count) ≤ dest ∨ dest + done ≤ src + start) :
    moved (dest + start) (src + start) count (moved dest src done mem) = moved dest src (max done (start + count)) mem := by
  funext a
  simp only [moved]
  by_cases here : dest + start ≤ a ∧ a < dest + start + count
  · rw [if_pos here, if_neg (by omega), if_pos (by omega)]
    congr 1
    omega
  · rw [if_neg here]
    by_cases before : dest ≤ a ∧ a < dest + done
    · rw [if_pos before, if_pos (by omega)]
    · rw [if_neg before, if_neg (by omega)]

theorem moved_up (dest src done count : Nat) (mem : Memory) (clear : dest ≤ src ∨ src + (done + count) ≤ dest) :
    moved (dest + done) (src + done) count (moved dest src done mem) = moved dest src (done + count) mem := by
  rw [moved_from dest src done done count mem (Nat.le_refl done) (by omega), Nat.max_eq_right (Nat.le_add_right done count)]

theorem moved_down (dest src count done : Nat) (mem : Memory) (clear : src ≤ dest) :
    moved dest src count (moved (dest + count) (src + count) done mem) = moved dest src (count + done) mem := by
  funext a
  simp only [moved]
  by_cases here : dest ≤ a ∧ a < dest + count
  · rw [if_pos here, if_neg (by omega), if_pos (by omega)]
  · rw [if_neg here]
    by_cases above : dest + count ≤ a ∧ a < dest + count + done
    · rw [if_pos above, if_pos (by omega)]
      congr 1
      omega
    · rw [if_neg above, if_neg (by omega)]

-- while (cnt--) with a copy of step bytes and both pointers moved on behind it.
def copyup (step : Nat) (copy : Nat → Nat → Memory → Memory) : Nat → Nat × Nat → Memory → (Nat × Nat) × Memory
  | 0, ptrs, mem => (ptrs, mem)
  | cnt + 1, ptrs, mem => copyup step copy cnt (ptrs.1 + step, ptrs.2 + step) (copy ptrs.1 ptrs.2 mem)

-- while (cnt--) with both pointers moved back and a copy of step bytes from there.
def copydown (step : Nat) (copy : Nat → Nat → Memory → Memory) : Nat → Nat × Nat → Memory → (Nat × Nat) × Memory
  | 0, ptrs, mem => (ptrs, mem)
  | cnt + 1, ptrs, mem => copydown step copy cnt (ptrs.1 - step, ptrs.2 - step) (copy (ptrs.1 - step) (ptrs.2 - step) mem)

section Loops

variable {step : Nat} {copy : Nat → Nat → Memory → Memory}

theorem copyup_moved (copies : ∀ dest src mem, dest ≤ src ∨ src + step ≤ dest → copy dest src mem = moved dest src step mem)
    (cnt dest src : Nat) (mem : Memory) (clear : dest ≤ src ∨ src + cnt * step ≤ dest) :
    copyup step copy cnt (dest, src) mem = ((dest + cnt * step, src + cnt * step), moved dest src (cnt * step) mem) := by
  induction cnt generalizing dest src mem with
  | zero => rw [copyup, Nat.zero_mul, moved_none, Nat.add_zero, Nat.add_zero]
  | succ cnt ih =>
    rw [Nat.succ_mul, Nat.add_comm _ step] at clear ⊢
    rw [copyup, copies dest src mem (by omega), ih (dest + step) (src + step) _ (by omega), moved_up dest src step _ mem clear, Nat.add_assoc, Nat.add_assoc]

theorem copydown_moved (dest src : Nat) (copies : ∀ i mem, copy (dest + i) (src + i) mem = moved (dest + i) (src + i) step mem)
    (cnt : Nat) (mem : Memory) (clear : src ≤ dest) :
    copydown step copy cnt (dest + cnt * step, src + cnt * step) mem = ((dest, src), moved dest src (cnt * step) mem) := by
  induction cnt generalizing mem with
  | zero => rw [copydown, Nat.zero_mul, moved_none, Nat.add_zero, Nat.add_zero]
  | succ cnt ih =>
    rw [Nat.succ_mul, copydown]
    dsimp only
    rw [← Nat.add_assoc, ← Nat.add_assoc, Nat.add_sub_cancel, Nat.add_sub_cancel, copies, ih, moved_down dest src _ step mem clear]

end Loops

-- Copies of size bytes one behind the other, each stored before the next is read.
def unrolled (size count dest src : Nat) (mem : Memory) : Memory :=
  (List.range count).foldl (fun mem i => moved (dest + i * size) (src + i * size) size mem) mem

theorem unrolled_moved (size count dest src : Nat) (mem : Memory) (clear : dest ≤ src ∨ src + count * size ≤ dest) :
    unrolled size count dest src mem = moved dest src (count * size) mem := by
  induction count with
  | zero => rw [Nat.zero_mul, moved_none]; rfl
  | succ count ih =>
    rw [Nat.succ_mul] at clear ⊢
    rw [unrolled, List.range_succ, List.foldl_append, List.foldl_cons, List.foldl_nil]
    change moved _ _ _ (unrolled size count dest src mem) = _
    rw [ih (by omega), moved_up dest src _ size mem clear]

end Blocks

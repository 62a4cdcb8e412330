import OsZero.KernMem.Block

set_option autoImplicit false

namespace OsZero.Libc

open Blocks Block

-- while (cnt--) *u8ptr++ = u8.
def putbytes (u8 : UInt8) : Nat → Nat → Memory → Nat × Memory
  | 0, u8ptr, mem => (u8ptr, mem)
  | cnt + 1, u8ptr, mem => putbytes u8 cnt (u8ptr + 1) fun adr => if adr = u8ptr then u8 else mem adr

-- The bytes up to the first long and the rounds of eight longs; what is left, and the pointer behind them.
def memsetlongs (log u8ptr : Nat) (u8 : UInt8) (nleft : Nat) (mem : Memory) : Nat × (Nat × Memory) :=
  let val := 2 ^ log
  let cnt := u8ptr &&& (val - 1)
  let cnt := if cnt ≠ 0 then val - cnt else 0
  let nleft := nleft - cnt
  let started := putbytes u8 cnt u8ptr mem
  let ul := spread log (BitVec.ofNat _ u8.toNat)
  let cnt := nleft >>> (log + 3)
  (nleft - cnt <<< (log + 3), putlines log ul cnt started.1 started.2)

def memset (log ptr : Nat) (ch : Int) (n : Nat) (mem : Memory) : Nat × Memory :=
  if n = 0 then (ptr, mem)
  else
    let u8 := UInt8.ofInt ch
    let body := if 2 ^ log <<< 3 < n then memsetlongs log ptr u8 n mem else (n, (ptr, mem))
    (ptr, (putbytes u8 body.1 body.2.1 body.2.2).2)

theorem putbytes_filled (u8 : UInt8) (cnt u8ptr : Nat) (mem : Memory) :
    putbytes u8 cnt u8ptr mem = (u8ptr + cnt, filled u8ptr cnt u8 mem) := by
  induction cnt generalizing u8ptr mem with
  | zero => rw [putbytes, filled_none, Nat.add_zero]
  | succ cnt ih =>
      have first : (fun adr => if adr = u8ptr then u8 else mem adr) = filled u8ptr 1 u8 mem := by
        funext adr
        rw [filled]
        split_ifs <;> first | rfl | omega
      rw [putbytes, first, ih, filled_filled, Nat.add_assoc, Nat.add_comm 1]

-- The bytes before the first long, eight longs a round and the rest are the whole length.
theorem memset_pieces (log cnt n : Nat) (size : log = 2 ∨ log = 3) (long : 2 ^ log <<< 3 < n) (small : cnt ≤ 2 ^ log) :
    cnt + ((n - cnt) >>> (log + 3) * (8 * 2 ^ log) + (n - cnt - (n - cnt) >>> (log + 3) <<< (log + 3))) = n := by
  rw [Nat.shiftLeft_eq] at *
  rw [Nat.shiftRight_eq_div_pow]
  rcases size with rfl | rfl
  all_goals
    simp only [Nat.reduceAdd, Nat.reducePow, Nat.reduceMul] at *
    omega

theorem memset_filled (log ptr : Nat) (ch : Int) (n : Nat) (mem : Memory) (size : log = 2 ∨ log = 3) :
    memset log ptr ch n mem = (ptr, filled ptr n (UInt8.ofInt ch) mem) := by
  rw [memset]
  by_cases none_set : n = 0
  · rw [if_pos none_set, none_set, filled_none]
  · rw [if_neg none_set]
    by_cases long : 2 ^ log <<< 3 < n
    · simp only [if_pos long, memsetlongs, putbytes_filled, putlines_filled (spread_byte log size (UInt8.ofInt ch)), filled_filled]
      have small : (if ptr &&& (2 ^ log - 1) ≠ 0 then 2 ^ log - (ptr &&& (2 ^ log - 1)) else 0) ≤ 2 ^ log := by
        split_ifs
        · exact Nat.sub_le _ _
        · exact Nat.zero_le _
      generalize (if ptr &&& (2 ^ log - 1) ≠ 0 then 2 ^ log - (ptr &&& (2 ^ log - 1)) else 0) = cnt at small ⊢
      rw [Nat.add_assoc ptr, filled_filled, Nat.add_assoc, memset_pieces log cnt n size long small]
    · simp only [if_neg long, putbytes_filled]

theorem memset_sets (log : Nat) (size : log = 2 ∨ log = 3) (ptr : Nat) (ch : Int) (n : Nat) (mem : Memory) :
    (memset log ptr ch n mem).1 = ptr ∧ Sets (UInt8.ofInt ch) ptr n mem (memset log ptr ch n mem).2 := by
  rw [memset_filled log ptr ch n mem size]
  exact ⟨rfl, fun adr => rfl⟩

theorem memset_sets_negative : Sets 255 1003 70 (fun _ => 0) (memset 3 1003 (-1) 70 fun _ => 0).2 := by
  exact (memset_sets 3 (.inr rfl) 1003 (-1) 70 fun _ => 0).2

end OsZero.Libc

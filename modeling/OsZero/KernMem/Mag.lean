import Mathlib.Data.Nat.Log
import Mathlib.Logic.Function.Basic

set_option autoImplicit false

namespace OsZero.KernMem

def ptrbits : Nat := 32
def pagesizelog2 : Nat := 12
def memminshift : Nat := 8
def memslabshift : Nat := 16
def memminsize : Nat := 256
def memslabsize : Nat := 65536

-- The size of a header on the 32-bit machine: six words and the 256 pointers.
def memmagsize : Nat := 1048

def membktmask : BitVec 32 := 0x7f
def memfree : BitVec 32 := 1

-- Headers are named by their index in the pool's table.
structure Memmag where
  base : Nat
  info : BitVec 32
  prev : Option Nat
  next : Option Nat
  ndx : Nat
  n : Nat
  ptab : Nat → Nat

structure Membkt where
  lk : Bool
  list : Option Nat

structure Mempool where
  tab : Nat → Membkt
  lk : Bool
  base : Nat
  nblk : Nat
  hdrtab : Nat → Memmag

def Mempool.setMag (pool : Mempool) (mag : Nat) (value : Memmag) : Mempool :=
  { pool with hdrtab := Function.update pool.hdrtab mag value }

def Mempool.setList (pool : Mempool) (bktid : Nat) (list : Option Nat) : Mempool :=
  { pool with tab := Function.update pool.tab bktid { pool.tab bktid with list := list } }

def memgetblknum (ptr : Nat) (pool : Mempool) : Nat := ((ptr + (4294967296 - pool.base)) % 4294967296) >>> memslabshift

def memgetmag (ptr : Nat) (pool : Mempool) : Nat := memgetblknum ptr pool

-- memgethdrnum is the distance of two header addresses in bytes.
def memgethdrnum (mag : Nat) : Nat := memmagsize * mag

def memgetadr (mag : Nat) (pool : Mempool) : Nat := (pool.base + (memgethdrnum mag <<< memminshift)) % 4294967296

def memmaggetbkt (mag : Memmag) : Nat := (mag.info &&& membktmask).toNat

def memmagsetbkt (mag : Memmag) (bktid : Nat) : Memmag :=
  { mag with info := (mag.info &&& ~~~membktmask) ||| BitVec.ofNat 32 bktid }

def memmagisfree (mag : Memmag) : Bool := mag.info &&& memfree == 0

def memmagsetfree (mag : Memmag) : Memmag := { mag with info := mag.info ||| memfree }

def memmagclrfree (mag : Memmag) : Memmag := { mag with info := mag.info &&& ~~~memfree }

def memmagsetflg (mag : Memmag) (flg : BitVec 32) : Memmag := { mag with info := mag.info ||| flg }

def memmagclrinfo (mag : Memmag) : Memmag := { mag with info := 0 }

def memmagclrlink (mag : Memmag) : Memmag := { mag with prev := none, next := none }

def memunlink (pool : Mempool) (bktid mag : Nat) : Mempool :=
  match (pool.hdrtab mag).prev, (pool.hdrtab mag).next with
  | some prev, some next =>
      let pool := pool.setMag prev { pool.hdrtab prev with next := some next }
      pool.setMag next { pool.hdrtab next with prev := some prev }
  | some prev, none => pool.setMag prev { pool.hdrtab prev with next := none }
  | none, some next => (pool.setMag next { pool.hdrtab next with prev := none }).setList bktid (some next)
  | none, none => pool.setList bktid none

def lzerol (u : Nat) : Nat := if u = 0 then 32 else 31 - Nat.log2 u

def memcalcbkt (size : Nat) : Nat :=
  if size = 0 then ptrbits
  else if size &&& (size - 1) = 0 then ptrbits - lzerol size - 1
  else ptrbits - lzerol size

theorem shift_pos (k : Nat) : 0 < 1 <<< k := by
  rw [Nat.one_shiftLeft]
  exact Nat.two_pow_pos k

theorem shift_mono (low high : Nat) (order : low ≤ high) : 1 <<< low ≤ 1 <<< high := by
  rw [Nat.one_shiftLeft, Nat.one_shiftLeft]
  exact Nat.pow_le_pow_right (by decide : 0 < 2) order

theorem shift_double (k : Nat) : 1 <<< (k + 1) = (1 <<< k) + (1 <<< k) := by
  rw [Nat.one_shiftLeft, Nat.one_shiftLeft, Nat.pow_succ, Nat.mul_two]

theorem memgetmag_eq (ptr : Nat) (pool : Mempool) (low : pool.base ≤ ptr) (high : ptr < 4294967296) :
    memgetmag ptr pool = (ptr - pool.base) / 65536 := by
  have distance : (ptr + (4294967296 - pool.base)) % 4294967296 = ptr - pool.base := by omega
  unfold memgetmag memgetblknum memslabshift
  rw [distance, Nat.shiftRight_eq_div_pow]

theorem memcalcbkt_fits (size : Nat) (positive : 0 < size) (word : size < 4294967296) : size ≤ 1 <<< memcalcbkt size := by
  have nonzero : size ≠ 0 := by omega
  have high : Nat.log2 size < 32 := (Nat.log2_lt nonzero).mpr word
  rw [Nat.one_shiftLeft]
  unfold memcalcbkt lzerol ptrbits
  simp only [nonzero, if_false]
  by_cases power : size &&& (size - 1) = 0
  · obtain ⟨k, rfl⟩ := (Nat.and_sub_one_eq_zero_iff_isPowerOfTwo nonzero).mp power
    rw [if_pos power, Nat.log2_two_pow]
    rw [Nat.log2_two_pow] at high
    apply Nat.le_of_eq
    congr 1
    omega
  · rw [if_neg power]
    have bound := Nat.lt_log2_self (n := size)
    rw [show 32 - (31 - Nat.log2 size) = Nat.log2 size + 1 by omega]
    exact Nat.le_of_lt bound

theorem memcalcbkt_least (size bkt : Nat) (positive : 0 < size) (word : size < 4294967296) (fits : size ≤ 1 <<< bkt) :
    memcalcbkt size ≤ bkt := by
  have nonzero : size ≠ 0 := by omega
  have high : Nat.log2 size < 32 := (Nat.log2_lt nonzero).mpr word
  rw [Nat.one_shiftLeft] at fits
  unfold memcalcbkt lzerol ptrbits
  simp only [nonzero, if_false]
  by_cases power : size &&& (size - 1) = 0
  · obtain ⟨k, rfl⟩ := (Nat.and_sub_one_eq_zero_iff_isPowerOfTwo nonzero).mp power
    rw [if_pos power, Nat.log2_two_pow]
    rw [Nat.log2_two_pow] at high
    have order := (Nat.pow_le_pow_iff_right (by decide : 1 < 2)).mp fits
    omega
  · rw [if_neg power]
    have low : 2 ^ Nat.log2 size ≤ size := Nat.log2_self_le nonzero
    have different : size ≠ 2 ^ Nat.log2 size := by
      intro same
      exact power ((Nat.and_sub_one_eq_zero_iff_isPowerOfTwo nonzero).mpr ⟨_, same⟩)
    have order : 2 ^ Nat.log2 size < 2 ^ bkt := by omega
    have smaller := (Nat.pow_lt_pow_iff_right (by decide : 1 < 2)).mp order
    omega

end OsZero.KernMem

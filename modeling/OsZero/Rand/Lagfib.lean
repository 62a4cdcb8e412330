import Mathlib.Data.BitVec
import OsZero.Lib.Lagged

set_option autoImplicit false

namespace OsZero.Rand.Lagfib

open Lagged

def RAND_A : Nat := 471
def RAND_B : Nat := 1586
def RAND_C : Nat := 6988
def RAND_D : Nat := 9689
def RAND_J : Nat := 9739
def RAND_K : Nat := 23209
def RAND_N : Nat := 16384
def RAND_M : BitVec 64 := 16383

-- The buffer as it was filled, and the index, which is a long.
structure Lfg where
  randbuf : Nat → BitVec 32
  randndx : BitVec 64

def randlfg (lfg : Lfg) : Lfg × BitVec 32 :=
  let randndx := lfg.randndx + 1
  let val1 := lfg.randbuf ((randndx - BitVec.ofNat 64 RAND_A) &&& RAND_M).toNat
  let val2 := lfg.randbuf ((randndx - BitVec.ofNat 64 RAND_B) &&& RAND_M).toNat
  let val3 := lfg.randbuf ((randndx - BitVec.ofNat 64 RAND_C) &&& RAND_M).toNat
  let val4 := lfg.randbuf ((randndx - BitVec.ofNat 64 RAND_D) &&& RAND_M).toNat
  let retval := val1 ^^^ val2 ^^^ val3 ^^^ val4
  (⟨Function.update lfg.randbuf (randndx &&& RAND_M).toNat retval, randndx⟩, retval)

def randlfg2 (lfg : Lfg) : Lfg × BitVec 32 :=
  let randndx := lfg.randndx + 1
  let val1 := lfg.randbuf ((randndx - BitVec.ofNat 64 RAND_J) &&& RAND_M).toNat
  let val2 := lfg.randbuf ((randndx - BitVec.ofNat 64 RAND_K) &&& RAND_M).toNat
  let retval := val1 ^^^ val2
  (⟨Function.update lfg.randbuf (randndx &&& RAND_M).toNat retval, randndx⟩, retval)

-- What a generator returns for its nth call, from a buffer filled with rand.
def calls (gen : Lfg → Lfg × BitVec 32) (rand : Nat → BitVec 32) : Nat → Lfg
  | 0 => ⟨rand, 0⟩
  | count + 1 => (gen (calls gen rand count)).1

def output (gen : Lfg → Lfg × BitVec 32) (rand : Nat → BitVec 32) (count : Nat) : BitVec 32 := (gen (calls gen rand count)).2

-- The outputs, counted from 1, behind what the buffer was filled with.
def sequence (gen : Lfg → Lfg × BitVec 32) (rand : Nat → BitVec 32) (i : Int) : BitVec 32 :=
  if 0 < i then output gen rand (i.toNat - 1) else rand (cell RAND_N i)

def xors (vals : List (BitVec 32)) : BitVec 32 := vals.foldr (fun val rest => val ^^^ rest) 0#32

theorem masked_cell (ndx : BitVec 64) (i : Int) (same : ndx = BitVec.ofInt 64 i) : (ndx &&& RAND_M).toNat = cell RAND_N i := by
  have mask : RAND_M.toNat = 2 ^ 14 - 1 := rfl
  rw [BitVec.toNat_and, mask, Nat.and_two_pow_sub_one_eq_mod, same, BitVec.toNat_ofInt, cell, RAND_N]
  omega

theorem lag_index (lfg : Lfg) (count lag : Nat) (ndx : lfg.randndx = BitVec.ofInt 64 count) :
    lfg.randndx + 1 - BitVec.ofNat 64 lag = BitVec.ofInt 64 (count + 1 - lag) := by
  rw [ndx]
  apply BitVec.eq_of_toNat_eq
  have one : (1 : BitVec 64).toNat = 1 := rfl
  rw [BitVec.toNat_sub, BitVec.toNat_add, BitVec.toNat_ofInt, BitVec.toNat_ofInt, BitVec.toNat_ofNat, one]
  omega

-- A generator that keeps its terms in a ring of RAND_N cells.
def Rings (gen : Lfg → Lfg × BitVec 32) (lags : List Nat) : Prop := ∀ lfg : Lfg, ∀ count : Nat, lfg.randndx = BitVec.ofInt 64 count →
  (gen lfg).2 = xors (lags.map fun lag : Nat => lfg.randbuf (cell RAND_N (count + 1 - lag))) ∧
    (gen lfg).1 = ⟨Function.update lfg.randbuf (cell RAND_N (count + 1)) (gen lfg).2, BitVec.ofInt 64 (count + 1)⟩

theorem randlfg_rings : Rings randlfg [RAND_A, RAND_B, RAND_C, RAND_D] := by
  intro lfg count ndx
  have next : lfg.randndx + 1 = BitVec.ofInt 64 (count + 1) := by
    rw [ndx, BitVec.ofInt_add]
    rfl
  have at_lag (lag : Nat) := masked_cell _ _ (lag_index lfg count lag ndx)
  constructor
  · simp only [randlfg, at_lag]
    simp [xors, BitVec.xor_assoc]
  · simp only [randlfg, masked_cell _ _ next]
    rw [← next]

theorem randlfg2_rings : Rings randlfg2 [RAND_J, RAND_K] := by
  intro lfg count ndx
  have next : lfg.randndx + 1 = BitVec.ofInt 64 (count + 1) := by
    rw [ndx, BitVec.ofInt_add]
    rfl
  have at_lag (lag : Nat) := masked_cell _ _ (lag_index lfg count lag ndx)
  constructor
  · simp only [randlfg2, at_lag]
    simp [xors]
  · simp only [randlfg2, masked_cell _ _ next]
    rw [← next]

section Turns

variable (gen : Lfg → Lfg × BitVec 32) (lags : List Nat) (rings : Rings gen lags) (rand : Nat → BitVec 32)

include rings

theorem calls_after (count : Nat) : calls gen rand count = ⟨(after RAND_N xors lags rand count).1, BitVec.ofInt 64 count⟩ := by
  induction count with
  | zero => rfl
  | succ count ih =>
    obtain ⟨value, state⟩ := rings (calls gen rand count) count (by rw [ih])
    rw [calls, state, value, ih, after_succ, turn, after_index]
    simp

theorem sequence_term (i : Int) : sequence gen rand i = term RAND_N xors lags rand i := by
  rw [sequence]
  split
  · rename_i positive
    obtain ⟨count, rfl⟩ : ∃ count : Nat, i = count + 1 := ⟨i.toNat - 1, by omega⟩
    have here : ((count : Int) + 1).toNat = count + 1 := by omega
    have value := (rings (calls gen rand count) count (by rw [calls_after gen lags rings rand])).1
    rw [term, here, Nat.add_sub_cancel, output, value, calls_after gen lags rings rand, after_succ, turn, after_index]
    dsimp only
    rw [Function.update_self]
  · have here : i.toNat = 0 := by omega
    rw [term, here]
    rfl

theorem sequence_lagged (behind : ∀ lag ∈ lags, 1 ≤ lag) (count : Nat) :
    sequence gen rand (count + 1) = xors (lags.map fun lag : Nat => sequence gen rand (count + 1 - reduced RAND_N lag)) := by
  simp only [sequence_term gen lags rings rand]
  exact term_lagged RAND_N xors lags rand (by decide) behind count

end Turns

-- The ring keeps 16384 terms: the four lags are what they are said to be, but the one of
-- 23209 is no more than 6825.
theorem lfg_lags (rand : Nat → BitVec 32) (count : Nat) :
    sequence randlfg rand (count + 1) = sequence randlfg rand (count + 1 - 471) ^^^ sequence randlfg rand (count + 1 - 1586) ^^^
        sequence randlfg rand (count + 1 - 6988) ^^^ sequence randlfg rand (count + 1 - 9689) ∧
      sequence randlfg2 rand (count + 1) = sequence randlfg2 rand (count + 1 - 9739) ^^^ sequence randlfg2 rand (count + 1 - 6825) := by
  have first := sequence_lagged randlfg _ randlfg_rings rand (by decide) count
  have second := sequence_lagged randlfg2 _ randlfg2_rings rand (by decide) count
  have one : reduced RAND_N RAND_A = 471 := by decide
  have two : reduced RAND_N RAND_B = 1586 := by decide
  have three : reduced RAND_N RAND_C = 6988 := by decide
  have four : reduced RAND_N RAND_D = 9689 := by decide
  have five : reduced RAND_N RAND_J = 9739 := by decide
  have six : reduced RAND_N RAND_K = 6825 := by decide
  simp only [xors, List.map_cons, List.map_nil, List.foldr_cons, List.foldr_nil, BitVec.xor_zero, one, two, three, four, Nat.cast_ofNat] at first
  simp only [xors, List.map_cons, List.map_nil, List.foldr_cons, List.foldr_nil, BitVec.xor_zero, five, six, Nat.cast_ofNat] at second
  exact ⟨by simpa only [BitVec.xor_assoc] using first, second⟩

end OsZero.Rand.Lagfib

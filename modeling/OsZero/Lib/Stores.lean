import Mathlib.Data.List.Range
import Mathlib.Logic.Function.Basic

set_option autoImplicit false

namespace Stores

-- An array without a bound, with the places stored into so far: what a function
-- wrote, and whether it kept inside the array it was given.
structure Mem (α : Type) where
  cell : Nat → α
  stored : List Nat

variable {α : Type}

def Mem.put (mem : Mem α) (i : Nat) (value : α) : Mem α := ⟨Function.update mem.cell i value, mem.stored ++ [i]⟩

def Mem.fill (mem : Mem α) (i : Nat) : List α → Mem α
  | [] => mem
  | value :: values => (mem.put i value).fill (i + 1) values

-- Every store so far is between two places.
def Mem.Within (mem : Mem α) (low high : Nat) : Prop := ∀ i ∈ mem.stored, low ≤ i ∧ i < high

@[simp] theorem put_stored (mem : Mem α) (i : Nat) (value : α) : (mem.put i value).stored = mem.stored ++ [i] := rfl

theorem put_cell_self (mem : Mem α) (i : Nat) (value : α) : (mem.put i value).cell i = value := by
  simp only [Mem.put, Function.update_self]

theorem put_cell_of_ne (mem : Mem α) (i j : Nat) (value : α) (different : j ≠ i) : (mem.put i value).cell j = mem.cell j := by
  simp only [Mem.put, Function.update_of_ne different]

theorem put_within (mem : Mem α) (i low high : Nat) (value : α) (within : mem.Within low high) (above : low ≤ i) (below : i < high) :
    (mem.put i value).Within low high := by
  intro j inside
  rw [put_stored, List.mem_append, List.mem_singleton] at inside
  rcases inside with before | rfl
  · exact within j before
  · exact ⟨above, below⟩

theorem fill_stored (mem : Mem α) (i : Nat) (values : List α) :
    (mem.fill i values).stored = mem.stored ++ List.range' i values.length := by
  induction values generalizing mem i with
  | nil => exact (List.append_nil _).symm
  | cons value values ih =>
      rw [Mem.fill, ih, put_stored, List.append_assoc, List.length_cons, List.range'_succ]
      rfl

theorem fill_append (mem : Mem α) (i : Nat) (first second : List α) :
    mem.fill i (first ++ second) = (mem.fill i first).fill (i + first.length) second := by
  induction first generalizing mem i with
  | nil => rfl
  | cons value first ih =>
      rw [List.cons_append, Mem.fill, Mem.fill, ih, List.length_cons]
      congr 1
      omega

theorem fill_outside (mem : Mem α) (i j : Nat) (values : List α) (outside : j < i ∨ i + values.length ≤ j) :
    (mem.fill i values).cell j = mem.cell j := by
  induction values generalizing mem i with
  | nil => rfl
  | cons value values ih =>
      rw [List.length_cons] at outside
      rw [Mem.fill, ih _ (i + 1) (by omega), put_cell_of_ne mem i j value (by omega)]

theorem fill_inside (mem : Mem α) (i k : Nat) (values : List α) (value : α) (get : values[k]? = some value) :
    (mem.fill i values).cell (i + k) = value := by
  induction values generalizing mem i k with
  | nil => contradiction
  | cons first values ih =>
      rw [Mem.fill]
      cases k with
      | zero =>
          rw [fill_outside _ (i + 1) (i + 0) values (Or.inl (Nat.lt_succ_self i)), Nat.add_zero, put_cell_self]
          exact Option.some.inj get
      | succ k =>
          rw [← Nat.add_assoc, Nat.add_right_comm]
          exact ih (mem.put i first) (i + 1) k get

end Stores

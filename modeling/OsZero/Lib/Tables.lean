import Mathlib.Logic.Basic

set_option autoImplicit false

namespace Tables

universe u
variable {β : Type u}

-- Numbered blocks of words. A block that is not allocated has size zero, and
-- numbers are never given out twice.
structure Memory (β : Type u) where
  word : Nat → Nat → β
  size : Nat → Nat
  fresh : Nat

def Memory.load (memory : Memory β) (table index : Nat) : Option β :=
  if index < memory.size table then some (memory.word table index) else none

def Memory.put (memory : Memory β) (table index : Nat) (value : β) : Memory β :=
  { memory with word := fun other place => if other = table ∧ place = index then value else memory.word other place }

def Memory.store (memory : Memory β) (table index : Nat) (value : β) : Option (Memory β) :=
  if index < memory.size table then some (memory.put table index value) else none

def Memory.alloc (memory : Memory β) (count : Nat) (zero : β) : Memory β :=
  { word := fun other place => if other = memory.fresh then zero else memory.word other place
    size := fun other => if other = memory.fresh then count else memory.size other
    fresh := memory.fresh + 1 }

def Memory.free (memory : Memory β) (table : Nat) : Memory β :=
  { memory with size := fun other => if other = table then 0 else memory.size other }

theorem load_inside (memory : Memory β) (table index : Nat) (inside : index < memory.size table) :
    memory.load table index = some (memory.word table index) := if_pos inside

theorem word_of_load (memory : Memory β) (table index : Nat) (value : β) (loaded : memory.load table index = some value) :
    memory.word table index = value := by
  rw [Memory.load] at loaded
  split at loaded
  · exact Option.some.inj loaded
  · contradiction

theorem store_inside (memory : Memory β) (table index : Nat) (value : β) (inside : index < memory.size table) :
    memory.store table index value = some (memory.put table index value) := if_pos inside

@[simp] theorem put_size (memory : Memory β) (table index : Nat) (value : β) :
    (memory.put table index value).size = memory.size := rfl

@[simp] theorem put_fresh (memory : Memory β) (table index : Nat) (value : β) :
    (memory.put table index value).fresh = memory.fresh := rfl

@[simp] theorem alloc_fresh (memory : Memory β) (count : Nat) (zero : β) :
    (memory.alloc count zero).fresh = memory.fresh + 1 := rfl

-- Another allocation leaves the room of a table.
theorem alloc_inside (memory : Memory β) (table index count : Nat) (zero : β) (there : table < memory.fresh)
    (inside : index < memory.size table) : index < (memory.alloc count zero).size table :=
  Nat.lt_of_lt_of_eq inside (if_neg (Nat.ne_of_lt there)).symm

@[simp] theorem put_here (memory : Memory β) (table index : Nat) (value : β) :
    (memory.put table index value).word table index = value := by simp [Memory.put]

theorem put_other_table (memory : Memory β) (table other index place : Nat) (value : β) (different : other ≠ table) :
    (memory.put table index value).word other place = memory.word other place := by simp [Memory.put, different]

theorem put_other_index (memory : Memory β) (table other index place : Nat) (value : β) (different : place ≠ index) :
    (memory.put table index value).word other place = memory.word other place := by simp [Memory.put, different]

theorem put_same (memory : Memory β) (table index : Nat) (value : β) (same : memory.word table index = value) :
    memory.put table index value = memory := by
  subst same
  cases memory with
  | mk word size fresh =>
      simp only [Memory.put, Memory.mk.injEq, and_self, and_true]
      funext other place
      split
      · rename_i equal
        rw [equal.1, equal.2]
      · rfl

theorem put_put (memory : Memory β) (table index : Nat) (first second : β) :
    (memory.put table index first).put table index second = memory.put table index second := by
  simp only [Memory.put, Memory.mk.injEq, and_self, and_true]
  funext other place
  split <;> rfl

end Tables

import Mathlib.GroupTheory.Perm.Basic
import Mathlib.Dynamics.PeriodicPts.Lemmas

set_option autoImplicit false

namespace Circles

universe u
variable {α : Type u}

structure Heap (α : Type u) where
  next : α → α
  prev : α → α

section Stores

variable [DecidableEq α]

def Heap.setNext (heap : Heap α) (item value : α) : Heap α := { heap with next := Function.update heap.next item value }

def Heap.setPrev (heap : Heap α) (item value : α) : Heap α := { heap with prev := Function.update heap.prev item value }

@[simp, grind =] theorem set_next_next (heap : Heap α) (item value other : α) :
    (heap.setNext item value).next other = if other = item then value else heap.next other := Function.update_apply _ _ _ _

@[simp, grind =] theorem set_next_prev (heap : Heap α) (item value : α) : (heap.setNext item value).prev = heap.prev := rfl

@[simp, grind =] theorem set_prev_prev (heap : Heap α) (item value other : α) :
    (heap.setPrev item value).prev other = if other = item then value else heap.prev other := Function.update_apply _ _ _ _

@[simp, grind =] theorem set_prev_next (heap : Heap α) (item value : α) : (heap.setPrev item value).next = heap.next := rfl

end Stores

-- Linked items go round: a permutation says who follows whom. The others are in no
-- circle, and what their links hold is left open.
structure Rounds (α : Type u) where
  turn : Equiv.Perm α
  linked : Set α

structure Carries (heap : Heap α) (rounds : Rounds α) : Prop where
  next : ∀ item ∈ rounds.linked, heap.next item = rounds.turn item
  prev : ∀ item ∈ rounds.linked, heap.prev (rounds.turn item) = item
  loose : ∀ item, item ∉ rounds.linked → rounds.turn item = item

theorem turn_linked (heap : Heap α) (rounds : Rounds α) (item : α) (carries : Carries heap rounds) (member : item ∈ rounds.linked) :
    rounds.turn item ∈ rounds.linked := by
  by_contra outside
  have stays : rounds.turn item = item := rounds.turn.injective (carries.loose _ outside)
  rw [stays] at outside
  exact outside member

theorem back_linked (heap : Heap α) (rounds : Rounds α) (item : α) (carries : Carries heap rounds) (member : item ∈ rounds.linked) :
    rounds.turn.symm item ∈ rounds.linked ∧ heap.prev item = rounds.turn.symm item := by
  have inside : rounds.turn.symm item ∈ rounds.linked := by
    by_contra outside
    have stays := carries.loose _ outside
    rw [Equiv.apply_symm_apply] at stays
    rw [← stays] at outside
    exact outside member
  have before := carries.prev _ inside
  rw [Equiv.apply_symm_apply] at before
  exact ⟨inside, before⟩

section Moves

variable [DecidableEq α] (rounds : Rounds α) (item anchor other : α)

def alone : Rounds α := ⟨rounds.turn, insert item rounds.linked⟩

def behind : Rounds α := ⟨rounds.turn * Equiv.swap item anchor, insert item rounds.linked⟩

def before : Rounds α := ⟨Equiv.swap item anchor * rounds.turn, insert item rounds.linked⟩

def without : Rounds α := ⟨Equiv.swap item (rounds.turn item) * rounds.turn, rounds.linked \ {item}⟩

-- anchor takes the place of item.
def instead : Rounds α := ⟨Equiv.swap item anchor * rounds.turn * Equiv.swap item anchor, insert anchor (rounds.linked \ {item})⟩

theorem behind_turn (fixed : rounds.turn item = item) :
    (behind rounds item anchor).turn other = if other = anchor then item else if other = item then rounds.turn anchor else rounds.turn other := by
  rw [behind, Equiv.Perm.mul_apply, Equiv.swap_apply_def]
  grind

theorem before_turn : (before rounds item anchor).turn other =
    if rounds.turn other = item then anchor else if rounds.turn other = anchor then item else rounds.turn other := by
  rw [before, Equiv.Perm.mul_apply, Equiv.swap_apply_def]

theorem without_turn : (without rounds item).turn other =
    if other = item then item else if rounds.turn other = item then rounds.turn item else rounds.turn other := by
  rw [without, Equiv.Perm.mul_apply, Equiv.swap_apply_def]
  have injective : rounds.turn other = rounds.turn item → other = item := fun same => rounds.turn.injective same
  grind

theorem instead_turn (fixed : rounds.turn anchor = anchor) (apart : item ≠ anchor) : (instead rounds item anchor).turn other =
    if other = item then item
    else if other = anchor then (if rounds.turn item = item then anchor else rounds.turn item)
    else if rounds.turn other = item then anchor else rounds.turn other := by
  have injective := rounds.turn.injective
  have least : ∀ one two, rounds.turn one = rounds.turn two → one = two := fun one two same => injective same
  rw [instead, Equiv.Perm.mul_apply, Equiv.Perm.mul_apply, Equiv.swap_apply_def, Equiv.swap_apply_def]
  grind

end Moves

section Walks

-- A loop over a circle, from an item back to start.
def walk [DecidableEq α] (follow : α → α) (start : α) : Nat → α → Option (List α)
  | 0, _ => none
  | fuel + 1, item => if item = start then some [] else (walk follow start fuel (follow item)).map (item :: ·)

theorem walk_congr [DecidableEq α] (follow other : α → α) (start : α) (inside : Set α) (agree : ∀ item ∈ inside, follow item = other item)
    (closed : ∀ item ∈ inside, other item ∈ inside) (fuel : Nat) (item : α) (member : item ∈ inside) :
    walk follow start fuel item = walk other start fuel item := by
  induction fuel generalizing item with
  | zero => rfl
  | succ fuel ih => rw [walk, walk, agree item member, ih _ (closed item member)]

-- The rest of a circle behind one of its items, in order.
noncomputable def rest (turn : Equiv.Perm α) (item : α) : List α :=
  (List.range' 1 (Function.minimalPeriod turn item - 1)).map fun i => turn^[i] item

theorem walk_rest [DecidableEq α] (turn : Equiv.Perm α) (start : α) (fuel : Nat) (enough : Function.minimalPeriod turn start < fuel)
    (periodic : 0 < Function.minimalPeriod turn start) : walk turn start fuel (turn start) = some (rest turn start) := by
  have general : ∀ left i fuel, left < fuel → 0 < i → i + left = Function.minimalPeriod turn start →
      walk turn start fuel (turn^[i] start) = some ((List.range' i left).map fun j => turn^[j] start) := by
    intro left
    induction left with
    | zero =>
        intro i fuel more some_turns total
        have around : turn^[i] start = start := by
          rw [← Nat.add_zero i, total]
          exact Function.iterate_minimalPeriod
        cases fuel with
        | zero => omega
        | succ fuel => rw [walk, if_pos around, List.range'_zero, List.map_nil]
    | succ left ih =>
        intro i fuel more some_turns total
        have away : turn^[i] start ≠ start := by
          intro back
          have least := Function.IsPeriodicPt.minimalPeriod_le some_turns back
          omega
        cases fuel with
        | zero => omega
        | succ fuel =>
            rw [walk, if_neg away, ← Function.iterate_succ_apply' turn, ih (i + 1) fuel (by omega) (by omega) (by omega), Option.map_some,
              List.range'_succ, List.map_cons]
  exact general _ 1 fuel (by omega) (by decide) (by omega)

theorem rest_nodup (turn : Equiv.Perm α) (item : α) : (rest turn item).Nodup := by
  refine List.Nodup.map_on ?_ List.nodup_range'
  intro i left j right same
  rw [List.mem_range'_1] at left right
  exact Function.iterate_injOn_Iio_minimalPeriod (Set.mem_Iio.mpr (by omega)) (Set.mem_Iio.mpr (by omega)) same

theorem mem_rest (turn : Equiv.Perm α) (item other : α) (periodic : 0 < Function.minimalPeriod turn item) :
    other ∈ rest turn item ↔ other ≠ item ∧ ∃ i, turn^[i] item = other := by
  rw [rest, List.mem_map]
  constructor
  · rintro ⟨i, between, rfl⟩
    rw [List.mem_range'_1] at between
    refine ⟨fun back => ?_, i, rfl⟩
    have least := Function.IsPeriodicPt.minimalPeriod_le (by omega) back
    omega
  · rintro ⟨apart, i, rfl⟩
    refine ⟨i % Function.minimalPeriod turn item, ?_, Function.iterate_mod_minimalPeriod_eq⟩
    have below := Nat.mod_lt i periodic
    have some_turns : i % Function.minimalPeriod turn item ≠ 0 := by
      intro none
      apply apart
      rw [← Function.iterate_mod_minimalPeriod_eq, none]
      rfl
    rw [List.mem_range'_1]
    omega

theorem symm_undoes (turn : Equiv.Perm α) (count : Nat) (item : α) :
    turn.symm^[count] (turn^[count] item) = item ∧ turn^[count] (turn.symm^[count] item) = item :=
  ⟨Function.LeftInverse.iterate turn.left_inv count item, Function.LeftInverse.iterate turn.right_inv count item⟩

theorem symm_iterate (turn : Equiv.Perm α) (item : α) (i j : Nat) (total : i + j = Function.minimalPeriod turn item) :
    turn.symm^[i] item = turn^[j] item := by
  have around : turn^[i] (turn^[j] item) = item := by
    rw [← Function.iterate_add_apply, total]
    exact Function.iterate_minimalPeriod
  have undone := (symm_undoes turn i (turn^[j] item)).1
  rwa [around] at undone

theorem symm_period (turn : Equiv.Perm α) (item : α) : Function.minimalPeriod turn.symm item = Function.minimalPeriod turn item := by
  refine Function.minimalPeriod_eq_minimalPeriod_iff.mpr fun n => ?_
  obtain ⟨undone, redone⟩ := symm_undoes turn n item
  constructor
  · intro back
    rwa [back.eq] at redone
  · intro back
    rwa [back.eq] at undone

theorem rest_symm (turn : Equiv.Perm α) (item : α) : rest turn.symm item = (rest turn item).reverse := by
  rw [rest, rest, symm_period]
  refine List.ext_getElem (by simp) fun i left right => ?_
  simp only [List.length_map, List.length_range'] at left
  simp only [List.getElem_map, List.getElem_range', List.getElem_reverse, List.length_map, List.length_range']
  exact symm_iterate turn item _ _ (by omega)

theorem walks_rest [DecidableEq α] (heap : Heap α) (rounds : Rounds α) (item : α) (fuel : Nat) (carries : Carries heap rounds)
    (member : item ∈ rounds.linked) (periodic : 0 < Function.minimalPeriod rounds.turn item)
    (enough : Function.minimalPeriod rounds.turn item < fuel) :
    walk heap.next item fuel (heap.next item) = some (rest rounds.turn item) ∧
      walk heap.prev item fuel (heap.prev item) = some (rest rounds.turn item).reverse := by
  have back := back_linked heap rounds
  constructor
  · rw [carries.next item member, ← walk_rest rounds.turn item fuel enough periodic]
    exact walk_congr _ _ item rounds.linked carries.next (fun other inside => turn_linked heap rounds other carries inside) fuel _
      (turn_linked heap rounds item carries member)
  · rw [(back item carries member).2, ← rest_symm,
      ← walk_rest rounds.turn.symm item fuel (by rwa [symm_period]) (by rwa [symm_period])]
    exact walk_congr _ _ item rounds.linked (fun other inside => (back other carries inside).2)
      (fun other inside => (back other carries inside).1) fuel _ (back item carries member).1

end Walks

end Circles

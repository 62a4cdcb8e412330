import Mathlib.Logic.Function.Iterate

set_option autoImplicit false

namespace Lagged

universe u
variable {α : Type u}

-- A sequence of which only the last size terms are kept, each in the cell of its index.
def cell (size : Nat) (i : Int) : Nat := (i % size).toNat

-- One more term, made of the cells of the terms that lie the lags behind it.
def turn (size : Nat) (combine : List α → α) (lags : List Nat) (ring : (Nat → α) × Nat) : (Nat → α) × Nat :=
  (Function.update ring.1 (cell size (ring.2 + 1)) (combine (lags.map fun lag : Nat => ring.1 (cell size (ring.2 + 1 - lag)))), ring.2 + 1)

section Terms

variable (size : Nat) (combine : List α → α) (lags : List Nat) (seed : Nat → α)

def after (count : Nat) : (Nat → α) × Nat := (turn size combine lags)^[count] (seed, 0)

-- The terms up to 0 are what the ring was filled with.
def term (i : Int) : α := (after size combine lags seed i.toNat).1 (cell size i)

theorem after_succ (count : Nat) : after size combine lags seed (count + 1) = turn size combine lags (after size combine lags seed count) :=
  Function.iterate_succ_apply' _ _ _

theorem after_index (count : Nat) : (after size combine lags seed count).2 = count := by
  induction count with
  | zero => rfl
  | succ count ih => rw [after_succ, turn, ih]

theorem cell_far (positive : 0 < size) (i j : Int) (more : i < j) (less : j < i + size) : cell size i ≠ cell size j := by
  intro same
  have sized : (size : Int) ≠ 0 := by omega
  have nonneg := fun k : Int => Int.emod_nonneg k sized
  have equal : i % size = j % size := by
    have first := nonneg i
    have second := nonneg j
    unfold cell at same
    omega
  have divides : (size : Int) ∣ j - i := Int.dvd_of_emod_eq_zero (by rw [Int.sub_emod, equal, Int.sub_self, Int.zero_emod])
  have least := Int.le_of_dvd (by omega) divides
  omega

-- The lag that one longer than the ring comes to.
def reduced (lag : Nat) : Nat := (lag - 1) % size + 1

theorem reduced_bounds (positive : 0 < size) (lag : Nat) : 1 ≤ reduced size lag ∧ reduced size lag ≤ size :=
  ⟨Nat.succ_pos _, Nat.mod_lt _ positive⟩

theorem cell_reduced (i : Int) (lag : Nat) (some_lag : 1 ≤ lag) : cell size (i - lag) = cell size (i - reduced size lag) := by
  have whole := Nat.div_add_mod (lag - 1) size
  have split : lag = reduced size lag + size * ((lag - 1) / size) := by
    unfold reduced
    omega
  have turns : i - lag = i - reduced size lag - size * ((lag - 1) / size : Nat) := by
    have cast := congrArg (Nat.cast (R := Int)) split
    push_cast at cast ⊢
    omega
  rw [cell, turns, Int.sub_mul_emod_self_left]
  rfl

-- The ring holds the last terms.
theorem after_holds (positive : 0 < size) (count : Nat) (i : Int) (recent : count - size < i) (past : i ≤ count) :
    (after size combine lags seed count).1 (cell size i) = term size combine lags seed i := by
  induction count with
  | zero =>
    have none : i.toNat = 0 := by omega
    rw [term, none]
  | succ count ih =>
    by_cases last : i = count + 1
    · have here : i.toNat = count + 1 := by omega
      rw [term, here]
    · have different := cell_far size positive i (count + 1) (by omega) (by omega)
      rw [after_succ, turn, after_index]
      dsimp only
      rw [Function.update_of_ne different]
      exact ih (by omega) (by omega)

theorem term_lagged (positive : 0 < size) (behind : ∀ lag ∈ lags, 1 ≤ lag) (count : Nat) :
    term size combine lags seed (count + 1) = combine (lags.map fun lag : Nat => term size combine lags seed (count + 1 - reduced size lag)) := by
  have next : ((count : Int) + 1).toNat = count + 1 := by omega
  rw [term, next, after_succ, turn, after_index]
  dsimp only
  rw [Function.update_self]
  refine congrArg combine (List.map_congr_left fun lag member => ?_)
  have bounds := reduced_bounds size positive lag
  rw [cell_reduced size _ lag (behind lag member)]
  exact after_holds size combine lags seed positive count _ (by omega) (by omega)

end Terms

end Lagged

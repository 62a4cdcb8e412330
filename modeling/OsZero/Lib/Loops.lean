import Mathlib.Logic.Basic

set_option autoImplicit false

namespace Loops

universe u
variable {State : Type u}

-- A body returns none where the loop is left.
inductive Reaches (body : State → Option State) (first : State) : State → Prop
  | start : Reaches body first first
  | next {state later : State} : Reaches body first state → body state = some later → Reaches body first later

theorem reaches_cons (body : State → Option State) (first second state : State) (taken : body first = some second)
    (reached : Reaches body second state) : Reaches body first state := by
  induction reached with
  | start => exact .next .start taken
  | next _ step ih => exact .next ih step

theorem reaches_cases (body : State → Option State) (first state : State) (reached : Reaches body first state) :
    state = first ∨ ∃ second, body first = some second ∧ Reaches body second state := by
  induction reached with
  | start => exact .inl rfl
  | next _ step ih =>
    right
    obtain rfl | ⟨second, taken, rest⟩ := ih
    · exact ⟨_, step, .start⟩
    · exact ⟨second, taken, .next rest step⟩

theorem reaches_invariant (body : State → Option State) (Inv Cond : State → Prop) (first : State) (start : Inv first)
    (kept : ∀ state later, Inv state → Cond state → body state = some later → Inv later)
    (cond : ∀ state, Reaches body first state → Cond state) (state : State) (reached : Reaches body first state) : Inv state := by
  induction reached with
  | start => exact start
  | next before step ih => exact kept _ _ ih (cond _ before) step

-- A measure that goes down at every turn bounds the number of turns.
theorem leaves (body : State → Option State) (measure : State → Nat) (first : State)
    (down : ∀ state later, Reaches body first state → body state = some later → measure later < measure state) :
    ∃ last, Reaches body first last ∧ body last = none := by
  induction same : measure first using Nat.strongRecOn generalizing first with
  | _ size ih =>
    cases taken : body first with
    | none => exact ⟨first, .start, taken⟩
    | some second =>
      have less : measure second < size := same ▸ down first second .start taken
      obtain ⟨last, reached, left⟩ := ih _ less second
        (fun state later reached => down state later (reaches_cons body first second state taken reached)) rfl
      exact ⟨last, reaches_cons body first second last taken reached, left⟩

-- Whether a decidable condition holds at every turn of a loop of fewer than fuel turns.
def check (body : State → Option State) (Cond : State → Prop) [DecidablePred Cond] : Nat → State → Bool
  | 0, _ => false
  | fuel + 1, state =>
      Cond state && match body state with
        | some later => check body Cond fuel later
        | none => true

theorem check_reaches (body : State → Option State) (Cond : State → Prop) [DecidablePred Cond] (fuel : Nat) (first : State)
    (checked : check body Cond fuel first = true) : ∀ state, Reaches body first state → Cond state := by
  induction fuel generalizing first with
  | zero => exact absurd checked Bool.false_ne_true
  | succ fuel ih =>
    rw [check, Bool.and_eq_true, decide_eq_true_eq] at checked
    intro state reached
    obtain rfl | ⟨second, taken, rest⟩ := reaches_cases body first state reached
    · exact checked.1
    · rw [taken] at checked
      exact ih second checked.2 state rest

end Loops

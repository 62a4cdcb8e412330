import Mathlib.Algebra.BigOperators.Group.Finset.Basic
import Mathlib.Algebra.Order.BigOperators.Group.Finset
import Mathlib.Data.Fintype.Card
import Mathlib.Logic.Function.Basic
import OsZero.Lib.Runs

set_option autoImplicit false

namespace Threads

open Runs

universe u v w x
variable {Thread : Type u} [DecidableEq Thread] {Shared : Type v} {Own : Type w} {Op : Type x}

-- The memory that threads share, and what each has for itself with its place
-- in the code.
structure World (Thread : Type u) (Shared : Type v) (Own : Type w) where
  shared : Shared
  own : Thread → Own

def World.put (world : World Thread Shared Own) (thread : Thread) (next : Shared × Own) : World Thread Shared Own :=
  ⟨next.1, Function.update world.own thread next.2⟩

theorem put_shared (world : World Thread Shared Own) (thread : Thread) (next : Shared × Own) :
    (world.put thread next).shared = next.1 := rfl

theorem put_here (world : World Thread Shared Own) (thread : Thread) (next : Shared × Own) :
    (world.put thread next).own thread = next.2 := Function.update_self _ _ _

theorem put_there (world : World Thread Shared Own) (thread : Thread) (next : Shared × Own) (other : Thread)
    (different : other ≠ thread) : (world.put thread next).own other = world.own other :=
  Function.update_of_ne different _ _

theorem put_all (world : World Thread Shared Own) (thread : Thread) (next : Shared × Own) (Fact : Thread → Own → Prop)
    (here : Fact thread next.2) (there : ∀ other, other ≠ thread → Fact other (world.own other)) :
    ∀ other, Fact other ((world.put thread next).own other) := by
  intro other
  by_cases same : other = thread
  · rw [same, put_here]
    exact here
  · rw [put_there world thread next other same]
    exact there other same

theorem put_same (world : World Thread Shared Own) (thread : Thread) :
    world.put thread (world.shared, world.own thread) = world := by
  unfold World.put
  rw [Function.update_eq_self]

theorem put_put (world : World Thread Shared Own) (thread : Thread) (first next : Shared × Own) :
    (world.put thread first).put thread next = world.put thread next := by
  unfold World.put
  rw [Function.update_idem]

-- An interleaving is a list of operations, each the next atomic step of the
-- thread that who names.
def after (who : Op → Thread) (step : Op → Shared → Own → Shared × Own) (world : World Thread Shared Own) (op : Op) :
    World Thread Shared Own := world.put (who op) (step op world.shared (world.own (who op)))

def act (who : Op → Thread) (step : Op → Shared → Own → Shared × Own) (world : World Thread Shared Own) (op : Op) :
    Option (World Thread Shared Own) := some (after who step world op)

theorem act_holds (who : Op → Thread) (step : Op → Shared → Own → Shared × Own) (Inv Good : World Thread Shared Own → Prop)
    (Each Cond : World Thread Shared Own → Op → Prop) (weaken : ∀ world, Inv world → Good world)
    (preserved : ∀ world op, Inv world → Cond world op → Each world op ∧ Inv (after who step world op))
    (world : World Thread Shared Own) (ops : List Op) (start : Inv world) (meets : Meets (act who step) Cond world ops) :
    Holds (act who step) Good Each world ops := by
  apply holds_mono (act who step) Inv Good Each weaken
  apply invariant_holds (act who step) Inv Each Cond ?_ world ops start meets
  intro state op inv cond
  obtain ⟨each, kept⟩ := preserved state op inv cond
  exact ⟨each, after who step state op, rfl, kept⟩

theorem always_meets (who : Op → Thread) (step : Op → Shared → Own → Shared × Own) (world : World Thread Shared Own) (ops : List Op) :
    Meets (act who step) (fun _ _ => True) world ops := by
  induction ops generalizing world with
  | nil => trivial
  | cons op ops ih => exact ⟨trivial, fun next _ => ih next⟩

def run (who : Op → Thread) (step : Op → Shared → Own → Shared × Own) (world : World Thread Shared Own) (ops : List Op) :
    World Thread Shared Own := ops.foldl (after who step) world

theorem holds_run (who : Op → Thread) (step : Op → Shared → Own → Shared × Own) (Good : World Thread Shared Own → Prop)
    (Each : World Thread Shared Own → Op → Prop) (world : World Thread Shared Own) (ops : List Op)
    (holds : Holds (act who step) Good Each world ops) : Good (run who step world ops) := by
  induction ops generalizing world with
  | nil => exact holds
  | cons op ops ih =>
      obtain ⟨-, -, next, taken, rest⟩ := holds
      cases taken
      exact ih _ rest

theorem holds_last (who : Op → Thread) (step : Op → Shared → Own → Shared × Own) (Good : World Thread Shared Own → Prop)
    (Each : World Thread Shared Own → Op → Prop) (world : World Thread Shared Own) (ops : List Op) (op : Op)
    (holds : Holds (act who step) Good Each world (ops ++ [op])) : Each (run who step world ops) op := by
  induction ops generalizing world with
  | nil => exact holds.2.1
  | cons first ops ih =>
      obtain ⟨-, -, next, taken, rest⟩ := holds
      cases taken
      exact ih _ rest

theorem run_append (who : Op → Thread) (step : Op → Shared → Own → Shared × Own) (world : World Thread Shared Own) (first rest : List Op) :
    run who step world (first ++ rest) = run who step (run who step world first) rest := List.foldl_append

-- One thread takes steps and no other does.
def alone (step : Op → Shared → Own → Shared × Own) (op : Op) : Nat → Shared × Own → Shared × Own
  | 0, now => now
  | count + 1, now => alone step op count (step op now.1 now.2)

omit [DecidableEq Thread] in
theorem alone_add (step : Op → Shared → Own → Shared × Own) (op : Op) (first rest : Nat) (now : Shared × Own) :
    alone step op (first + rest) now = alone step op rest (alone step op first now) := by
  induction first generalizing now with
  | zero => rw [Nat.zero_add]; rfl
  | succ first ih =>
      rw [Nat.succ_add]
      exact ih _

theorem run_alone (who : Op → Thread) (step : Op → Shared → Own → Shared × Own) (world : World Thread Shared Own) (op : Op) (count : Nat) :
    run who step world (List.replicate count op) =
      world.put (who op) (alone step op count (world.shared, world.own (who op))) := by
  induction count generalizing world with
  | zero => exact (put_same world (who op)).symm
  | succ count ih =>
      rw [List.replicate_succ]
      change run who step (after who step world op) (List.replicate count op) = _
      rw [ih, after, put_put, put_shared, put_here]
      rfl

-- A condition that can be decided is checked along a given interleaving.
def every (who : Op → Thread) (step : Op → Shared → Own → Shared × Own) (Cond : World Thread Shared Own → Op → Prop)
    [∀ world op, Decidable (Cond world op)] : World Thread Shared Own → List Op → Bool
  | _, [] => true
  | world, op :: ops => decide (Cond world op) && every who step Cond (after who step world op) ops

theorem meets_every (who : Op → Thread) (step : Op → Shared → Own → Shared × Own) (Cond : World Thread Shared Own → Op → Prop)
    [∀ world op, Decidable (Cond world op)] (world : World Thread Shared Own) (ops : List Op)
    (checked : every who step Cond world ops = true) : Meets (act who step) Cond world ops := by
  induction ops generalizing world with
  | nil => trivial
  | cons op ops ih =>
      rw [every, Bool.and_eq_true, decide_eq_true_eq] at checked
      refine ⟨checked.1, fun next taken => ?_⟩
      cases taken
      exact ih _ checked.2

section Counts

variable [Fintype Thread]

omit [DecidableEq Thread]

-- How many threads are as inside says.
def tally (inside : Own → Bool) (world : World Thread Shared Own) : Nat := ∑ thread, (inside (world.own thread)).toNat

theorem tally_put [DecidableEq Thread] (inside : Own → Bool) (world : World Thread Shared Own) (thread : Thread) (next : Shared × Own) :
    tally inside (world.put thread next) + (inside (world.own thread)).toNat = tally inside world + (inside next.2).toNat := by
  have others : ∑ other ∈ Finset.univ.erase thread, (inside ((world.put thread next).own other)).toNat =
      ∑ other ∈ Finset.univ.erase thread, (inside (world.own other)).toNat := by
    apply Finset.sum_congr rfl
    intro other member
    rw [put_there world thread next other (Finset.ne_of_mem_erase member)]
  unfold tally
  rw [← Finset.add_sum_erase Finset.univ _ (Finset.mem_univ thread), others, put_here,
    ← Finset.add_sum_erase Finset.univ (fun other => (inside (world.own other)).toNat) (Finset.mem_univ thread)]
  omega

omit [Fintype Thread] in
theorem tally_among (inside : Own → Bool) (world : World Thread Shared Own) (threads : Finset Thread) :
    ∑ thread ∈ threads, (inside (world.own thread)).toNat ≤ threads.card := by
  rw [Finset.card_eq_sum_ones]
  exact Finset.sum_le_sum fun thread _ => Bool.toNat_le (inside (world.own thread))

theorem tally_le (inside : Own → Bool) (world : World Thread Shared Own) : tally inside world ≤ Fintype.card Thread :=
  tally_among inside world Finset.univ

theorem tally_pos (inside : Own → Bool) (world : World Thread Shared Own) (thread : Thread)
    (here : inside (world.own thread) = true) : 0 < tally inside world := by
  apply Finset.sum_pos' (fun _ _ => Nat.zero_le _)
  exact ⟨thread, Finset.mem_univ thread, by rw [here]; decide⟩

theorem tally_zero (inside : Own → Bool) (world : World Thread Shared Own) (zero : tally inside world = 0) (thread : Thread) :
    inside (world.own thread) = false := by
  cases here : inside (world.own thread) with
  | false => rfl
  | true => exact absurd zero (Nat.ne_of_gt (tally_pos inside world thread here))

theorem tally_full (inside : Own → Bool) (world : World Thread Shared Own) (full : tally inside world = Fintype.card Thread)
    (thread : Thread) : inside (world.own thread) = true := by
  classical
  cases here : inside (world.own thread) with
  | true => rfl
  | false =>
      have rest := tally_among inside world (Finset.univ.erase thread)
      have whole := Finset.add_sum_erase Finset.univ (fun other => (inside (world.own other)).toNat) (Finset.mem_univ thread)
      have size : (Finset.univ.erase thread).card < Fintype.card Thread :=
        Finset.card_lt_card (Finset.erase_ssubset (Finset.mem_univ thread))
      simp only [here, Bool.toNat_false, Nat.zero_add] at whole
      unfold tally at full
      omega

end Counts

end Threads

import Mathlib.Logic.Basic

set_option autoImplicit false

namespace Runs

universe u v w x
variable {State : Type u} {Op : Type v} {Out : Type w} {Model : Type x}

-- A step that returns none has no defined result: the code faulted, never
-- returned or left the objects it owns. A run asks for a result at every step;
-- Good is about the states it goes through and Each about the steps it takes.
def Holds (step : State → Op → Option State) (Good : State → Prop) (Each : State → Op → Prop) : State → List Op → Prop
  | state, [] => Good state
  | state, op :: ops => Good state ∧ Each state op ∧ ∃ next, step state op = some next ∧ Holds step Good Each next ops

def Meets (step : State → Op → Option State) (Cond : State → Op → Prop) : State → List Op → Prop
  | _, [] => True
  | state, op :: ops => Cond state op ∧ ∀ next, step state op = some next → Meets step Cond next ops

theorem holds_mono (step : State → Op → Option State) (Good Weak : State → Prop) (Each : State → Op → Prop)
    (weaken : ∀ state, Good state → Weak state) (state : State) (ops : List Op)
    (holds : Holds step Good Each state ops) : Holds step Weak Each state ops := by
  induction ops generalizing state with
  | nil => exact weaken state holds
  | cons op ops ih =>
      obtain ⟨good, each, next, taken, rest⟩ := holds
      exact ⟨weaken state good, each, next, taken, ih next rest⟩

theorem invariant_holds (step : State → Op → Option State) (Inv : State → Prop) (Each Cond : State → Op → Prop)
    (preserved : ∀ state op, Inv state → Cond state op → Each state op ∧ ∃ next, step state op = some next ∧ Inv next)
    (state : State) (ops : List Op) (start : Inv state) (meets : Meets step Cond state ops) :
    Holds step Inv Each state ops := by
  induction ops generalizing state with
  | nil => exact start
  | cons op ops ih =>
      obtain ⟨each, next, taken, inv⟩ := preserved state op start meets.1
      exact ⟨start, each, next, taken, ih next inv (meets.2 next taken)⟩

-- Where an invariant holds whatever the steps do, a run has the property exactly
-- when each of its steps meets the condition.
theorem holds_iff_meets (step : State → Op → Option State) (Inv Good : State → Prop) (Each Cond : State → Op → Prop)
    (weaken : ∀ state, Inv state → Good state) (exact_step : ∀ state op, Inv state → (Each state op ↔ Cond state op))
    (preserved : ∀ state op, Inv state → ∃ next, step state op = some next ∧ Inv next) (state : State) (ops : List Op)
    (start : Inv state) : Holds step Good Each state ops ↔ Meets step Cond state ops := by
  induction ops generalizing state with
  | nil => exact ⟨fun _ => trivial, fun _ => weaken state start⟩
  | cons op ops ih =>
      obtain ⟨next, taken, inv⟩ := preserved state op start
      have once := exact_step state op start
      constructor
      · rintro ⟨-, each, other, same, rest⟩
        refine ⟨once.mp each, fun later reached => ?_⟩
        rw [same] at reached taken
        cases reached
        cases taken
        exact (ih _ inv).mp rest
      · rintro ⟨cond, rest⟩
        exact ⟨weaken state start, once.mpr cond, next, taken, (ih next inv).mpr (rest next taken)⟩

-- Where a step keeps a property exactly when it meets its condition, a run does.
theorem holds_iff_meets_kept (step : State → Op → Option State) (Good : State → Prop) (Each Cond : State → Op → Prop) (Legal : Op → Prop)
    (exact_step : ∀ state op, Good state → Legal op →
      ((Each state op ∧ ∃ next, step state op = some next ∧ Good next) ↔ Cond state op))
    (state : State) (ops : List Op) (start : Good state) (legal : ∀ op ∈ ops, Legal op) :
    Holds step Good Each state ops ↔ Meets step Cond state ops := by
  induction ops generalizing state with
  | nil => exact ⟨fun _ => trivial, fun _ => start⟩
  | cons op ops ih =>
      have once := exact_step state op start (legal op (by simp))
      have later : ∀ other ∈ ops, Legal other := fun other inside => legal other (by simp [inside])
      constructor
      · rintro ⟨-, each, next, taken, rest⟩
        have good : Good next := by
          cases ops with
          | nil => exact rest
          | cons other ops => exact rest.1
        refine ⟨once.mp ⟨each, next, taken, good⟩, fun other reached => ?_⟩
        rw [taken] at reached
        cases reached
        exact (ih next good later).mp rest
      · rintro ⟨cond, rest⟩
        obtain ⟨each, next, taken, good⟩ := once.mpr cond
        exact ⟨start, each, next, taken, (ih next good later).mpr (rest next taken)⟩

-- The same where only a stronger invariant, which the condition keeps, decides what a
-- step does.
theorem holds_iff_invariant (step : State → Op → Option State) (Inv Good : State → Prop) (Each Cond Legal : State → Op → Prop)
    (weaken : ∀ state, Inv state → Good state)
    (kept : ∀ state op, Inv state → Legal state op → Cond state op → Each state op ∧ ∃ next, step state op = some next ∧ Inv next)
    (only : ∀ state op next, Inv state → Legal state op → Each state op → step state op = some next → Good next → Cond state op)
    (state : State) (ops : List Op) (start : Inv state) (legal : Meets step Legal state ops) :
    Holds step Good Each state ops ↔ Meets step Cond state ops := by
  induction ops generalizing state with
  | nil => exact ⟨fun _ => trivial, fun _ => weaken state start⟩
  | cons op ops ih =>
      constructor
      · rintro ⟨-, each, next, taken, rest⟩
        have good : Good next := by
          cases ops with
          | nil => exact rest
          | cons other ops => exact rest.1
        have cond := only state op next start legal.1 each taken good
        obtain ⟨-, other, same, inv⟩ := kept state op start legal.1 cond
        refine ⟨cond, fun later reached => ?_⟩
        rw [taken] at same reached
        cases same
        cases reached
        exact (ih next inv (legal.2 next taken)).mp rest
      · rintro ⟨cond, rest⟩
        obtain ⟨each, next, taken, inv⟩ := kept state op start legal.1 cond
        exact ⟨weaken state start, each, next, taken, (ih next inv (legal.2 next taken)).mpr (rest next taken)⟩

-- Two conditions that agree wherever an invariant and a third condition hold, where
-- one of them keeps the invariant.
theorem meets_congr (step : State → Op → Option State) (Inv : State → Prop) (Legal Left Right : State → Op → Prop)
    (kept : ∀ state op next, Inv state → Legal state op → Right state op → step state op = some next → Inv next)
    (agree : ∀ state op, Inv state → Legal state op → (Left state op ↔ Right state op)) (state : State) (ops : List Op)
    (start : Inv state) (legal : Meets step Legal state ops) : Meets step Left state ops ↔ Meets step Right state ops := by
  induction ops generalizing state with
  | nil => exact Iff.rfl
  | cons op ops ih =>
      have onward : Right state op → ∀ next, step state op = some next →
          (Meets step Left next ops ↔ Meets step Right next ops) := fun right next taken =>
        ih next (kept state op next start legal.1 right taken) (legal.2 next taken)
      constructor
      · rintro ⟨left, rest⟩
        have right := (agree state op start legal.1).mp left
        exact ⟨right, fun next taken => (onward right next taken).mp (rest next taken)⟩
      · rintro ⟨right, rest⟩
        exact ⟨(agree state op start legal.1).mpr right, fun next taken => (onward right next taken).mpr (rest next taken)⟩

theorem meets_and (step : State → Op → Option State) (Left Right : State → Op → Prop) (state : State) (ops : List Op)
    (left : Meets step Left state ops) (right : Meets step Right state ops) :
    Meets step (fun state op => Left state op ∧ Right state op) state ops := by
  induction ops generalizing state with
  | nil => trivial
  | cons op ops ih =>
      exact ⟨⟨left.1, right.1⟩, fun next taken => ih next (left.2 next taken) (right.2 next taken)⟩

theorem meets_of_invariant (step : State → Op → Option State) (Inv : State → Prop) (Cond : State → Op → Prop)
    (preserved : ∀ state op, Inv state → Cond state op ∧ ∀ next, step state op = some next → Inv next) (state : State) (ops : List Op)
    (start : Inv state) : Meets step Cond state ops := by
  induction ops generalizing state with
  | nil => trivial
  | cons op ops ih =>
      obtain ⟨cond, kept⟩ := preserved state op start
      exact ⟨cond, fun next taken => ih next (kept next taken)⟩

-- A condition that can be computed, along the states of one run.
def passes (step : State → Op → Option State) (check : State → Op → Bool) : State → List Op → Bool
  | _, [] => true
  | state, op :: ops => check state op && (step state op).all fun next => passes step check next ops

theorem meets_of_passes (step : State → Op → Option State) (Inv : State → Prop) (Cond : State → Op → Prop) (check : State → Op → Bool)
    (sound : ∀ state op, Inv state → check state op = true → Cond state op ∧ ∀ next, step state op = some next → Inv next)
    (state : State) (ops : List Op) (start : Inv state) (passed : passes step check state ops = true) : Meets step Cond state ops := by
  induction ops generalizing state with
  | nil => trivial
  | cons op ops ih =>
      obtain ⟨here, later⟩ := Bool.and_eq_true_iff.mp passed
      obtain ⟨cond, kept⟩ := sound state op start here
      refine ⟨cond, fun next taken => ih next (kept next taken) ?_⟩
      rw [taken] at later
      exact later

-- Under two conditions the step keeps the invariant.
theorem meets_both_of_passes (step : State → Op → Option State) (Inv : State → Prop) (Each Legal Cond : State → Op → Prop) (check : State → Op → Bool)
    (preserved : ∀ state op, Inv state → Legal state op ∧ Cond state op → Each state op ∧ ∃ next, step state op = some next ∧ Inv next)
    (sound : ∀ state op, Inv state → check state op = true → Legal state op ∧ Cond state op)
    (state : State) (ops : List Op) (start : Inv state) (passed : passes step check state ops = true) :
    Meets step Legal state ops ∧ Meets step Cond state ops := by
  have kept : ∀ state op, Inv state → check state op = true → ∀ next, step state op = some next → Inv next :=
    fun state op inv fits other taken => by
      obtain ⟨-, next, answer, later⟩ := preserved state op inv (sound state op inv fits)
      cases answer.symm.trans taken
      exact later
  constructor
  · exact meets_of_passes step Inv Legal check (fun state op inv fits => ⟨(sound state op inv fits).1, kept state op inv fits⟩) state ops start passed
  · exact meets_of_passes step Inv Cond check (fun state op inv fits => ⟨(sound state op inv fits).2, kept state op inv fits⟩) state ops start passed

-- A specification step is total; what it returns is compared with what the
-- code returns, and the represented value with the state the code leaves.
def Refines (step : State → Op → Option (State × Out)) (spec : Model → Op → Model × Out)
    (Rep : State → Model → Prop) : State → Model → List Op → Prop
  | state, model, [] => Rep state model
  | state, model, op :: ops => Rep state model ∧
      ∃ next, step state op = some (next, (spec model op).2) ∧ Refines step spec Rep next (spec model op).1 ops

def Along (spec : Model → Op → Model × Out) (Cond : Model → Op → Prop) : Model → List Op → Prop
  | _, [] => True
  | model, op :: ops => Cond model op ∧ Along spec Cond (spec model op).1 ops

theorem refines_start (step : State → Op → Option (State × Out)) (spec : Model → Op → Model × Out)
    (Rep : State → Model → Prop) (state : State) (model : Model) (ops : List Op)
    (refines : Refines step spec Rep state model ops) : Rep state model := by
  cases ops with
  | nil => exact refines
  | cons op ops => exact refines.1

-- When one step simulates the specification exactly under a condition, a run
-- refines it exactly when every step meets that condition.
theorem refines_iff_along (step : State → Op → Option (State × Out)) (spec : Model → Op → Model × Out)
    (Rep : State → Model → Prop) (Legal Cond : Model → Op → Prop)
    (exact_step : ∀ state model op, Rep state model → Legal model op →
      ((∃ next, step state op = some (next, (spec model op).2) ∧ Rep next (spec model op).1) ↔ Cond model op))
    (state : State) (model : Model) (ops : List Op) (rep : Rep state model) (legal : Along spec Legal model ops) :
    Refines step spec Rep state model ops ↔ Along spec Cond model ops := by
  induction ops generalizing state model with
  | nil => exact ⟨fun _ => trivial, fun _ => rep⟩
  | cons op ops ih =>
      have once := exact_step state model op rep legal.1
      constructor
      · rintro ⟨_, next, taken, rest⟩
        have nextRep := refines_start step spec Rep next _ ops rest
        exact ⟨once.mp ⟨next, taken, nextRep⟩, (ih next _ nextRep legal.2).mp rest⟩
      · rintro ⟨cond, rest⟩
        obtain ⟨next, taken, nextRep⟩ := once.mpr cond
        exact ⟨rep, next, taken, (ih next _ nextRep legal.2).mpr rest⟩

-- The same where only a stronger relation, which the condition keeps, decides
-- what a step does.
theorem refines_iff_invariant (step : State → Op → Option (State × Out)) (spec : Model → Op → Model × Out)
    (Inv Rep : State → Model → Prop) (Legal Cond : Model → Op → Prop) (weaken : ∀ state model, Inv state model → Rep state model)
    (kept : ∀ state model op, Inv state model → Legal model op → Cond model op →
      ∃ next, step state op = some (next, (spec model op).2) ∧ Inv next (spec model op).1)
    (only : ∀ state model op next, Inv state model → Legal model op → step state op = some (next, (spec model op).2) →
      Rep next (spec model op).1 → Cond model op)
    (state : State) (model : Model) (ops : List Op) (start : Inv state model) (legal : Along spec Legal model ops) :
    Refines step spec Rep state model ops ↔ Along spec Cond model ops := by
  induction ops generalizing state model with
  | nil => exact ⟨fun _ => trivial, fun _ => weaken state model start⟩
  | cons op ops ih =>
      constructor
      · rintro ⟨_, next, taken, rest⟩
        have cond := only state model op next start legal.1 taken (refines_start step spec Rep next _ ops rest)
        obtain ⟨other, same, inv⟩ := kept state model op start legal.1 cond
        rw [taken] at same
        cases same
        exact ⟨cond, (ih next _ inv legal.2).mp rest⟩
      · rintro ⟨cond, rest⟩
        obtain ⟨next, taken, inv⟩ := kept state model op start legal.1 cond
        exact ⟨weaken state model start, next, taken, (ih next _ inv legal.2).mpr rest⟩

-- A stronger relation that steps keep under a condition carries a refinement
-- whose own relation is too weak to be kept alone.
theorem refines_of_invariant (step : State → Op → Option (State × Out)) (spec : Model → Op → Model × Out)
    (Inv Rep : State → Model → Prop) (Cond : Model → Op → Prop) (weaken : ∀ state model, Inv state model → Rep state model)
    (preserved : ∀ state model op, Inv state model → Cond model op →
      ∃ next, step state op = some (next, (spec model op).2) ∧ Inv next (spec model op).1)
    (state : State) (model : Model) (ops : List Op) (start : Inv state model) (along : Along spec Cond model ops) :
    Refines step spec Rep state model ops := by
  induction ops generalizing state model with
  | nil => exact weaken state model start
  | cons op ops ih =>
      obtain ⟨next, taken, nextInv⟩ := preserved state model op start along.1
      exact ⟨weaken state model start, next, taken, ih next _ nextInv along.2⟩

-- The condition may be one on the states that the code itself goes through.
def Allows (step : State → Op → Option (State × Out)) (Cond : State → Op → Prop) : State → List Op → Prop
  | _, [] => True
  | state, op :: ops => Cond state op ∧ ∀ next out, step state op = some (next, out) → Allows step Cond next ops

theorem allows_of_meets (step : State → Op → Option (State × Out)) (Cond : State → Op → Prop) (state : State) (ops : List Op)
    (meets : Meets (fun state op => (step state op).map Prod.fst) Cond state ops) : Allows step Cond state ops := by
  induction ops generalizing state with
  | nil => trivial
  | cons op ops ih =>
      refine ⟨meets.1, fun next out taken => ih next (meets.2 next ?_)⟩
      exact Option.map_eq_some_iff.mpr ⟨(next, out), taken, rfl⟩

theorem refines_of_allows (step : State → Op → Option (State × Out)) (spec : Model → Op → Model × Out)
    (Inv Rep : State → Model → Prop) (Cond : State → Op → Prop) (weaken : ∀ state model, Inv state model → Rep state model)
    (preserved : ∀ state model op, Inv state model → Cond state op →
      ∃ next, step state op = some (next, (spec model op).2) ∧ Inv next (spec model op).1)
    (state : State) (model : Model) (ops : List Op) (start : Inv state model) (allows : Allows step Cond state ops) :
    Refines step spec Rep state model ops := by
  induction ops generalizing state model with
  | nil => exact weaken state model start
  | cons op ops ih =>
      obtain ⟨next, taken, nextInv⟩ := preserved state model op start allows.1
      exact ⟨weaken state model start, next, taken, ih next _ nextInv (allows.2 next _ taken)⟩

theorem along_and (spec : Model → Op → Model × Out) (Left Right : Model → Op → Prop) (model : Model) (ops : List Op)
    (left : Along spec Left model ops) (right : Along spec Right model ops) :
    Along spec (fun state op => Left state op ∧ Right state op) model ops := by
  induction ops generalizing model with
  | nil => trivial
  | cons op ops ih => exact ⟨⟨left.1, right.1⟩, ih _ left.2 right.2⟩

-- Where each step keeps a relation to a model exactly under a condition, every beginning
-- of a run keeps it exactly when the condition holds along the run.
theorem beginnings_iff_along (step : State → Op → State) (spec : Model → Op → Model) (Rep : State → Model → Prop) (Legal Cond : Model → Op → Prop)
    (exact_step : ∀ state model op, Rep state model → Legal model op → (Rep (step state op) (spec model op) ↔ Cond model op))
    (state : State) (model : Model) (ops : List Op) (rep : Rep state model) (legal : Along (fun model op => (spec model op, ())) Legal model ops) :
    (∀ n, Rep ((ops.take n).foldl step state) ((ops.take n).foldl spec model)) ↔ Along (fun model op => (spec model op, ())) Cond model ops := by
  induction ops generalizing state model with
  | nil => exact ⟨fun _ => trivial, fun _ n => by simpa using rep⟩
  | cons op ops ih =>
      have once := exact_step state model op rep legal.1
      constructor
      · intro all
        have nextRep : Rep (step state op) (spec model op) := by simpa using all 1
        exact ⟨once.mp nextRep, (ih _ _ nextRep legal.2).mp fun n => by simpa using all (n + 1)⟩
      · rintro ⟨cond, rest⟩ n
        cases n with
        | zero => exact rep
        | succ n => simpa using (ih _ _ (once.mpr cond) legal.2).mpr rest n

end Runs

import Mathlib.Data.BitVec
import OsZero.Lib.Threads
import OsZero.Sync.Atomic

set_option autoImplicit false

namespace OsZero.Sync.Spin

open Runs Threads

variable {Thread : Type} [DecidableEq Thread]

def ZEROSPININITVAL : BitVec 64 := 0
def ZEROSPINLKVAL : BitVec 64 := 1

-- What a thread does next. Held is the time between a return that says that the lock is
-- held and the call of spinunlk.
inductive Pc where
  | out
  | spin
  | held
deriving DecidableEq

inductive Call where
  | spinlk
  | spintrylk
  | spinunlk
deriving DecidableEq

-- m_cmpswap tells whether it has swapped: one for yes.
def cmpswap (sp : BitVec 64) : BitVec 64 × BitVec 64 :=
  let swapped := mcmpswap sp ZEROSPININITVAL ZEROSPINLKVAL
  (swapped.1, if swapped.2 then 1 else 0)

-- A turn of while (res != ZEROSPININITVAL).
def spinturn (sp : BitVec 64) : BitVec 64 × Pc :=
  let res := cmpswap sp
  (res.1, if res.2 ≠ ZEROSPININITVAL then .spin else .held)

def spintrylk (sp : BitVec 64) : BitVec 64 × Pc :=
  let res := cmpswap sp
  (res.1, if res.2 = ZEROSPININITVAL then .held else .out)

def spinstep (op : Thread × Call) (sp : BitVec 64) (pc : Pc) : BitVec 64 × Pc :=
  match pc, op.2 with
  | .out, .spinlk => (sp, .spin)
  | .out, .spintrylk => spintrylk sp
  | .spin, _ => spinturn sp
  | .held, .spinunlk => (ZEROSPININITVAL, .out)
  | pc, _ => (sp, pc)

-- Who is let in found the word locked, and who locks the word is not let in.
structure Barges (world : World Thread (BitVec 64) Pc) (op : Thread × Call) : Prop where
  entered : world.own op.1 ≠ .held → (after Prod.fst spinstep world op).own op.1 = .held →
    world.shared ≠ ZEROSPININITVAL ∧ (after Prod.fst spinstep world op).shared = world.shared
  locked : world.shared = ZEROSPININITVAL → (after Prod.fst spinstep world op).shared ≠ ZEROSPININITVAL →
    (after Prod.fst spinstep world op).own op.1 ≠ .held

theorem cmpswap_taken (sp : BitVec 64) (taken : sp ≠ ZEROSPININITVAL) : cmpswap sp = (sp, 0) := by
  rw [cmpswap, cmpswap_other sp _ _ taken]
  rfl

theorem spinturn_free : spinturn ZEROSPININITVAL = (ZEROSPINLKVAL, .spin) := by decide

theorem spintrylk_free : spintrylk ZEROSPININITVAL = (ZEROSPINLKVAL, .out) := by decide

theorem spinturn_taken (sp : BitVec 64) (taken : sp ≠ ZEROSPININITVAL) : spinturn sp = (sp, .held) := by
  rw [spinturn, cmpswap_taken sp taken]
  rfl

theorem spintrylk_taken (sp : BitVec 64) (taken : sp ≠ ZEROSPININITVAL) : spintrylk sp = (sp, .held) := by
  rw [spintrylk, cmpswap_taken sp taken]
  rfl

section Steps

variable (world : World Thread (BitVec 64) Pc) (op : Thread × Call)

theorem step_barges : Barges world op := by
  obtain ⟨thread, call⟩ := op
  have free : ZEROSPINLKVAL ≠ ZEROSPININITVAL := by decide
  constructor
  · intro outside inside
    rw [after, put_here] at inside
    rw [after, put_shared]
    by_cases taken : world.shared = ZEROSPININITVAL
    · cases pc : world.own thread with
      | out => cases call <;> simp [spinstep, pc, taken, spintrylk_free] at inside
      | spin => simp [spinstep, pc, taken, spinturn_free] at inside
      | held => exact absurd pc outside
    · refine ⟨taken, ?_⟩
      cases pc : world.own thread with
      | out => cases call <;> simp [spinstep, spintrylk_taken _ taken]
      | spin => simp [spinstep, spinturn_taken _ taken]
      | held => exact absurd pc outside
  · intro taken locks
    rw [after, put_shared, taken] at locks
    rw [after, put_here, taken]
    cases pc : world.own thread with
    | out => cases call <;> simp [spinstep, spintrylk_free]
    | spin => simp [spinstep, spinturn_free]
    | held => cases call <;> simp [spinstep, pc] at locks

-- Without spinunlk a locked word stays locked and who is in stays in.
theorem step_keeps (kept : op.2 ≠ .spinunlk) (thread : Thread) :
    (world.shared ≠ ZEROSPININITVAL → (after Prod.fst spinstep world op).shared ≠ ZEROSPININITVAL) ∧
      (world.own thread = .held → (after Prod.fst spinstep world op).own thread = .held) ∧
      (world.own thread = .spin → op.1 ≠ thread → (after Prod.fst spinstep world op).own thread = .spin) := by
  refine ⟨fun taken => ?_, fun inside => ?_, fun spins other => ?_⟩
  · rw [after, put_shared]
    cases pc : world.own op.1 with
    | out => cases call : op.2 <;> simp [spinstep, call, spintrylk_taken _ taken, taken]
    | spin => simpa [spinstep, spinturn_taken _ taken] using taken
    | held => cases call : op.2 <;> simp_all [spinstep]
  · by_cases own : thread = op.1
    · rw [own] at inside ⊢
      rw [after, put_here, inside]
      cases call : op.2 <;> simp_all [spinstep]
    · rw [after, put_there _ _ _ _ own]
      exact inside
  · rw [after, put_there _ _ _ _ (Ne.symm other)]
    exact spins

end Steps

section Runs

variable (world : World Thread (BitVec 64) Pc) (ops : List (Thread × Call))

theorem held_stays (kept : ∀ op ∈ ops, op.2 ≠ .spinunlk) (thread : Thread) (inside : world.own thread = .held) :
    (run Prod.fst spinstep world ops).own thread = .held := by
  induction ops generalizing world with
  | nil => exact inside
  | cons op ops ih =>
    have once := (step_keeps world op (kept op List.mem_cons_self) thread).2.1 inside
    exact ih (after Prod.fst spinstep world op) (fun other member => kept other (List.mem_cons_of_mem _ member)) once

theorem locked_enters (kept : ∀ op ∈ ops, op.2 ≠ .spinunlk) (thread : Thread) (taken : world.shared ≠ ZEROSPININITVAL) (spins : world.own thread = .spin)
    (turn : 1 ≤ ops.countP fun op => op.1 = thread) : (run Prod.fst spinstep world ops).own thread = .held := by
  induction ops generalizing world with
  | nil => contradiction
  | cons op ops ih =>
    have rest : ∀ other ∈ ops, other.2 ≠ .spinunlk := fun other member => kept other (List.mem_cons_of_mem _ member)
    have keeps := step_keeps world op (kept op List.mem_cons_self) thread
    by_cases own : op.1 = thread
    · refine held_stays (after Prod.fst spinstep world op) ops rest thread ?_
      rw [after, own, put_here, spins]
      exact congrArg Prod.snd (spinturn_taken _ taken)
    · refine ih (after Prod.fst spinstep world op) rest (keeps.1 taken) (keeps.2.2 spins own) ?_
      rwa [List.countP_cons_of_neg (by simpa using own)] at turn

theorem twice_enters (kept : ∀ op ∈ ops, op.2 ≠ .spinunlk) (thread : Thread) (spins : world.own thread = .spin)
    (turns : 2 ≤ ops.countP fun op => op.1 = thread) :
    (run Prod.fst spinstep world ops).own thread = .held := by
  induction ops generalizing world with
  | nil => contradiction
  | cons op ops ih =>
    have rest : ∀ other ∈ ops, other.2 ≠ .spinunlk := fun other member => kept other (List.mem_cons_of_mem _ member)
    have keeps := step_keeps world op (kept op List.mem_cons_self) thread
    by_cases taken : world.shared = ZEROSPININITVAL
    · by_cases own : op.1 = thread
      · have next : spinstep op world.shared (world.own op.1) = (ZEROSPINLKVAL, .spin) := by
          rw [own, spins, taken]
          exact spinturn_free
        refine locked_enters (after Prod.fst spinstep world op) ops rest thread ?_ ?_ ?_
        · rw [after, put_shared, next]
          decide
        · rw [after, ← own, put_here, next]
        · rw [List.countP_cons_of_pos (by simpa using own)] at turns
          omega
      · refine ih (after Prod.fst spinstep world op) rest (keeps.2.2 spins own) ?_
        rwa [List.countP_cons_of_neg (by simpa using own)] at turns
    · exact locked_enters world (op :: ops) kept thread taken spins (by omega)

end Runs

-- The lock keeps nobody out: in every interleaving in which nobody gives it back, a
-- thread that has called spinlk is in after two turns of its own.
theorem spinlk_admits (world : World Thread (BitVec 64) Pc) (ops : List (Thread × Call)) :
    Holds (act Prod.fst spinstep) (fun _ => True) Barges world ops ∧
      ((∀ op ∈ ops, op.2 ≠ .spinunlk) → ∀ thread, world.own thread = .spin → 2 ≤ (ops.countP fun op => op.1 = thread) →
        (run Prod.fst spinstep world ops).own thread = .held) := by
  refine ⟨?_, fun kept thread spins turns => twice_enters world ops kept thread spins turns⟩
  apply act_holds Prod.fst spinstep (fun _ => True) _ _ (fun _ _ => True) (fun _ inv => inv) ?_ world ops trivial
    (always_meets Prod.fst spinstep world ops)
  exact fun now op _ _ => ⟨step_barges now op, trivial⟩

end OsZero.Sync.Spin

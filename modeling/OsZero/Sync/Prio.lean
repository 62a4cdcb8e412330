import Mathlib.Data.BitVec
import OsZero.Lib.Threads
import OsZero.Sync.Atomic

set_option autoImplicit false

namespace OsZero.Sync.Prio

open Runs Threads

variable {Thread : Type} [DecidableEq Thread]

-- owner is the priolkdata of a thread, and each thread has one of its own.
structure Priolk (Thread : Type) where
  owner : Option Thread
  waitbits : BitVec 64

structure Priolkdata where
  val : BitVec 64
  orig : BitVec 64

-- What a thread does next; prio is the local variable of priolkget, whose mask
-- is always prio - 1 where it is used.
inductive Pc where
  | out
  | spin (prio : BitVec 64)
  | swap (prio : BitVec 64)
  | setbits (prio : BitVec 64)
  | spinbits (prio : BitVec 64)
  | dropbits (prio : BitVec 64)
  | swapbits (prio : BitVec 64)
  | clearbits (prio : BitVec 64)
  | held
  | release
  | restore
deriving DecidableEq

structure Own where
  data : Priolkdata
  pc : Pc

def blocked (lk : Priolk Thread) (prio : BitVec 64) : Bool := lk.waitbits &&& (prio - 1) != 0

def priolkspin (lk : Priolk Thread) (own : Own) (prio : BitVec 64) : Own :=
  if blocked lk prio then { own with pc := .spin (if own.data.val ≠ prio then own.data.val else prio) }
  else { own with pc := .swap prio }

-- priolkget takes a result of zero for success.
def priolkswap (thread : Thread) (lk : Priolk Thread) (own : Own) (prio : BitVec 64) : Priolk Thread × Own :=
  let res := mcmpswap lk.owner none (some thread)
  ({ lk with owner := res.1 }, { own with pc := if !res.2 then .held else .setbits prio })

def priolkspinbits (lk : Priolk Thread) (own : Own) (prio : BitVec 64) : Own :=
  if blocked lk prio then { own with pc := if own.data.val ≠ prio then .dropbits prio else .spinbits prio }
  else { own with pc := .swapbits prio }

def priolkswapbits (thread : Thread) (lk : Priolk Thread) (own : Own) (prio : BitVec 64) : Priolk Thread × Own :=
  let res := mcmpswap lk.owner none (some thread)
  ({ lk with owner := res.1 },
    if !res.2 then { own with pc := .clearbits prio }
    else { data := { own.data with val := if prio < own.data.val then prio else own.data.val }, pc := .spinbits prio })

def priolkstep (thread : Thread) (lk : Priolk Thread) (own : Own) : Priolk Thread × Own :=
  match own.pc with
  | .out => (lk, { own with pc := .spin own.data.val })
  | .spin prio => (lk, priolkspin lk own prio)
  | .swap prio => priolkswap thread lk own prio
  | .setbits prio => ({ lk with waitbits := lk.waitbits ||| prio }, { own with pc := .spinbits prio })
  | .spinbits prio => (lk, priolkspinbits lk own prio)
  | .dropbits prio => ({ lk with waitbits := lk.waitbits &&& ~~~prio }, { own with pc := .setbits own.data.val })
  | .swapbits prio => priolkswapbits thread lk own prio
  | .clearbits prio => ({ lk with waitbits := lk.waitbits &&& ~~~prio }, { own with pc := .held })
  | .held => (lk, { own with pc := .release })
  | .release => ({ lk with owner := none }, { own with pc := .restore })
  | .restore => (lk, { data := { own.data with val := own.data.orig }, pc := .out })

def start (prios : Thread → BitVec 64) : World Thread (Priolk Thread) Own :=
  ⟨⟨none, 0⟩, fun thread => ⟨⟨prios thread, prios thread⟩, .out⟩⟩

-- Held is the time between the return from priolkget and the call of priolkrel.
def Exclusive (world : World Thread (Priolk Thread) Own) : Prop :=
  ∀ one two, (world.own one).pc = .held → (world.own two).pc = .held → one = two

def Pc.swaps : Pc → Bool
  | .swap _ => true
  | .swapbits _ => true
  | _ => false

-- No compare-and-swap is made while the lock is another thread's.
def Sound (world : World Thread (Priolk Thread) Own) (thread : Thread) : Prop :=
  (world.own thread).pc.swaps = true → world.shared.owner = none ∨ world.shared.owner = some thread

instance (world : World Thread (Priolk Thread) Own) (thread : Thread) : Decidable (Sound world thread) :=
  inferInstanceAs (Decidable (_ → _))

def Pc.keeps : Pc → Bool
  | .clearbits _ => true
  | .held => true
  | .release => true
  | _ => false

def Owned (world : World Thread (Priolk Thread) Own) : Prop :=
  ∀ thread, (world.own thread).pc.keeps = true → world.shared.owner = some thread

-- What one step can do to the owner and to the threads that keep the lock.
inductive Effect (thread : Thread) (lk : Priolk Thread) (pc : Pc) (owner : Option Thread) (next : Pc) : Prop where
  | quiet (same : owner = lk.owner) (kept : next.keeps = true → pc.keeps = true)
  | won (swaps : pc.swaps = true) (free : lk.owner = none) (taken : owner = some thread) (away : next.keeps = false)
  | lost (swaps : pc.swaps = true) (busy : lk.owner ≠ none) (same : owner = lk.owner)
  | released (held : pc = .release) (free : owner = none) (away : next.keeps = false)

-- The two compare-and-swaps differ in where the thread goes on.
theorem cmpswap_effect (thread : Thread) (lk : Priolk Thread) (pc : Pc) (swaps : pc.swaps = true) (next : Bool → Pc)
    (away : (next false).keeps = false) :
    Effect thread lk pc (mcmpswap lk.owner none (some thread)).1 (next !(mcmpswap lk.owner none (some thread)).2) := by
  by_cases free : lk.owner = none
  · have res : mcmpswap lk.owner none (some thread) = (some thread, true) := by rw [free, cmpswap_same]
    rw [res]
    exact .won swaps free rfl away
  · rw [cmpswap_other _ _ _ free]
    exact .lost swaps free rfl

theorem swap_effect (thread : Thread) (lk : Priolk Thread) (own : Own) (prio : BitVec 64) (here : own.pc = .swap prio) :
    Effect thread lk own.pc (priolkswap thread lk own prio).1.owner (priolkswap thread lk own prio).2.pc := by
  have swaps : own.pc.swaps = true := by rw [here]; rfl
  exact cmpswap_effect thread lk own.pc swaps (fun failed => if failed then .held else .setbits prio) rfl

theorem swapbits_effect (thread : Thread) (lk : Priolk Thread) (own : Own) (prio : BitVec 64) (here : own.pc = .swapbits prio) :
    Effect thread lk own.pc (priolkswapbits thread lk own prio).1.owner (priolkswapbits thread lk own prio).2.pc := by
  have swaps : own.pc.swaps = true := by rw [here]; rfl
  have onward : (priolkswapbits thread lk own prio).2.pc =
      if !(mcmpswap lk.owner none (some thread)).2 then .clearbits prio else .spinbits prio := apply_ite Own.pc _ _ _
  rw [onward]
  exact cmpswap_effect thread lk own.pc swaps (fun failed => if failed then .clearbits prio else .spinbits prio) rfl

theorem step_effect (thread : Thread) (lk : Priolk Thread) (own : Own) :
    Effect thread lk own.pc (priolkstep thread lk own).1.owner (priolkstep thread lk own).2.pc := by
  unfold priolkstep
  cases here : own.pc with
  | out => exact .quiet rfl fun kept => by cases kept
  | spin prio =>
      refine .quiet rfl fun kept => ?_
      dsimp only [priolkspin] at kept
      split at kept <;> cases kept
  | swap prio =>
      have effect := swap_effect thread lk own prio here
      rwa [here] at effect
  | setbits prio => exact .quiet rfl fun kept => by cases kept
  | spinbits prio =>
      refine .quiet rfl fun kept => ?_
      dsimp only [priolkspinbits] at kept
      split at kept
      · dsimp only at kept
        split at kept <;> cases kept
      · cases kept
  | dropbits prio => exact .quiet rfl fun kept => by cases kept
  | swapbits prio =>
      have effect := swapbits_effect thread lk own prio here
      rwa [here] at effect
  | clearbits prio => exact .quiet rfl fun _ => rfl
  | held => exact .quiet rfl fun _ => rfl
  | release => exact .released rfl rfl rfl
  | restore => exact .quiet rfl fun kept => by cases kept

theorem owned_step (world : World Thread (Priolk Thread) Own) (thread : Thread) (owned : Owned world) (sound : Sound world thread) :
    Owned (after id priolkstep world thread) := by
  have effect := step_effect thread world.shared (world.own thread)
  apply put_all world thread (priolkstep thread world.shared (world.own thread)) fun other own =>
    own.pc.keeps = true → (priolkstep thread world.shared (world.own thread)).1.owner = some other
  · intro keeps
    cases effect with
    | quiet same kept => rw [same, owned thread (kept keeps)]
    | won _ _ _ away =>
        rw [away] at keeps
        cases keeps
    | lost swaps busy same =>
        rw [same]
        exact (sound swaps).resolve_left busy
    | released _ _ away =>
        rw [away] at keeps
        cases keeps
  · intro other different keeps
    have owner := owned other keeps
    cases effect with
    | quiet same _ => rw [same, owner]
    | won _ free _ _ =>
        rw [free] at owner
        cases owner
    | lost _ _ same => rw [same, owner]
    | released held _ _ =>
        -- the thread that gives the lock back has it
        have mine := owned thread (by rw [held]; rfl)
        rw [mine] at owner
        exact absurd (Option.some.inj owner).symm different

omit [DecidableEq Thread] in
theorem owned_exclusive (world : World Thread (Priolk Thread) Own) (owned : Owned world) : Exclusive world := by
  intro one two left right
  have first := owned one (by rw [left]; rfl)
  have second := owned two (by rw [right]; rfl)
  rw [first] at second
  exact Option.some.inj second

theorem priolk_exclusive (prios : Thread → BitVec 64) (steps : List Thread) (sound : Meets (act id priolkstep) Sound (start prios) steps) :
    Holds (act id priolkstep) Exclusive (fun _ _ => True) (start prios) steps := by
  apply act_holds id priolkstep Owned Exclusive _ Sound owned_exclusive ?_ (start prios) steps ?_ sound
  · exact fun world thread owned sound => ⟨trivial, owned_step world thread owned sound⟩
  · intro thread keeps
    cases keeps

-- Each of two threads gets the lock with its second compare-and-swap, which finds its
-- own data there, the second one after the first one's release.
def handover (first second : Thread) : List Thread :=
  List.replicate 7 first ++ [second] ++ List.replicate 3 first ++ List.replicate 6 second

def priorities (first : Thread) : Thread → BitVec 64 := fun thread => if thread = first then 1 else 2

theorem priolk_exclusive_handover :
    Meets (act id priolkstep) Sound (start (priorities (0 : Fin 2))) (handover 0 1) ∧
      Holds (act id priolkstep) Exclusive (fun _ _ => True) (start (priorities (0 : Fin 2))) (handover 0 1) ∧
      ((((handover 0 1).take 7).foldl (after id priolkstep) (start (priorities (0 : Fin 2)))).own 0).pc = .held ∧
      (((handover 0 1).foldl (after id priolkstep) (start (priorities (0 : Fin 2)))).own 1).pc = .held := by
  have sound : Meets (act id priolkstep) Sound (start (priorities (0 : Fin 2))) (handover 0 1) :=
    meets_every id priolkstep Sound _ _ (by decide +kernel)
  exact ⟨sound, priolk_exclusive (priorities 0) (handover 0 1) sound, by decide +kernel, by decide +kernel⟩

-- The second thread's compare-and-swap finds the first one's data and fails,
-- which priolkget takes for success.
theorem priolk_two_holders :
    ¬ Holds (act id priolkstep) Exclusive (fun _ _ => True) (start fun thread : Fin 2 => if thread = 0 then 1 else 2)
      [0, 0, 0, 0, 0, 0, 0, 1, 1, 1] := by
  intro holds
  have exclusive := holds_run id priolkstep _ _ _ _ holds
  exact absurd (exclusive 0 1 (by decide +kernel) (by decide +kernel)) (by decide)

end OsZero.Sync.Prio

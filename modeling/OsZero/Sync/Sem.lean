import OsZero.Lib.Threads
import OsZero.Sync.Atomic

set_option autoImplicit false

namespace OsZero.Sync.Sem

open Runs Threads

variable {Thread : Type} [DecidableEq Thread]

def ZEROSEM_MAXVAL : Nat := 2 ^ 64 - 1

-- The lock names the thread that has set it. posts and waits are no part of the
-- semaphore: how many posts and successful waits have stored their value.
structure Zerosem (Thread : Type) where
  lk : Option Thread
  val : Nat
  posts : Nat
  waits : Nat

inductive Call where
  | semwait
  | semtrywait
  | sempost
deriving DecidableEq

-- What a thread does next. Unlk is the fmtxunlk of a call, which then returns or
-- starts again.
inductive Pc where
  | out
  | lock (call : Call)
  | test (call : Call)
  | testmax
  | load (call : Call)
  | store (call : Call) (val : Nat)
  | unlk (call : Call) (returns : Bool)
deriving DecidableEq

-- semtrywait locks under ZEROfMTX, which is never defined.
def semcall : Call → Pc
  | .semwait => .lock .semwait
  | .semtrywait => .test .semtrywait
  | .sempost => .lock .sempost

def fmtxtrylk (thread : Thread) (sem : Zerosem Thread) : Zerosem Thread × Bool :=
  let res := mcmpswap sem.lk none (some thread)
  ({ sem with lk := res.1 }, res.2)

-- The loop over fmtxtrylk: semwait goes on when it succeeds, sempost when it fails.
def semlock (thread : Thread) (sem : Zerosem Thread) (call : Call) : Zerosem Thread × Pc :=
  let res := fmtxtrylk thread sem
  (res.1, if call = .sempost then (if res.2 then .lock call else .test call) else if !res.2 then .lock call else .test call)

def semtest (sem : Zerosem Thread) : Call → Pc
  | .semwait => if 0 < sem.val then .load .semwait else .unlk .semwait false
  | .semtrywait => if 0 < sem.val then .load .semtrywait else .unlk .semtrywait true
  | .sempost => if sem.val = 0 then .unlk .sempost false else .testmax

-- At the largest value sempost returns with no fmtxunlk.
def semtestmax (sem : Zerosem Thread) : Pc := if sem.val ≠ ZEROSEM_MAXVAL then .load .sempost else .out

def semstore (sem : Zerosem Thread) (val : Nat) : Call → Zerosem Thread
  | .sempost => { sem with val := (val + 1) % 2 ^ 64, posts := sem.posts + 1 }
  | _ => { sem with val := (2 ^ 64 - 1 + val) % 2 ^ 64, waits := sem.waits + 1 }

def semstep (op : Thread × Call) (sem : Zerosem Thread) (pc : Pc) : Zerosem Thread × Pc :=
  match pc with
  | .out => (sem, semcall op.2)
  | .lock call => semlock op.1 sem call
  | .test call => (sem, semtest sem call)
  | .testmax => (sem, semtestmax sem)
  | .load call => (sem, .store call sem.val)
  | .store call val => (semstore sem val call, .unlk call true)
  | .unlk call returns => ({ sem with lk := none }, if returns then .out else .lock call)

def start (val : Nat) : World Thread (Zerosem Thread) Pc := ⟨⟨none, val, 0, 0⟩, fun _ => .out⟩

structure Good (initial : Nat) (world : World Thread (Zerosem Thread) Pc) : Prop where
  value : world.shared.val + world.shared.waits = initial + world.shared.posts
  range : world.shared.val ≤ ZEROSEM_MAXVAL
  released : ∀ thread, world.own thread = .out → world.shared.lk ≠ some thread

structure Each (world : World Thread (Zerosem Thread) Pc) (op : Thread × Call) : Prop where
  locked : (after Prod.fst semstep world op).shared.val ≠ world.shared.val → world.shared.lk = some op.1
  completes : world.own op.1 = .test .sempost → world.shared.val = 0 →
    ∃ count, (alone semstep op count (world.shared, world.own op.1)).2 = .out

-- A sempost finds the lock free or its own and a value that is neither zero nor
-- the largest; a semtrywait finds the value zero, and the lock free when it unlocks.
def Pc.sound (thread : Thread) (sem : Zerosem Thread) : Pc → Bool
  | .lock .sempost => sem.lk = none ∨ sem.lk = some thread
  | .test .sempost => sem.val ≠ 0
  | .testmax => sem.val ≠ ZEROSEM_MAXVAL
  | .test .semtrywait => sem.val = 0
  | .unlk .semtrywait _ => sem.lk = none
  | _ => true

def Sound (world : World Thread (Zerosem Thread) Pc) (op : Thread × Call) : Prop := (world.own op.1).sound op.1 world.shared = true

instance (world : World Thread (Zerosem Thread) Pc) (op : Thread × Call) : Decidable (Sound world op) :=
  inferInstanceAs (Decidable (_ = true))

def Placed (sem : Zerosem Thread) (thread : Thread) : Pc → Prop
  | .out => sem.lk ≠ some thread
  | .lock .semwait => sem.lk ≠ some thread
  | .lock .semtrywait => False
  | .lock .sempost => True
  | .test .semtrywait => sem.lk ≠ some thread
  | .test _ => sem.lk = some thread
  | .testmax => sem.lk = some thread
  | .load .semwait => sem.lk = some thread ∧ 0 < sem.val
  | .load .semtrywait => False
  | .load .sempost => sem.lk = some thread ∧ sem.val ≠ ZEROSEM_MAXVAL
  | .store .semwait val => sem.lk = some thread ∧ 0 < sem.val ∧ val = sem.val
  | .store .semtrywait _ => False
  | .store .sempost val => sem.lk = some thread ∧ sem.val ≠ ZEROSEM_MAXVAL ∧ val = sem.val
  | .unlk .semtrywait returns => sem.lk ≠ some thread ∧ returns = true
  | .unlk _ _ => sem.lk = some thread

structure Inv (initial : Nat) (world : World Thread (Zerosem Thread) Pc) : Prop where
  value : world.shared.val + world.shared.waits = initial + world.shared.posts
  range : world.shared.val ≤ ZEROSEM_MAXVAL
  placed : ∀ thread, Placed world.shared thread (world.own thread)

omit [DecidableEq Thread] in
theorem inv_good (initial : Nat) (world : World Thread (Zerosem Thread) Pc) (inv : Inv initial world) : Good initial world := by
  refine ⟨inv.value, inv.range, fun thread here => ?_⟩
  have placed := inv.placed thread
  rwa [here] at placed

omit [DecidableEq Thread] in
-- What another thread relies on: its own lock, and the value while it has it.
theorem placed_frame (sem next : Zerosem Thread) (thread : Thread) (pc : Pc) (placed : Placed sem thread pc)
    (lk : next.lk = some thread ↔ sem.lk = some thread) (val : sem.lk = some thread → next.val = sem.val) :
    Placed next thread pc := by
  cases pc with
  | out => simpa [Placed, lk] using placed
  | lock call =>
      cases call with
      | semwait => simpa [Placed, lk] using placed
      | semtrywait => exact placed
      | sempost => exact True.intro
  | test call => cases call <;> simpa [Placed, lk] using placed
  | testmax => simpa [Placed, lk] using placed
  | load call =>
      cases call with
      | semtrywait => exact placed
      | semwait => exact ⟨lk.mpr placed.1, by rw [val placed.1]; exact placed.2⟩
      | sempost => exact ⟨lk.mpr placed.1, by rw [val placed.1]; exact placed.2⟩
  | store call loaded =>
      cases call with
      | semtrywait => exact placed
      | semwait => exact ⟨lk.mpr placed.1, by rw [val placed.1]; exact placed.2⟩
      | sempost => exact ⟨lk.mpr placed.1, by rw [val placed.1]; exact placed.2⟩
  | unlk call returns => cases call <;> simpa [Placed, lk] using placed

theorem inv_put (initial : Nat) (world : World Thread (Zerosem Thread) Pc) (thread : Thread) (next : Zerosem Thread × Pc)
    (inv : Inv initial world) (value : next.1.val + next.1.waits = initial + next.1.posts) (range : next.1.val ≤ ZEROSEM_MAXVAL)
    (here : Placed next.1 thread next.2) (lk : ∀ other, other ≠ thread → (next.1.lk = some other ↔ world.shared.lk = some other))
    (val : ∀ other, other ≠ thread → world.shared.lk = some other → next.1.val = world.shared.val) :
    Inv initial (world.put thread next) := by
  refine ⟨value, range, ?_⟩
  apply put_all world thread next (Placed next.1)
  · exact here
  · intro other different
    exact placed_frame world.shared next.1 other _ (inv.placed other) (lk other different) (val other different)

theorem inv_still (initial : Nat) (world : World Thread (Zerosem Thread) Pc) (thread : Thread) (next : Pc) (inv : Inv initial world)
    (here : Placed world.shared thread next) : Inv initial (world.put thread (world.shared, next)) :=
  inv_put initial world thread _ inv inv.value inv.range here (fun _ _ => Iff.rfl) fun _ _ _ => rfl

theorem lock_step (initial : Nat) (world : World Thread (Zerosem Thread) Pc) (thread : Thread) (call : Call) (inv : Inv initial world)
    (placed : Placed world.shared thread (.lock call)) (sound : (Pc.lock call).sound thread world.shared = true) :
    Inv initial (world.put thread (semlock thread world.shared call)) := by
  unfold semlock fmtxtrylk
  by_cases free : world.shared.lk = none
  · rw [free, cmpswap_same]
    apply inv_put initial world thread _ inv inv.value inv.range ?_ (lk_taken thread world.shared.lk free) fun _ _ _ => rfl
    cases call with
    | semwait => exact Eq.refl (some thread)
    | semtrywait => exact placed.elim
    | sempost => exact True.intro
  · rw [cmpswap_other _ _ _ free]
    apply inv_still initial world thread _ inv
    cases call with
    | semwait => exact placed
    | semtrywait => exact placed
    | sempost =>
        have mine : world.shared.lk = none ∨ world.shared.lk = some thread := by simpa [Pc.sound] using sound
        exact mine.resolve_left free

omit [DecidableEq Thread] in
@[simp] theorem semstore_lk (sem : Zerosem Thread) (val : Nat) (call : Call) : (semstore sem val call).lk = sem.lk := by
  cases call <;> rfl

theorem stored_inv (initial : Nat) (world : World Thread (Zerosem Thread) Pc) (thread : Thread) (call : Call) (val : Nat)
    (inv : Inv initial world) (mine : world.shared.lk = some thread) (locks : call ≠ .semtrywait)
    (value : (semstore world.shared val call).val + (semstore world.shared val call).waits =
      initial + (semstore world.shared val call).posts)
    (range : (semstore world.shared val call).val ≤ ZEROSEM_MAXVAL) :
    Inv initial (world.put thread (semstore world.shared val call, .unlk call true)) := by
  apply inv_put initial world thread _ inv value range
  · have kept : (semstore world.shared val call).lk = some thread := by rw [semstore_lk, mine]
    cases call with
    | semwait => exact kept
    | semtrywait => exact absurd rfl locks
    | sempost => exact kept
  · intro other _
    rw [semstore_lk]
  · intro other different theirs
    rw [mine] at theirs
    exact absurd (Option.some.inj theirs).symm different

theorem store_step (initial : Nat) (world : World Thread (Zerosem Thread) Pc) (thread : Thread) (call : Call) (val : Nat)
    (inv : Inv initial world) (placed : Placed world.shared thread (.store call val)) :
    Inv initial (world.put thread (semstore world.shared val call, .unlk call true)) ∧ world.shared.lk = some thread := by
  have value := inv.value
  have range := inv.range
  unfold ZEROSEM_MAXVAL at range
  cases call with
  | semtrywait => exact placed.elim
  | semwait =>
      obtain ⟨mine, positive, rfl⟩ := placed
      refine ⟨stored_inv initial world thread .semwait _ inv mine (by simp) ?_ ?_, mine⟩
      · simp only [semstore]
        omega
      · simp only [semstore, ZEROSEM_MAXVAL]
        omega
  | sempost =>
      obtain ⟨mine, more, rfl⟩ := placed
      unfold ZEROSEM_MAXVAL at more
      refine ⟨stored_inv initial world thread .sempost _ inv mine (by simp) ?_ ?_, mine⟩
      · simp only [semstore]
        omega
      · simp only [semstore, ZEROSEM_MAXVAL]
        omega

theorem unlk_step (initial : Nat) (world : World Thread (Zerosem Thread) Pc) (thread : Thread) (call : Call) (returns : Bool)
    (inv : Inv initial world) (placed : Placed world.shared thread (.unlk call returns))
    (sound : (Pc.unlk call returns).sound thread world.shared = true) :
    Inv initial (world.put thread ({ world.shared with lk := none }, if returns then .out else .lock call)) := by
  apply inv_put initial world thread _ inv inv.value inv.range
  · cases returns with
    | true => exact fun held => by cases held
    | false =>
        cases call with
        | semwait => exact fun held => by cases held
        | semtrywait => cases placed.2
        | sempost => exact True.intro
  · cases call with
    | semtrywait =>
        have free : world.shared.lk = none := by simpa [Pc.sound] using sound
        intro other _
        rw [free]
    | semwait => exact lk_released thread world.shared.lk placed
    | sempost => exact lk_released thread world.shared.lk placed
  · exact fun _ _ _ => rfl

theorem inv_step (initial : Nat) (world : World Thread (Zerosem Thread) Pc) (op : Thread × Call) (inv : Inv initial world)
    (sound : Sound world op) : Inv initial (after Prod.fst semstep world op) := by
  have placed := inv.placed op.1
  have still := inv_still initial world op.1
  unfold Sound at sound
  unfold after semstep
  cases here : world.own op.1 with
  | out =>
      rw [here] at placed
      apply still _ inv
      cases op.2 with
      | semwait => exact placed
      | semtrywait => exact placed
      | sempost => exact True.intro
  | lock call =>
      rw [here] at placed sound
      exact lock_step initial world op.1 call inv placed sound
  | test call =>
      rw [here] at placed sound
      apply still _ inv
      cases call with
      | semwait =>
          dsimp only [semtest]
          by_cases positive : 0 < world.shared.val
          · rw [if_pos positive]
            exact ⟨placed, positive⟩
          · rw [if_neg positive]
            exact placed
      | semtrywait =>
          have zero : world.shared.val = 0 := by simpa [Pc.sound] using sound
          dsimp only [semtest]
          rw [if_neg (by omega)]
          exact ⟨placed, rfl⟩
      | sempost =>
          have nonzero : world.shared.val ≠ 0 := by simpa [Pc.sound] using sound
          dsimp only [semtest]
          rw [if_neg nonzero]
          exact placed
  | testmax =>
      rw [here] at placed sound
      have less : world.shared.val ≠ ZEROSEM_MAXVAL := by simpa [Pc.sound] using sound
      apply still _ inv
      rw [semtestmax, if_pos less]
      exact ⟨placed, less⟩
  | load call =>
      rw [here] at placed
      apply still _ inv
      cases call with
      | semwait => exact ⟨placed.1, placed.2, rfl⟩
      | semtrywait => exact placed
      | sempost => exact ⟨placed.1, placed.2, rfl⟩
  | store call val =>
      rw [here] at placed
      exact (store_step initial world op.1 call val inv placed).1
  | unlk call returns =>
      rw [here] at placed sound
      exact unlk_step initial world op.1 call returns inv placed sound

theorem val_same (world : World Thread (Zerosem Thread) Pc) (op : Thread × Call)
    (elsewhere : ∀ call val, world.own op.1 ≠ .store call val) :
    (after Prod.fst semstep world op).shared.val = world.shared.val := by
  unfold after semstep
  rw [put_shared]
  cases here : world.own op.1 with
  | store call val => exact absurd here (elsewhere call val)
  | lock call => simp only [semlock, fmtxtrylk]
  | _ => rfl

theorem each_step (initial : Nat) (world : World Thread (Zerosem Thread) Pc) (op : Thread × Call) (inv : Inv initial world)
    (sound : Sound world op) : Each world op := by
  constructor
  · intro changed
    by_cases stores : ∃ call val, world.own op.1 = .store call val
    · obtain ⟨call, val, here⟩ := stores
      have placed := inv.placed op.1
      rw [here] at placed
      exact (store_step initial world op.1 call val inv placed).2
    · exact absurd (val_same world op fun call val here => stores ⟨call, val, here⟩) changed
  · intro here zero
    unfold Sound at sound
    rw [here] at sound
    exact absurd zero (by simpa [Pc.sound] using sound)

theorem sem_counts (initial : Nat) (range : initial ≤ ZEROSEM_MAXVAL) (steps : List (Thread × Call))
    (sound : Meets (act Prod.fst semstep) Sound (start initial) steps) :
    Holds (act Prod.fst semstep) (Good initial) Each (start initial) steps := by
  apply act_holds Prod.fst semstep (Inv initial) (Good initial) Each Sound (inv_good initial) ?_ (start initial) steps ?_ sound
  · exact fun world op inv sound => ⟨each_step initial world op inv sound, inv_step initial world op inv sound⟩
  · refine ⟨rfl, range, fun thread => ?_⟩
    exact fun held => by cases held

theorem sem_counts_turns :
    Meets (act Prod.fst semstep) Sound (start 1)
        [((0 : Fin 2), Call.sempost), (0, .sempost), (1, .semwait), (1, .semwait), (0, .sempost), (0, .sempost), (0, .sempost),
          (0, .sempost), (0, .sempost), (0, .sempost), (1, .semwait), (1, .semwait), (1, .semwait), (1, .semwait), (1, .semwait)] ∧
      Holds (act Prod.fst semstep) (Good 1) Each (start 1)
        [((0 : Fin 2), Call.sempost), (0, .sempost), (1, .semwait), (1, .semwait), (0, .sempost), (0, .sempost), (0, .sempost),
          (0, .sempost), (0, .sempost), (0, .sempost), (1, .semwait), (1, .semwait), (1, .semwait), (1, .semwait), (1, .semwait)] := by
  have sound : Meets (act Prod.fst semstep) Sound (start 1)
      [((0 : Fin 2), Call.sempost), (0, .sempost), (1, .semwait), (1, .semwait), (0, .sempost), (0, .sempost), (0, .sempost),
        (0, .sempost), (0, .sempost), (0, .sempost), (1, .semwait), (1, .semwait), (1, .semwait), (1, .semwait), (1, .semwait)] :=
    meets_every Prod.fst semstep Sound _ _ (by decide +kernel)
  exact ⟨sound, sem_counts 1 (by decide +kernel) _ sound⟩

-- A sempost that finds the value zero goes round its loop as long as nobody else
-- changes the value, and no sempost does.
def Spins (now : Zerosem Thread × Pc) : Prop :=
  now.1.val = 0 ∧ (now.2 = .lock .sempost ∨ now.2 = .test .sempost ∨ now.2 = .unlk .sempost false)

theorem sempost_zero_spins (thread : Thread) (call : Call) (count : Nat) (now : Zerosem Thread × Pc) (spins : Spins now) :
    Spins (alone semstep (thread, call) count now) := by
  induction count generalizing now with
  | zero => exact spins
  | succ count ih =>
      obtain ⟨sem, pc⟩ := now
      obtain ⟨zero, place⟩ := spins
      apply ih
      dsimp only at zero place
      obtain rfl | rfl | rfl := place
      · refine ⟨zero, ?_⟩
        by_cases free : sem.lk = none
        · exact .inl (by simp [semstep, semlock, fmtxtrylk, free, cmpswap_same])
        · exact .inr (.inl (by simp [semstep, semlock, fmtxtrylk, cmpswap_other _ _ _ free]))
      · exact ⟨zero, .inr (.inr (by simp [semstep, semtest, zero]))⟩
      · exact ⟨zero, .inl (by simp [semstep])⟩

-- Two threads' semtrywait both take the one unit there is.
theorem semtrywait_takes_twice :
    ¬ Holds (act Prod.fst semstep) (Good 1) Each (start 1)
      [((0 : Fin 2), Call.semtrywait), (1, .semtrywait), (0, .semtrywait), (1, .semtrywait), (0, .semtrywait), (1, .semtrywait),
        (0, .semtrywait), (1, .semtrywait)] := by
  intro holds
  have good := holds_run Prod.fst semstep _ _ _ _ holds
  exact absurd good.value (by decide +kernel)

end OsZero.Sync.Sem

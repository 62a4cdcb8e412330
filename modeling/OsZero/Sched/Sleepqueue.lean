import Mathlib.Data.List.Induction
import Mathlib.Data.List.Perm.Subperm
import OsZero.Lib.Chains

set_option autoImplicit false

namespace OsZero.Sched.Sleepqueue

open Chains

variable {Task : Type} [DecidableEq Task]

-- The links of the tasks, and the first task of schedsleepqueue.
structure Queue (Task : Type) where
  list : Option Task
  next : Task → Option Task
  prev : Task → Option Task

section Code

variable (timelim : Task → Int) (waitchan : Task → Bool)

def putBefore (queue : Queue Task) (task sleeptask : Task) : Queue Task :=
  { queue with
    prev := Function.update (Function.update queue.prev task (queue.prev sleeptask)) sleeptask (some task)
    next := Function.update queue.next task (some sleeptask) }

def putLast (queue : Queue Task) (task sleeptask : Task) : Queue Task :=
  { queue with
    prev := Function.update queue.prev task (some sleeptask)
    next := Function.update (Function.update queue.next task none) sleeptask (some task) }

-- while ((sleeptask) && (sleeptask->next)) from a task of the queue, with what follows it.
-- The next link of the task in front is not set.
def sleepLoop (queue : Queue Task) (task : Task) : Nat → Task → Option (Queue Task)
  | 0, _ => none
  | fuel + 1, sleeptask =>
      match queue.next sleeptask with
      | some following =>
          if timelim task < timelim sleeptask then some (putBefore queue task sleeptask) else sleepLoop queue task fuel following
      | none => some (putLast queue task sleeptask)

-- schedsetwait leaves the queue alone.
def schedsetsleep (fuel : Nat) (queue : Queue Task) (task : Task) : Option (Queue Task) :=
  if waitchan task then some queue
  else
    match queue.list with
    | some sleeptask => sleepLoop timelim queue task fuel sleeptask
    | none => some { list := some task, prev := Function.update queue.prev task none, next := Function.update queue.next task none }

def empty : Queue Task := ⟨none, fun _ => none, fun _ => none⟩

def run (fuel : Nat) (tasks : List Task) : Option (Queue Task) := tasks.foldlM (schedsetsleep timelim waitchan fuel) empty

-- Is the task to wake before one that is not the last?
def overtakes (task : Task) : List Task → Bool
  | sleeptask :: following :: items => decide (timelim task < timelim sleeptask) || overtakes task (following :: items)
  | _ => false

-- A task that overtakes is never reached again; every other one comes last.
def enqueue (items : List Task) (task : Task) : List Task := if overtakes timelim task items then items else items ++ [task]

end Code

section Steps

variable (timelim : Task → Int) (task : Task) (queue : Queue Task)

theorem loop_outcome (items : List Task) (last sleeptask : Task) (fuel : Nat) (seg : Seg queue.next (some sleeptask) (items ++ [last]) none)
    (enough : items.length < fuel) : ∃ after, sleepLoop timelim queue task fuel sleeptask = some after ∧ after.list = queue.list ∧
      if overtakes timelim task (items ++ [last]) then ∃ link, after.next = Function.update queue.next task link
      else after.next = Function.update (Function.update queue.next task none) last (some task) := by
  induction items generalizing sleeptask fuel with
  | nil =>
    obtain ⟨fuel, rfl⟩ := Nat.exists_eq_add_one_of_ne_zero (Nat.ne_of_gt enough)
    obtain ⟨same, ends⟩ := seg
    obtain rfl := Option.some.inj same
    have nothing : queue.next sleeptask = none := ends
    exact ⟨putLast queue task sleeptask, by simp only [sleepLoop, nothing], rfl, rfl⟩
  | cons first items ih =>
    obtain ⟨fuel, rfl⟩ := Nat.exists_eq_add_one_of_ne_zero (Nat.ne_of_gt (Nat.lt_of_le_of_lt (Nat.zero_le _) enough))
    obtain ⟨same, seg⟩ := seg
    obtain rfl := Option.some.inj same
    obtain ⟨following, next⟩ := seg_starts queue.next _ none items last seg
    obtain ⟨second, rest, split⟩ : ∃ second rest, items ++ [last] = second :: rest := List.exists_cons_of_ne_nil (by simp)
    by_cases less : timelim task < timelim sleeptask
    · refine ⟨putBefore queue task sleeptask, by simp only [sleepLoop, next, if_pos less], rfl, ?_⟩
      rw [List.cons_append, split, overtakes, decide_eq_true less, Bool.true_or, if_pos rfl]
      exact ⟨some sleeptask, rfl⟩
    · rw [next] at seg
      obtain ⟨after, done, kept, outcome⟩ := ih following fuel seg (Nat.lt_of_succ_lt_succ enough)
      refine ⟨after, by simp only [sleepLoop, next, if_neg less, done], kept, ?_⟩
      rw [List.cons_append, split, overtakes, decide_eq_false less, Bool.false_or, ← split]
      exact outcome

theorem setsleep_seg (items : List Task) (fuel : Nat) (seg : Seg queue.next queue.list items none) (nodup : items.Nodup) (fresh : task ∉ items)
    (enough : items.length ≤ fuel) : ∃ after, schedsetsleep timelim (fun _ => false) fuel queue task = some after ∧
      Seg after.next after.list (enqueue timelim items task) none := by
  cases items using List.reverseRecOn with
  | nil =>
    have nothing : queue.list = none := seg
    refine ⟨⟨some task, Function.update queue.next task none, Function.update queue.prev task none⟩, by simp [schedsetsleep, nothing], ?_⟩
    simp [enqueue, overtakes, Seg]
  | append_singleton items last =>
    obtain ⟨sleeptask, first⟩ := seg_starts queue.next queue.list none items last seg
    rw [first] at seg
    rw [List.length_append, List.length_singleton] at enough
    obtain ⟨after, done, kept, outcome⟩ := loop_outcome timelim task queue items last sleeptask fuel seg enough
    refine ⟨after, by simp [schedsetsleep, first, done], ?_⟩
    rw [kept, first, enqueue]
    by_cases passes : overtakes timelim task (items ++ [last]) = true
    · rw [if_pos passes] at outcome ⊢
      obtain ⟨link, next⟩ := outcome
      rw [next]
      exact seg_update queue.next _ none link _ task seg fresh
    · rw [if_neg passes] at outcome ⊢
      have apart : task ≠ last := fun same => fresh (by simp [same])
      have laid := seg_update queue.next _ none none _ task seg fresh
      refine (seg_append _ _ none _ [task]).mpr ⟨some task, ?_, rfl, ?_⟩
      · rw [outcome]
        exact seg_redirect _ _ none (some task) items last laid nodup
      · rw [outcome, Function.update_of_ne apart, Function.update_self]
        rfl

end Steps

section Runs

variable (timelim : Task → Int)

omit [DecidableEq Task] in
theorem enqueue_sublist (items : List Task) (task : Task) : (enqueue timelim items task).Sublist (items ++ [task]) := by
  unfold enqueue
  split
  · exact List.sublist_append_left items [task]
  · exact List.Sublist.refl _

omit [DecidableEq Task] in
theorem enqueues_sublist (tasks : List Task) : (tasks.foldl (enqueue timelim) []).Sublist tasks := by
  induction tasks using List.reverseRecOn with
  | nil => exact List.Sublist.refl _
  | append_singleton tasks task ih =>
    rw [List.foldl_append]
    exact (enqueue_sublist timelim _ task).trans (List.Sublist.append_right ih [task])

theorem run_seg (tasks : List Task) (once : tasks.Nodup) (fuel : Nat) (enough : tasks.length ≤ fuel) :
    ∃ queue, run timelim (fun _ => false) fuel tasks = some queue ∧ Seg queue.next queue.list (tasks.foldl (enqueue timelim) []) none := by
  induction tasks using List.reverseRecOn with
  | nil => exact ⟨empty, rfl, rfl⟩
  | append_singleton tasks task ih =>
    rw [List.length_append, List.length_singleton] at enough
    have others := (List.nodup_append.mp once).1
    have fresh : task ∉ tasks := fun member => (List.nodup_append.mp once).2.2 task member task (List.mem_singleton_self task) rfl
    obtain ⟨queue, done, seg⟩ := ih others (by omega)
    have part := enqueues_sublist timelim tasks
    have short := part.length_le
    obtain ⟨after, stepped, later⟩ := setsleep_seg timelim task queue _ fuel seg (others.sublist part) (fun member => fresh (part.subset member)) (by omega)
    refine ⟨after, ?_, ?_⟩
    · have before : tasks.foldlM (schedsetsleep timelim (fun _ => false) fuel) empty = some queue := done
      rw [run, List.foldlM_append, before]
      simpa using stepped
    · rwa [List.foldl_append]

omit [DecidableEq Task] in
theorem overtakes_sorted (items : List Task) (task : Task) (after : ∀ other ∈ items, timelim other ≤ timelim task) : overtakes timelim task items = false := by
  induction items with
  | nil => rfl
  | cons first items ih =>
    cases items with
    | nil => rfl
    | cons second items =>
      rw [overtakes, ih fun other member => after other (List.mem_cons_of_mem _ member), Bool.or_false, decide_eq_false_iff_not]
      exact Int.not_lt.mpr (after first List.mem_cons_self)

omit [DecidableEq Task] in
theorem enqueues_sorted (tasks : List Task) (sorted : tasks.Pairwise fun one two => timelim one ≤ timelim two) : tasks.foldl (enqueue timelim) [] = tasks := by
  induction tasks using List.reverseRecOn with
  | nil => rfl
  | append_singleton tasks task ih =>
    obtain ⟨before, -, after⟩ := List.pairwise_append.mp sorted
    rw [List.foldl_append, ih before, List.foldl_cons, List.foldl_nil, enqueue,
      overtakes_sorted timelim tasks task fun other member => after other member task (List.mem_singleton_self task)]
    rfl

end Runs

-- A task that waits for a channel changes nothing.
theorem run_filter (timelim : Task → Int) (waitchan : Task → Bool) (fuel : Nat) (tasks : List Task) :
    run timelim waitchan fuel tasks = run timelim (fun _ => false) fuel (tasks.filter fun task => !waitchan task) := by
  have from_queue : ∀ queue, tasks.foldlM (schedsetsleep timelim waitchan fuel) queue =
      (tasks.filter fun task => !waitchan task).foldlM (schedsetsleep timelim (fun _ => false) fuel) queue := by
    induction tasks with
    | nil => exact fun _ => rfl
    | cons task tasks ih =>
      intro queue
      cases waits : waitchan task with
      | true =>
        have same : schedsetsleep timelim waitchan fuel queue task = some queue := by rw [schedsetsleep, if_pos waits]
        rw [List.foldlM_cons, same, List.filter_cons_of_neg (by simp [waits])]
        exact ih queue
      | false =>
        have same : schedsetsleep timelim waitchan fuel queue task = schedsetsleep timelim (fun _ => false) fuel queue task := by
          simp only [schedsetsleep, waits]
        rw [List.foldlM_cons, same, List.filter_cons_of_pos (by simp [waits]), List.foldlM_cons]
        exact congrArg _ (funext ih)
  exact from_queue empty

-- Every sleeping task is in the queue, in the order in which they are to wake, exactly
-- when they went to sleep in that order.
theorem schedsetsleep_iff (timelim : Task → Int) (waitchan : Task → Bool) (tasks : List Task) (once : tasks.Nodup) :
    ∃ queue items, run timelim waitchan tasks.length tasks = some queue ∧ Seg queue.next queue.list items none ∧
      items = (tasks.filter fun task => !waitchan task).foldl (enqueue timelim) [] ∧
      (((∀ task ∈ tasks, waitchan task = false → task ∈ items) ∧ items.Pairwise fun one two => timelim one ≤ timelim two) ↔
        (tasks.filter fun task => !waitchan task).Pairwise fun one two => timelim one ≤ timelim two) := by
  rw [run_filter]
  have sleepers : (tasks.filter fun task => !waitchan task).Nodup := once.sublist List.filter_sublist
  obtain ⟨queue, done, seg⟩ := run_seg timelim (tasks.filter fun task => !waitchan task) sleepers tasks.length (List.length_filter_le _ tasks)
  have part := enqueues_sublist timelim (tasks.filter fun task => !waitchan task)
  refine ⟨queue, _, done, seg, rfl, fun ⟨all, ordered⟩ => ?_, fun sorted => ?_⟩
  · have whole : (tasks.filter fun task => !waitchan task) ⊆ (tasks.filter fun task => !waitchan task).foldl (enqueue timelim) [] := by
      intro task member
      obtain ⟨inside, sleeps⟩ := List.mem_filter.mp member
      exact all task inside (by simpa using sleeps)
    have same := part.eq_of_length_le (sleepers.subperm whole).length_le
    rwa [same] at ordered
  · rw [enqueues_sorted timelim _ sorted]
    exact ⟨fun task inside sleeps => List.mem_filter.mpr ⟨inside, by simp [sleeps]⟩, sorted⟩

-- The third of three sleepers is to wake first and cannot be reached.
theorem schedsetsleep_iff_three : ∃ queue items, run (fun task : Nat => (task : Int)) (fun _ => false) 3 [2, 3, 1] = some queue ∧
    Seg queue.next queue.list items none ∧ items = [2, 3] := by
  obtain ⟨queue, items, done, seg, kept, -⟩ := schedsetsleep_iff (fun task : Nat => (task : Int)) (fun _ => false) [2, 3, 1] (by decide)
  exact ⟨queue, items, done, seg, kept.trans (by decide)⟩

end OsZero.Sched.Sleepqueue

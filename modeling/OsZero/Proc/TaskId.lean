import OsZero.Deq.Single

set_option autoImplicit false

namespace OsZero.Proc

open Links Runs Deq

def tasknpredef : Nat := 6

def ntask : Nat := 4096

-- The node taskidqueue and the entries of taskidtab.
inductive Node where
  | queue
  | entry (id : Nat)
deriving DecidableEq

structure TaskIds where
  links : Heap Node
  id : Node → Int
  lk : Node → Bool

-- Static data starts out zeroed.
def zeroed : TaskIds := ⟨⟨fun _ => none, fun _ => none⟩, fun _ => 0, fun _ => false⟩

-- A result is none when a NULL pointer or something outside taskidtab is
-- accessed, or when the lock is never obtained.
def fmtxlk (node : Node) (mem : TaskIds) : Option TaskIds :=
  if mem.lk node then none else some { mem with lk := fun other => if other = node then true else mem.lk other }

def fmtxunlk (node : Option Node) (mem : TaskIds) : Option TaskIds :=
  node.map fun node => { mem with lk := fun other => if other = node then false else mem.lk other }

def setid (node : Node) (id : Int) (mem : TaskIds) : TaskIds :=
  { mem with id := fun other => if other = node then id else mem.id other }

-- queue is the local variable of each function: what deqappend and deqpop store
-- through &queue is not kept.
def append (node : Node) (queue : Option Node) (mem : TaskIds) : Option (TaskIds × Option Node) := do
  let after ← deqappend node ⟨mem.links, queue⟩
  some ({ mem with links := after.links }, after.deq)

def initloop : List Nat → Option Node → TaskIds → Option (TaskIds × Option Node)
  | [], queue, mem => some (mem, queue)
  | id :: ids, queue, mem => do
      let after ← append (.entry id) queue (setid (.entry id) id mem)
      initloop ids after.2 after.1

def taskinitids (mem : TaskIds) : Option TaskIds := do
  let mem ← fmtxlk .queue mem
  let after ← initloop (List.range' tasknpredef (ntask - tasknpredef)) (some .queue) mem
  fmtxunlk after.2 after.1

def taskgetid (mem : TaskIds) : Option (TaskIds × Int) := do
  let mem ← fmtxlk .queue mem
  let after ← deqpop ⟨mem.links, some .queue⟩
  let mem := { mem with links := after.1.links }
  let done ← fmtxunlk after.2 mem
  some (done, after.2.elim (-1) mem.id)

def taskfreeid (id : Nat) (mem : TaskIds) : Option TaskIds :=
  if id < ntask then
    do
      let mem ← fmtxlk .queue mem
      let after ← append (.entry id) (some .queue) mem
      fmtxunlk after.2 after.1
  else none

inductive Call where
  | taskgetid
  | taskfreeid (id : Nat)

-- The memory and the ids handed out so far; an id that is not handed out is not freed.
structure Ids where
  mem : TaskIds
  out : List Int

def idStep (ids : Ids) : Call → Option Ids
  | .taskgetid => (taskgetid ids.mem).map fun after => ⟨after.1, if after.2 = -1 then ids.out else after.2 :: ids.out⟩
  | .taskfreeid id =>
      if (id : Int) ∈ ids.out then (taskfreeid id ids.mem).map fun mem => ⟨mem, ids.out.erase id⟩ else some ids

def Taskid (id : Int) : Prop := (tasknpredef : Int) ≤ id ∧ id < ntask

def GivesId (ids : Ids) : Call → Prop
  | .taskgetid => ∀ mem id, taskgetid ids.mem = some (mem, id) →
      (Taskid id ∧ id ∉ ids.out) ∨ (id = -1 ∧ ∀ other, Taskid other → other ∈ ids.out)
  | .taskfreeid _ => True

def Unlocked (ids : Ids) : Prop := ids.mem.lk .queue = false

def ServesIds (calls : List Call) : Prop :=
  ∃ mem, taskinitids zeroed = some mem ∧ Holds idStep Unlocked GivesId ⟨mem, []⟩ calls

theorem append_unlinked (node : Node) (mem : TaskIds) (unlinked : mem.links.prev .queue = none) : append node (some .queue) mem = none := by
  simp [append, deqappend, linkbefore, unlinked]

-- The first entry is appended to a queue whose prev is still NULL.
theorem taskinitids_faults : taskinitids zeroed = none := by
  have start : List.range' tasknpredef (ntask - tasknpredef) = tasknpredef :: List.range' (tasknpredef + 1) (ntask - tasknpredef - 1) := rfl
  have first : ∀ mem : TaskIds, mem.links.prev .queue = none →
      initloop (List.range' tasknpredef (ntask - tasknpredef)) (some .queue) mem = none := by
    intro mem unlinked
    rw [start, initloop, append_unlinked _ (setid (.entry tasknpredef) tasknpredef mem) unlinked]
    rfl
  rw [taskinitids, fmtxlk, if_neg (by simp [zeroed])]
  simp only [Option.bind_eq_bind, Option.bind_some]
  rw [first _ rfl]
  rfl

theorem append_frame (node : Node) (queue : Option Node) (mem after : TaskIds) (head : Option Node)
    (run : append node queue mem = some (after, head)) : after.id = mem.id ∧ (queue ≠ none → head = queue) := by
  unfold append at run
  cases queue with
  | none =>
    simp only [deqappend, linkbefore, Option.bind_eq_bind, Option.bind_some, Option.some.injEq, Prod.mk.injEq] at run
    rw [← run.1]
    exact ⟨rfl, fun some => absurd rfl some⟩
  | some list =>
    cases last : mem.links.prev list with
    | none => simp [deqappend, linkbefore, last] at run
    | some node =>
      simp only [deqappend, linkbefore, last, Option.bind_eq_bind, Option.bind_some, Option.some.injEq, Prod.mk.injEq] at run
      rw [← run.1]
      exact ⟨rfl, fun _ => run.2.symm⟩

-- Whatever is linked there, what comes off is the queue node itself, and its lock is released.
theorem taskgetid_header (mem after : TaskIds) (id : Int) (run : taskgetid mem = some (after, id)) :
    id = mem.id .queue ∧ after.id = mem.id ∧ after.lk .queue = false := by
  unfold taskgetid fmtxlk at run
  split_ifs at run with held
  · simp at run
  · simp only [Option.bind_eq_bind, Option.bind_some, deqpop] at run
    by_cases singular : deqissingular mem.links .queue
    · simp only [singular, not_true_eq_false, if_false, Option.bind_some, fmtxunlk, Option.map_some, Option.elim, Option.some.injEq,
        Prod.mk.injEq] at run
      obtain ⟨rfl, rfl⟩ := run
      simp
    · rw [if_pos singular] at run
      cases rest : Deq.unlink mem.links .queue with
      | none => simp [rest] at run
      | some links =>
        simp only [rest, Option.bind_some, fmtxunlk, Option.map_some, Option.elim, Option.some.injEq, Prod.mk.injEq] at run
        obtain ⟨rfl, rfl⟩ := run
        simp

theorem taskfreeid_ids (id : Nat) (mem after : TaskIds) (run : taskfreeid id mem = some after) : after.id = mem.id := by
  unfold taskfreeid fmtxlk at run
  split_ifs at run with known held
  · simp at run
  · simp only [Option.bind_eq_bind, Option.bind_some] at run
    cases step : append (.entry id) (some .queue) { mem with lk := fun other => if other = .queue then true else mem.lk other } with
    | none =>
      rw [step] at run
      simp at run
    | some next =>
      have frame := append_frame _ _ _ next.1 next.2 step
      simp only [step, Option.bind_some, fmtxunlk, frame.2 (by simp), Option.map_some, Option.some.injEq] at run
      rw [← run]
      exact frame.1

-- Even on a queue node that somebody had linked, no id would be served.
theorem taskgetid_serves_none (mem after : TaskIds) (id : Int) (unwritten : mem.id .queue = 0) (run : taskgetid mem = some (after, id)) :
    ¬Taskid id ∧ id ≠ -1 ∧ after.id .queue = 0 := by
  obtain ⟨rfl, kept, -⟩ := taskgetid_header mem after id run
  rw [unwritten, kept]
  refine ⟨?_, by decide, unwritten⟩
  rintro ⟨low, -⟩
  simp [tasknpredef] at low

theorem idStep_unwritten (ids next : Ids) (call : Call) (unwritten : ids.mem.id .queue = 0) (run : idStep ids call = some next) :
    next.mem.id .queue = 0 := by
  cases call with
  | taskgetid =>
    obtain ⟨after, got, rfl⟩ := Option.map_eq_some_iff.mp run
    exact (taskgetid_serves_none ids.mem after.1 after.2 unwritten got).2.2
  | taskfreeid id =>
    simp only [idStep] at run
    split_ifs at run with out
    · obtain ⟨mem, freed, rfl⟩ := Option.map_eq_some_iff.mp run
      rw [taskfreeid_ids id ids.mem mem freed]
      exact unwritten
    · cases run
      exact unwritten

def ServesNone (ids : Ids) : Call → Prop
  | .taskgetid => ∀ mem id, taskgetid ids.mem = some (mem, id) → ¬Taskid id
  | .taskfreeid _ => True

theorem idrun_serves_none (ids : Ids) (calls : List Call) (unwritten : ids.mem.id .queue = 0) : Meets idStep ServesNone ids calls := by
  induction calls generalizing ids with
  | nil => trivial
  | cons call calls ih =>
    refine ⟨?_, fun next taken => ih next (idStep_unwritten ids next call unwritten taken)⟩
    cases call with
    | taskgetid => exact fun mem id got => (taskgetid_serves_none ids.mem mem id unwritten got).1
    | taskfreeid id => trivial

theorem taskids_never (calls : List Call) : ¬ServesIds calls := by
  rintro ⟨mem, start, -⟩
  rw [taskinitids_faults] at start
  simp at start

theorem taskids_fail : ¬∀ calls, ServesIds calls := by
  intro all
  obtain ⟨mem, start, -⟩ := all [.taskgetid]
  rw [taskinitids_faults] at start
  simp at start

end OsZero.Proc

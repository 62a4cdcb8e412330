import OsZero.Sched.Set
import Mathlib.Data.List.Find

set_option autoImplicit false

namespace OsZero.Sched

open Links Runs

universe u
variable {τ : Type u} [DecidableEq τ]

-- What the queue set is for: a list of tasks behind every queue number.
structure Model (τ : Type u) where
  attr : τ → Attr
  queue : Which → Nat → List τ

def limit : Which → Nat
  | .cur => schednqueue
  | .next => schednqueue
  | .idle => schednidle

def Model.setQueue (model : Model τ) (which : Which) (ndx : Nat) (tasks : List τ) : Model τ :=
  { model with queue := fun other place => if other = which ∧ place = ndx then tasks else model.queue other place }

def readySpec (units : Units) (task : τ) (model : Model τ) : Model τ :=
  let placed := schedplace units (model.attr task)
  let model := { model with attr := fun other => if other = task then placed.2 else model.attr other }
  model.setQueue placed.1.which placed.1.ndx.toNat (model.queue placed.1.which placed.1.ndx.toNat ++ [task])

def lowest (queue : Nat → List τ) (lim : Nat) : Option Nat := (List.range lim).find? fun ndx => queue ndx ≠ []

def popSpec (which : Which) (ndx : Nat) (model : Model τ) : Model τ × Option τ :=
  (model.setQueue which ndx (model.queue which ndx).tail, (model.queue which ndx).head?)

def swapSpec (model : Model τ) : Model τ :=
  { model with queue := fun
      | .cur => model.queue .next
      | .next => model.queue .cur
      | .idle => model.queue .idle }

def pickSpec (model : Model τ) : Model τ × Option τ :=
  match lowest (model.queue .cur) schednqueue with
  | some ndx => popSpec .cur ndx model
  | none =>
      match lowest (model.queue .next) schednqueue with
      | some ndx => popSpec .cur ndx (swapSpec model)
      | none =>
          match lowest (model.queue .idle) schednidle with
          | some ndx => popSpec .idle ndx (swapSpec model)
          | none => (swapSpec model, none)

inductive Op (τ : Type u) where
  | setready (task : τ)
  | switchtask (curtask : τ)

def schedStep (units : Units) (mpmultiproc : Bool) (unit : Nat) (set : SchedSet τ) : Op τ → Option (SchedSet τ × Option τ)
  | .setready task => (schedsetready units task set).map (·, none)
  | .switchtask curtask => schedswitchtask units mpmultiproc unit curtask set

def schedSpec (units : Units) (model : Model τ) : Op τ → Model τ × Option τ
  | .setready task => (readySpec units task model, none)
  | .switchtask curtask => pickSpec (readySpec units curtask model)

def Op.task : Op τ → τ
  | .setready task => task
  | .switchtask curtask => curtask

def Legal (model : Model τ) (op : Op τ) : Prop :=
  (∀ which ndx, ndx < limit which → op.task ∉ model.queue which ndx) ∧ schedrealtimerr ≤ (model.attr op.task).sched

structure Represents (set : SchedSet τ) (model : Model τ) : Prop where
  attrs : set.attr = model.attr
  unlocked : set.lk = false
  tables : Function.Injective set.table
  sizes : ∀ which, tabsize (set.table which) = limit which
  maps : set.bitmap = set.table
  queues : ∀ which ndx, ndx < limit which → Deq.Represents (set.queue (set.table which) ndx) (model.queue which ndx)
  bits : ∀ which ndx, ndx < limit which → (set.map (set.table which) ndx = true ↔ model.queue which ndx ≠ [])
  once : ∀ which ndx other place, ndx < limit which → place < limit other →
    ∀ task ∈ model.queue which ndx, task ∈ model.queue other place → which = other ∧ ndx = place

-- One queue of the set is replaced; the others keep their tasks because the
-- deque operations write the links of their own tasks only.
omit [DecidableEq τ] in
theorem represents_update (set next : SchedSet τ) (model : Model τ) (attr : τ → Attr) (which : Which) (ndx : Nat)
    (deq : Deq.SingleDeq τ) (tasks : List τ) (rep : Represents set model) (inside : ndx < limit which)
    (attrs : next.attr = attr) (unlocked : next.lk = false) (tables : next.table = set.table) (maps : next.bitmap = set.table)
    (links : next.links = deq.links)
    (tab : ∀ other place, next.tab other place = if other = set.table which ∧ place = ndx then deq.deq else set.tab other place)
    (map : ∀ other place, next.map other place = if other = set.table which ∧ place = ndx then true else set.map other place)
    (remaining : tasks ≠ []) (represented : Deq.Represents deq tasks)
    (frame : ∀ task, task ∉ model.queue which ndx → task ∉ tasks →
      deq.links.next task = set.links.next task ∧ deq.links.prev task = set.links.prev task)
    (fresh : ∀ task ∈ tasks, task ∈ model.queue which ndx ∨ ∀ other place, place < limit other → task ∉ model.queue other place) :
    Represents next { attr := attr, queue := (model.setQueue which ndx tasks).queue } := by
  have elsewhere : ∀ other place, place < limit other → ¬ (other = which ∧ place = ndx) →
      ∀ task ∈ model.queue other place, task ∉ model.queue which ndx ∧ task ∉ tasks := by
    intro other place small apart task member
    have notHere : task ∉ model.queue which ndx := fun here =>
      apart (rep.once other place which ndx small inside task member here)
    refine ⟨notHere, fun new => ?_⟩
    rcases fresh task new with old | nowhere
    · exact notHere old
    · exact nowhere other place small member
  refine ⟨attrs, unlocked, ?_, ?_, maps.trans tables.symm, ?_, ?_, ?_⟩
  · rw [tables]
    exact rep.tables
  · rw [tables]
    exact rep.sizes
  · intro other place small
    by_cases here : other = which ∧ place = ndx
    · obtain ⟨rfl, rfl⟩ := here
      simpa [SchedSet.queue, Model.setQueue, tables, links, tab] using represented
    · have apart : ¬ (set.table other = set.table which ∧ place = ndx) := fun same => here ⟨rep.tables same.1, same.2⟩
      simp only [SchedSet.queue, Model.setQueue, tables, links, tab, here, apart, if_false]
      refine Deq.represents_frame set.links _ _ _ (rep.queues other place small) ?_
      intro task member
      obtain ⟨notHere, notNew⟩ := elsewhere other place small here task member
      exact frame task notHere notNew
  · intro other place small
    by_cases here : other = which ∧ place = ndx
    · obtain ⟨rfl, rfl⟩ := here
      simpa [tables, map, Model.setQueue] using remaining
    · have apart : ¬ (set.table other = set.table which ∧ place = ndx) := fun same => here ⟨rep.tables same.1, same.2⟩
      simpa [tables, map, Model.setQueue, here, apart] using rep.bits other place small
  · intro one first two second small1 small2 task member1 member2
    simp only [Model.setQueue] at member1 member2
    by_cases here1 : one = which ∧ first = ndx
    · by_cases here2 : two = which ∧ second = ndx
      · exact ⟨here1.1.trans here2.1.symm, here1.2.trans here2.2.symm⟩
      · rw [if_pos here1] at member1
        rw [if_neg here2] at member2
        exact absurd member1 (elsewhere two second small2 here2 task member2).2
    · by_cases here2 : two = which ∧ second = ndx
      · rw [if_neg here1] at member1
        rw [if_pos here2] at member2
        exact absurd member2 (elsewhere one first small1 here1 task member1).2
      · rw [if_neg here1] at member1
        rw [if_neg here2] at member2
        exact rep.once one first two second small1 small2 task member1 member2

-- The queue is one of its table, and its number one of a word of loadmap.
structure InTable (place : Place) : Prop where
  queue : 0 ≤ place.ndx ∧ place.ndx < limit place.which
  load : 0 ≤ place.qid ∧ place.qid < schedloadmapnword

theorem schedenqueue_linkbefore (task : τ) (sched : Int) (queue : Deq.SingleDeq τ) :
    schedenqueue task sched queue = Deq.linkbefore task queue := by
  unfold schedenqueue
  split <;> rfl

def SchedSet.readied (set : SchedSet τ) (task : τ) (attr : Attr) (place : Place) (deq : Deq.SingleDeq τ) : SchedSet τ :=
  { set with
    attr := fun other => if other = task then attr else set.attr other
    links := deq.links
    tab := fun other ndx => if other = set.table place.which ∧ ndx = place.ndx.toNat then deq.deq else set.tab other ndx
    map := fun other ndx => if other = set.bitmap place.which ∧ ndx = place.ndx.toNat then true else set.map other ndx
    loadmap := fun other => if (other.val : Int) = place.qid then set.loadmap other + 1 else set.loadmap other
    lk := false }

theorem schedsetready_runs (units : Units) (task : τ) (set : SchedSet τ) (place : Place) (attr : Attr) (deq : Deq.SingleDeq τ)
    (unlocked : set.lk = false) (known : (set.attr task).sched ≠ scheddeadline)
    (placed : schedplace units (set.attr task) = (place, attr))
    (bound : 0 ≤ place.ndx ∧ place.ndx < tabsize (set.table place.which)) (load : 0 ≤ place.qid ∧ place.qid < schedloadmapnword)
    (linked : Deq.linkbefore task (set.queue (set.table place.which) place.ndx.toNat) = some deq) :
    schedsetready units task set = some (set.readied task attr place deq) := by
  unfold schedsetready
  simp only [known, if_false, placed, fmtxlk, unlocked, Bool.false_eq_true, Option.bind_eq_bind, Option.bind_some,
    schedenqueue_linkbefore]
  obtain ⟨which, ndx, qid⟩ := place
  cases which <;>
    simp only [SchedSet.table, SchedSet.queue, SchedSet.bitmap, SchedSet.setbit, SchedSet.setQueue] at bound load linked ⊢ <;>
    simp only [bound, load, and_self, if_true, linked, Option.bind_some] <;>
    rfl

theorem setready_represents (units : Units) (task : τ) (set : SchedSet τ) (model : Model τ) (rep : Represents set model)
    (absent : ∀ which ndx, ndx < limit which → task ∉ model.queue which ndx)
    (known : schedrealtimerr ≤ (model.attr task).sched) (inside : InTable (schedplace units (model.attr task)).1) :
    ∃ next, schedsetready units task set = some next ∧ Represents next (readySpec units task model) := by
  generalize placed : schedplace units (model.attr task) = chosen at inside
  obtain ⟨place, attr⟩ := chosen
  have small : place.ndx.toNat < limit place.which := by
    obtain ⟨low, high⟩ := inside.queue
    simp only at low high
    omega
  obtain ⟨deq, linked, represented⟩ := Deq.linkbefore_represents (set.queue (set.table place.which) place.ndx.toNat) _ task
    (rep.queues place.which _ small) (absent place.which _ small)
  have class_ : (set.attr task).sched ≠ scheddeadline := by
    rw [rep.attrs]
    unfold schedrealtimerr at known
    unfold scheddeadline
    omega
  have ran := schedsetready_runs units task set place attr deq rep.unlocked class_ (by rw [rep.attrs]; exact placed)
    (by rw [rep.sizes]; exact inside.queue) inside.load linked
  refine ⟨_, ran, ?_⟩
  have update := represents_update set (set.readied task attr place deq) model
    (fun other => if other = task then attr else model.attr other) place.which place.ndx.toNat deq
    (model.queue place.which place.ndx.toNat ++ [task]) rep small (by rw [← rep.attrs]; rfl) rfl rfl
    (by rw [← rep.maps]; rfl) rfl (fun _ _ => rfl) (fun _ _ => by rw [← rep.maps]; rfl) (by simp) represented ?_ ?_
  · unfold readySpec
    rw [placed]
    exact update
  · intro other outside away
    have different : other ≠ task := by
      rintro rfl
      simp at away
    exact Deq.linkbefore_frame _ deq _ task other (rep.queues place.which _ small) linked outside different
  · intro other member
    rcases List.mem_append.mp member with old | new
    · exact .inl old
    · have same : other = task := by simpa using new
      subst same
      exact .inr absent

omit [DecidableEq τ] in
theorem scanmap_lowest (set : SchedSet τ) (model : Model τ) (which : Which) (rep : Represents set model) :
    scanmap (set.map (set.table which)) (limit which) = lowest (model.queue which) (limit which) := by
  unfold scanmap lowest
  apply List.find?_congr
  intro ndx member
  have small : ndx < limit which := by simpa using member
  have bit := rep.bits which ndx small
  cases set : set.map (set.table which) ndx <;> simp_all

omit [DecidableEq τ] in
theorem lowest_some (queue : Nat → List τ) (lim ndx : Nat) (found : lowest queue lim = some ndx) : ndx < lim ∧ queue ndx ≠ [] := by
  unfold lowest at found
  have inside := List.mem_of_find?_eq_some found
  have holds := List.find?_some found
  exact ⟨by simpa using inside, by simpa using holds⟩

theorem schedloop_pops (mpmultiproc : Bool) (unit ndx : Nat) (set : SchedSet τ) (model : Model τ) (deq : Deq.SingleDeq τ)
    (out : Option τ) (rep : Represents set model) (found : lowest (model.queue .cur) schednqueue = some ndx)
    (popped : Deq.deqpop (set.queue set.cur ndx) = some (deq, out)) :
    schedloop mpmultiproc unit 2 set = some (fmtxunlk (SchedSet.setQueue { set with lk := true } set.cur ndx deq), out) := by
  have scan : scanmap (set.map set.curmap) schednqueue = some ndx := by
    have same : set.curmap = set.table .cur := by rw [← rep.maps]; rfl
    rw [same]
    exact (scanmap_lowest set model .cur rep).trans found
  have chained : Deq.deqpop (SchedSet.queue { set with lk := true } set.cur ndx) = some (deq, out) := popped
  simp [schedloop, schedscanready, fmtxlk, rep.unlocked, scan, schedpop, chained]

theorem switch_represents (mpmultiproc : Bool) (unit : Nat) (set : SchedSet τ) (model : Model τ) (ndx : Nat)
    (rep : Represents set model) (found : lowest (model.queue .cur) schednqueue = some ndx)
    (several : 3 ≤ (model.queue .cur ndx).length) :
    ∃ next, schedloop mpmultiproc unit 2 set = some (next, (pickSpec model).2) ∧ Represents next (pickSpec model).1 := by
  obtain ⟨small, -⟩ := lowest_some _ _ _ found
  have queue := rep.queues .cur ndx small
  obtain ⟨deq, popped, represented⟩ := Deq.deqpop_represents _ _ queue (by omega)
  have picked : pickSpec model = popSpec .cur ndx model := by
    unfold pickSpec
    rw [found]
  rw [picked]
  refine ⟨_, schedloop_pops mpmultiproc unit ndx set model deq _ rep found popped, ?_⟩
  have remaining : (model.queue .cur ndx).tail ≠ [] := by
    intro empty
    have count := congrArg List.length empty
    simp only [List.length_tail, List.length_nil] at count
    omega
  refine represents_update set _ model model.attr .cur ndx deq (model.queue .cur ndx).tail rep small rep.attrs rfl rfl rep.maps rfl
    (fun _ _ => rfl) ?_ remaining represented ?_ ?_
  · intro other place
    split
    · rename_i here
      rw [here.1, here.2]
      exact (rep.bits .cur ndx small).mpr (by
        intro empty
        simp [empty] at several)
    · rfl
  · exact fun task outside _ => Deq.deqpop_frame _ deq _ task _ queue popped outside
  · exact fun task member => .inl (List.mem_of_mem_tail member)

theorem switch_two (mpmultiproc : Bool) (unit : Nat) (set : SchedSet τ) (model : Model τ) (ndx : Nat) (a b : τ)
    (rep : Represents set model) (found : lowest (model.queue .cur) schednqueue = some ndx) (two : model.queue .cur ndx = [a, b]) :
    ∃ next, schedloop mpmultiproc unit 2 set = some (next, some a) ∧ next.tab (next.table .cur) ndx = none := by
  obtain ⟨small, -⟩ := lowest_some _ _ _ found
  have queue := rep.queues .cur ndx small
  rw [two] at queue
  have atDeq : (set.queue set.cur ndx).deq = some a := queue.first
  have popped : Deq.deqpop (set.queue set.cur ndx) = some (⟨set.links, none⟩, some a) := by
    have singular : Deq.deqissingular (set.queue set.cur ndx).links a := (Deq.two_items_singular _ a b queue).1
    simp [Deq.deqpop, atDeq, singular]
    rfl
  refine ⟨_, schedloop_pops mpmultiproc unit ndx set model _ _ rep found popped, ?_⟩
  simp [fmtxunlk, SchedSet.setQueue, SchedSet.table]

-- A task is made ready inside its table and loadmap, and a switch takes the first of at
-- least three tasks from the lowest current queue.
def Sound (units : Units) (model : Model τ) : Op τ → Prop
  | .setready task => InTable (schedplace units (model.attr task)).1
  | .switchtask curtask => InTable (schedplace units (model.attr curtask)).1 ∧
      ∃ ndx, lowest ((readySpec units curtask model).queue .cur) schednqueue = some ndx ∧
        3 ≤ ((readySpec units curtask model).queue .cur ndx).length

theorem sched_step_represents (units : Units) (mpmultiproc : Bool) (unit : Nat) (set : SchedSet τ) (model : Model τ) (op : Op τ)
    (rep : Represents set model) (cond : Legal model op ∧ Sound units model op) :
    ∃ next, schedStep units mpmultiproc unit set op = some (next, (schedSpec units model op).2) ∧
      Represents next (schedSpec units model op).1 := by
  obtain ⟨⟨absent, known⟩, sound⟩ := cond
  cases op with
  | setready task =>
      obtain ⟨next, ready, nextRep⟩ := setready_represents units task set model rep absent known sound
      exact ⟨next, by simp [schedStep, ready, schedSpec], nextRep⟩
  | switchtask curtask =>
      obtain ⟨inside, ndx, found, several⟩ := sound
      obtain ⟨middle, ready, middleRep⟩ := setready_represents units curtask set model rep absent known inside
      obtain ⟨next, taken, nextRep⟩ := switch_represents mpmultiproc unit middle _ ndx middleRep found several
      exact ⟨next, by simp [schedStep, schedswitchtask, ready, taken, schedSpec], nextRep⟩

def emptyModel (attr : τ → Attr) : Model τ := ⟨attr, fun _ _ => []⟩

omit [DecidableEq τ] in
theorem schedinitset_represents (attr : τ → Attr) (links : Heap τ) : Represents (schedinitset attr links) (emptyModel attr) := by
  refine ⟨rfl, rfl, ?_, ?_, ?_, ?_, ?_, ?_⟩
  · intro one two same
    cases one <;> cases two <;> simp_all [schedinitset, SchedSet.table]
  · intro which
    cases which <;> rfl
  · funext which
    cases which <;> rfl
  · intro which ndx _
    exact ⟨rfl, .nil, .nil⟩
  · intro which ndx _
    simp [schedinitset, emptyModel]
  · intro which ndx other place _ _ task member
    simp [emptyModel] at member

theorem sched_refines (units : Units) (mpmultiproc : Bool) (unit : Nat) (attr : τ → Attr) (links : Heap τ) (ops : List (Op τ))
    (legal : Along (schedSpec units) Legal (emptyModel attr) ops)
    (sound : Along (schedSpec units) (Sound units) (emptyModel attr) ops) :
    Refines (schedStep units mpmultiproc unit) (schedSpec units) Represents (schedinitset attr links) (emptyModel attr) ops :=
  refines_of_invariant _ _ Represents Represents _ (fun _ _ rep => rep) (sched_step_represents units mpmultiproc unit)
    _ _ ops (schedinitset_represents attr links) (along_and _ Legal (Sound units) _ ops legal sound)

def noUnits : Units := ⟨fun _ _ => 0, 250⟩

def trapTask : Attr := ⟨schedtrap, 0, false, 0, 0, 0, 0, 0, 0, 0⟩

def noLinks : Heap (Fin 4) := ⟨fun _ => none, fun _ => none⟩

theorem trap_place : schedplace noUnits trapTask = (⟨.cur, 0, 0⟩, trapTask) := rfl

omit [DecidableEq τ] in
theorem lowest_first (queue : Nat → List τ) (lim : Nat) (some_ : queue 0 ≠ []) : lowest queue (lim + 1) = some 0 := by
  simp [lowest, List.range_succ_eq_map, some_]

def trapModel : Model (Fin 4) := emptyModel fun _ => trapTask

theorem ready_traps (tasks : List (Fin 4)) (task : Fin 4) (model : Model (Fin 4)) (attr : model.attr = fun _ => trapTask)
    (queue : model.queue = fun which ndx => if which = .cur ∧ ndx = 0 then tasks else []) :
    (readySpec noUnits task model).attr = (fun _ => trapTask) ∧
      (readySpec noUnits task model).queue = fun which ndx => if which = .cur ∧ ndx = 0 then tasks ++ [task] else [] := by
  unfold readySpec
  rw [attr, trap_place]
  constructor
  · funext other
    simp [Model.setQueue]
  · funext which ndx
    simp only [Model.setQueue, queue, Int.toNat_zero]
    split <;> simp_all

theorem sched_refines_four_traps :
    Along (schedSpec noUnits) Legal trapModel
        [.setready (0 : Fin 4), .setready 1, .setready 2, .switchtask 3] ∧
      Refines (schedStep noUnits false 0) (schedSpec noUnits) Represents (schedinitset (fun _ => trapTask) noLinks)
        trapModel [.setready 0, .setready 1, .setready 2, .switchtask 3] := by
  have known : schedrealtimerr ≤ trapTask.sched := by decide
  have inside : InTable ⟨.cur, 0, 0⟩ := ⟨by decide, by decide⟩
  obtain ⟨attr1, queue1⟩ := ready_traps [] 0 trapModel rfl (by funext which ndx; simp [trapModel, emptyModel])
  obtain ⟨attr2, queue2⟩ := ready_traps [0] 1 _ attr1 queue1
  obtain ⟨attr3, queue3⟩ := ready_traps [0, 1] 2 _ attr2 queue2
  obtain ⟨attr4, queue4⟩ := ready_traps [0, 1, 2] 3 _ attr3 queue3
  have absent : ∀ (tasks : List (Fin 4)) (task : Fin 4), task ∉ tasks → ∀ (which : Which) (ndx : Nat), ndx < limit which →
      task ∉ (if which = .cur ∧ ndx = 0 then tasks else []) := by
    intro tasks task outside which ndx _
    split
    · exact outside
    · simp
  have legal : Along (schedSpec noUnits) Legal trapModel
      [.setready (0 : Fin 4), .setready 1, .setready 2, .switchtask 3] := by
    refine ⟨⟨?_, known⟩, ⟨?_, ?_⟩, ⟨?_, ?_⟩, ⟨?_, ?_⟩, trivial⟩ <;> simp only [schedSpec, Op.task, attr1, attr2, attr3, queue1, queue2, queue3]
    · simp [trapModel, emptyModel]
    · exact absent [0] 1 (by decide)
    · exact known
    · exact absent [0, 1] 2 (by decide)
    · exact known
    · exact absent [0, 1, 2] 3 (by decide)
    · exact known
  have sound : Along (schedSpec noUnits) (Sound noUnits) trapModel [.setready (0 : Fin 4), .setready 1, .setready 2, .switchtask 3] := by
    refine ⟨inside, ?_, ?_, ⟨?_, 0, ?_, ?_⟩, trivial⟩ <;> simp only [schedSpec, Sound, attr1, attr2, attr3, queue4, trap_place]
    · exact inside
    · exact inside
    · exact inside
    · exact lowest_first _ 191 (by simp)
    · simp
  exact ⟨legal, sched_refines noUnits false 0 (fun _ => trapTask) noLinks _ legal sound⟩

-- With two tasks in the queue the pop takes both for one: the second task is
-- on no queue afterwards.
theorem second_trap_lost :
    Along (schedSpec noUnits) Legal trapModel [.setready (0 : Fin 4), .switchtask 1] ∧
      ¬ Refines (schedStep noUnits false 0) (schedSpec noUnits) Represents (schedinitset (fun _ => trapTask) noLinks)
        trapModel [.setready 0, .switchtask 1] := by
  have known : schedrealtimerr ≤ trapTask.sched := by decide
  have inside : InTable ⟨.cur, 0, 0⟩ := ⟨by decide, by decide⟩
  obtain ⟨attr1, queue1⟩ := ready_traps [] 0 trapModel rfl (by funext which ndx; simp [trapModel, emptyModel])
  obtain ⟨attr2, queue2⟩ := ready_traps [0] 1 _ attr1 queue1
  have absent : ∀ which ndx, ndx < limit which → (1 : Fin 4) ∉ (readySpec noUnits 0 trapModel).queue which ndx := by
    intro which ndx _
    rw [queue1]
    dsimp only
    split <;> simp
  have found : lowest ((readySpec noUnits 1 (readySpec noUnits 0 trapModel)).queue .cur) schednqueue = some 0 := by
    rw [queue2]
    exact lowest_first _ 191 (by simp)
  have two : (readySpec noUnits 1 (readySpec noUnits 0 trapModel)).queue .cur 0 = [0, 1] := by
    rw [queue2]
    simp
  refine ⟨⟨⟨by simp [trapModel, emptyModel], known⟩, ⟨absent, by rw [schedSpec, attr1]; exact known⟩, trivial⟩, ?_⟩
  rintro ⟨-, one, -, rep, next, second, nextRep⟩
  obtain ⟨middle, ready, middleRep⟩ := setready_represents noUnits 1 one _ rep absent (by rw [schedSpec, attr1]; exact known)
    (by rw [schedSpec, attr1, trap_place]; exact inside)
  obtain ⟨after, popped, lost⟩ := switch_two false 0 middle _ 0 0 1 middleRep found two
  have same : after = next := by
    rw [schedStep, schedswitchtask, ready, Option.bind_eq_bind, Option.bind_some, popped] at second
    exact (Prod.mk.inj (Option.some.inj second)).1
  have kept : (pickSpec (readySpec noUnits 1 (readySpec noUnits 0 trapModel))).1.queue .cur 0 = [1] := by
    unfold pickSpec
    rw [found]
    simp [popSpec, two, Model.setQueue]
  have linked := (nextRep.queues .cur 0 (by decide)).first
  rw [schedSpec, schedSpec, kept, ← same] at linked
  rw [SchedSet.queue, lost] at linked
  cases linked

end OsZero.Sched

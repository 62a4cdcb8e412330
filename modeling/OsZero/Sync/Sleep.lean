import Mathlib.Data.Fintype.Card
import Mathlib.Data.List.Dedup
import Mathlib.Logic.Function.Basic
import OsZero.Deq.Headtail

set_option autoImplicit false

namespace OsZero.Sync.Sleep

open Links Runs Deq

variable {Thread : Type} [DecidableEq Thread] {Queue : Type} [DecidableEq Queue]

-- Where the code of a thread stands: in the loop of thrwait1 or in that of thrsleep2,
-- or anywhere else.
inductive Place (Queue : Type) where
  | running
  | waiting (queue : Queue)
  | sleeping (queue : Queue)
deriving DecidableEq, Repr

-- The fields that thr.c gives a thread, and the ends of every queue. A queue is named
-- by the argument of the calls; none is thrsleepqueue, which a NULL stands for.
structure Sleepers (Thread Queue : Type) where
  links : Heap Thread
  head : Option Queue → Option Thread
  tail : Option Queue → Option Thread
  sleep : Thread → Bool
  place : Thread → Place (Option Queue)

namespace Sleepers

def htlist (world : Sleepers Thread Queue) (queue : Option Queue) : Htlist Thread := ⟨world.links, world.head queue, world.tail queue⟩

def store (world : Sleepers Thread Queue) (queue : Option Queue) (list : Htlist Thread) : Sleepers Thread Queue :=
  { world with links := list.links, head := Function.update world.head queue list.head, tail := Function.update world.tail queue list.tail }

def setSleep (world : Sleepers Thread Queue) (thr : Thread) (sleep : Bool) : Sleepers Thread Queue :=
  { world with sleep := Function.update world.sleep thr sleep }

def setPlace (world : Sleepers Thread Queue) (thr : Thread) (place : Place (Option Queue)) : Sleepers Thread Queue :=
  { world with place := Function.update world.place thr place }

-- htlistpush with HTLIST_QUEUE
def push (world : Sleepers Thread Queue) (queue : Option Queue) (thr : Thread) : Sleepers Thread Queue :=
  (world.store queue ((world.htlist queue).htlistpush thr)).setSleep thr true

-- htlistdequeue with HTLIST_DEQUEUE
def dequeue (world : Sleepers Thread Queue) (queue : Option Queue) : Sleepers Thread Queue × Option Thread :=
  match (world.htlist queue).htlistdequeue with
  | (list, some thr) => ((world.store queue list).setSleep thr false, some thr)
  | (list, none) => (world.store queue list, none)

-- htlistrm with HTLIST_RM_COND and HTLIST_DEQUEUE
def rm (world : Sleepers Thread Queue) (queue : Option Queue) (thr : Thread) : Sleepers Thread Queue :=
  if world.sleep thr then (world.store queue ((world.htlist queue).htlistrm thr)).setSleep thr false else world

-- The loops return the threads they took off the queue, in that order.
def thrwakeall1 (queue : Option Queue) : Nat → Sleepers Thread Queue → Option (Sleepers Thread Queue × List Thread)
  | 0, _ => none
  | fuel + 1, world =>
      match world.dequeue queue with
      | (world, none) => some (world, [])
      | (world, some thr) => (thrwakeall1 queue fuel world).map fun rest => (rest.1, thr :: rest.2)

def condsignal2 (queue : Option Queue) : Nat → Sleepers Thread Queue → Sleepers Thread Queue × List Thread
  | 0, world => (world, [])
  | nthr + 1, world =>
      let (world, thr) := world.dequeue queue
      let rest := condsignal2 queue nthr world
      (rest.1, thr.toList ++ rest.2)

end Sleepers

-- The two waits begin, a thread in one of them looks at its sleep field or its time is
-- over, and a thread wakes others.
inductive Op (Thread Queue : Type) where
  | thrwait1 (thr : Thread) (queue : Option Queue)
  | thrsleep2 (thr : Thread) (queue : Option Queue)
  | look (thr : Thread)
  | timeout (thr : Thread)
  | thrwake1 (queue : Option Queue)
  | condsignal2 (queue : Option Queue) (nthr : Nat)
  | thrwakeall1 (queue : Option Queue)
deriving DecidableEq, Repr

-- A step returns the threads that it took off a queue or that left their wait. A thread
-- takes the steps of the code that it stands in; thrwakeall1 is given one turn of its
-- loop more than there are threads.
def step [Fintype Thread] (world : Sleepers Thread Queue) : Op Thread Queue → Option (Sleepers Thread Queue × List Thread)
  | .thrwait1 thr queue =>
      match world.place thr with
      | .running => some ((world.push queue thr).setPlace thr (.waiting queue), [])
      | _ => none
  | .thrsleep2 thr queue =>
      match world.place thr with
      | .running => some ((world.push queue thr).setPlace thr (.sleeping queue), [])
      | _ => none
  | .look thr =>
      match world.place thr with
      | .waiting _ => if world.sleep thr then some (world, []) else some (world.setPlace thr .running, [thr])
      | _ => none
  | .timeout thr =>
      match world.place thr with
      | .sleeping queue => some (((if world.sleep thr then world.rm queue thr else world).setPlace thr .running), [thr])
      | _ => none
  | .thrwake1 queue => some ((world.dequeue queue).1, (world.dequeue queue).2.toList)
  | .condsignal2 queue nthr => some (world.condsignal2 queue nthr)
  | .thrwakeall1 queue => world.thrwakeall1 queue (Fintype.card Thread + 1)

-- What the queues are for: lines in which the thread that has waited longest is first.
structure Lines (Thread Queue : Type) where
  line : Option Queue → List Thread
  place : Thread → Place (Option Queue)

namespace Lines

def setLine (lines : Lines Thread Queue) (queue : Option Queue) (line : List Thread) : Lines Thread Queue :=
  { lines with line := Function.update lines.line queue line }

def setPlace (lines : Lines Thread Queue) (thr : Thread) (place : Place (Option Queue)) : Lines Thread Queue :=
  { lines with place := Function.update lines.place thr place }

def join (lines : Lines Thread Queue) (queue : Option Queue) (thr : Thread) : Lines Thread Queue :=
  lines.setLine queue (lines.line queue ++ [thr])

def leave (lines : Lines Thread Queue) (queue : Option Queue) (count : Nat) : Lines Thread Queue × List Thread :=
  (lines.setLine queue ((lines.line queue).drop count), (lines.line queue).take count)

def step (lines : Lines Thread Queue) : Op Thread Queue → Lines Thread Queue × List Thread
  | .thrwait1 thr queue => ((lines.join queue thr).setPlace thr (.waiting queue), [])
  | .thrsleep2 thr queue => ((lines.join queue thr).setPlace thr (.sleeping queue), [])
  | .look thr =>
      match lines.place thr with
      | .waiting queue => if thr ∈ lines.line queue then (lines, []) else (lines.setPlace thr .running, [thr])
      | _ => (lines, [])
  | .timeout thr =>
      match lines.place thr with
      | .sleeping queue => ((lines.setLine queue ((lines.line queue).erase thr)).setPlace thr .running, [thr])
      | _ => (lines, [])
  | .thrwake1 queue => lines.leave queue 1
  | .condsignal2 queue nthr => lines.leave queue nthr
  | .thrwakeall1 queue => lines.leave queue (lines.line queue).length

def Stands (lines : Lines Thread Queue) : Op Thread Queue → Prop
  | .thrwait1 thr _ => lines.place thr = .running
  | .thrsleep2 thr _ => lines.place thr = .running
  | .look thr => ∃ queue, lines.place thr = .waiting queue
  | .timeout thr => ∃ queue, lines.place thr = .sleeping queue
  | _ => True

end Lines

-- A thread is asleep exactly while it is in a line, which is then the line of the queue
-- it waits at.
structure Represents (world : Sleepers Thread Queue) (lines : Lines Thread Queue) : Prop where
  queues : ∀ queue, HtEnded (world.htlist queue) (lines.line queue).reverse
  asleep : ∀ thr, world.sleep thr = true ↔ ∃ queue, thr ∈ lines.line queue
  there : ∀ thr queue, thr ∈ lines.line queue → lines.place thr = .waiting queue ∨ lines.place thr = .sleeping queue
  place : world.place = lines.place

-- The links of threads outside a set of them.
def KeptOff (inside : Thread → Prop) (before after : Heap Thread) : Prop :=
  ∀ other, ¬ inside other → after.next other = before.next other ∧ after.prev other = before.prev other

theorem htlistpush_off (queue : Htlist Thread) (items : List Thread) (item : Thread) (whole : HtEnded queue items) :
    KeptOff (· ∈ item :: items) queue.links (queue.htlistpush item).links := by
  intro other outside
  obtain ⟨notItem, notInside⟩ := List.ne_and_not_mem_of_not_mem_cons outside
  have first := whole.first
  cases items with
  | nil =>
      simp only [List.head?_nil] at first
      simp [Htlist.htlistpush, first, set_next_elsewhere, set_prev_elsewhere, notItem]
  | cons second rest =>
      have notSecond : other ≠ second := fun same => notInside (by simp [same])
      simp only [List.head?_cons] at first
      simp [Htlist.htlistpush, first, set_next_elsewhere, set_prev_elsewhere, notItem, notSecond]

theorem htlistdequeue_off (queue : Htlist Thread) (items : List Thread) (whole : HtEnded queue items) :
    KeptOff (· ∈ items) queue.links queue.htlistdequeue.1.links := by
  intro other outside
  have last := whole.last
  rcases List.eq_nil_or_concat items with rfl | ⟨front, item, rfl⟩
  · simp [Htlist.htlistdequeue, last]
  · rw [List.concat_eq_append] at whole last outside
    have prev := ended_prev queue.links front [] item whole.ended
    rw [List.getLast?_concat] at last
    rcases List.eq_nil_or_concat front with rfl | ⟨front, before, rfl⟩
    · simp [Htlist.htlistdequeue, last, prev]
    · rw [List.concat_eq_append] at prev outside
      rw [List.getLast?_concat] at prev
      have notBefore : other ≠ before := fun same => outside (by simp [same])
      simp [Htlist.htlistdequeue, last, prev, set_next_elsewhere, notBefore]

theorem htlistrm_off (queue : Htlist Thread) (items : List Thread) (item : Thread) (whole : HtEnded queue items) (member : item ∈ items) :
    KeptOff (· ∈ items) queue.links (queue.htlistrm item).links := by
  intro other outside
  obtain ⟨front, back, rfl⟩ := List.append_of_mem member
  rw [htlistrm_inside queue _ front back item whole rfl]
  apply unlink_elsewhere queue.links front back item other whole.ended
  intro inside
  rcases List.mem_append.mp inside with early | late
  · exact outside (List.mem_append_left _ early)
  · exact outside (List.mem_append_right _ (List.mem_cons_of_mem _ late))

section Keeps

variable (world : Sleepers Thread Queue) (lines : Lines Thread Queue) (rep : Represents world lines)

include rep

omit [DecidableEq Thread] [DecidableEq Queue] in
theorem one_line (thr : Thread) (one two : Option Queue) (first : thr ∈ lines.line one) (second : thr ∈ lines.line two) : one = two := by
  rcases rep.there thr one first with here | here
  · rcases rep.there thr two second with there | there
    · rw [here] at there
      exact Place.waiting.inj there
    · rw [here] at there
      cases there
  · rcases rep.there thr two second with there | there
    · rw [here] at there
      cases there
    · rw [here] at there
      exact Place.sleeping.inj there

omit [DecidableEq Thread] [DecidableEq Queue] in
theorem line_nodup (queue : Option Queue) : (lines.line queue).Nodup := List.nodup_reverse.mp (rep.queues queue).ended.nodup

omit [DecidableEq Thread] in
theorem store_queues (queue : Option Queue) (list : Htlist Thread) (line : List Thread) (inside : Thread → Prop)
    (whole : HtEnded list line.reverse) (off : KeptOff inside world.links list.links)
    (apart : ∀ other, other ≠ queue → ∀ thr ∈ lines.line other, ¬ inside thr) (other : Option Queue) :
    HtEnded ((world.store queue list).htlist other) ((lines.setLine queue line).line other).reverse := by
  by_cases same : other = queue
  · subst same
    simpa [Sleepers.store, Sleepers.htlist, Lines.setLine] using whole
  · obtain ⟨first, last, ended⟩ := rep.queues other
    constructor
    · simpa [Sleepers.store, Sleepers.htlist, Lines.setLine, same] using first
    · simpa [Sleepers.store, Sleepers.htlist, Lines.setLine, same] using last
    · have kept := ended_frame world.links list.links _ ended fun thr member =>
        off thr (apart other same thr (List.mem_reverse.mp member))
      simpa [Sleepers.store, Sleepers.htlist, Lines.setLine, same] using kept

theorem push_represents (queue : Option Queue) (thr : Thread) (place : Place (Option Queue)) (running : lines.place thr = .running)
    (waits : place = .waiting queue ∨ place = .sleeping queue) :
    Represents ((world.push queue thr).setPlace thr place) ((lines.join queue thr).setPlace thr place) := by
  have nowhere : ∀ other, thr ∉ lines.line other := by
    intro other member
    rcases rep.there thr other member with place | place <;> rw [running] at place <;> cases place
  have absent : thr ∉ (lines.line queue).reverse := fun member => nowhere queue (List.mem_reverse.mp member)
  have whole := htlistpush_ended (world.htlist queue) _ thr (rep.queues queue) absent
  have members : ∀ other member, member ∈ (lines.join queue thr).line other ↔ member ∈ lines.line other ∨ (member = thr ∧ other = queue) := by
    intro other member
    by_cases same : other = queue
    · subst same
      simp [Lines.join, Lines.setLine]
    · simp [Lines.join, Lines.setLine, same]
  constructor
  · apply store_queues world lines rep queue _ _ (· ∈ thr :: (lines.line queue).reverse)
    · simpa using whole
    · exact htlistpush_off (world.htlist queue) _ thr (rep.queues queue)
    · intro other different member inside within
      rcases List.mem_cons.mp within with rfl | within
      · exact nowhere other inside
      · exact different (one_line world lines rep member other queue inside (List.mem_reverse.mp within))
  · intro member
    simp only [Lines.setPlace, members]
    by_cases same : member = thr
    · subst same
      simp [Sleepers.push, Sleepers.setSleep, Sleepers.setPlace]
    · simp [Sleepers.push, Sleepers.setSleep, Sleepers.setPlace, Sleepers.store, same, rep.asleep]
  · intro member other inside
    rcases (members other member).mp inside with inside | ⟨rfl, rfl⟩
    · have different : member ≠ thr := fun same => nowhere other (same ▸ inside)
      simpa [Lines.setPlace, Lines.join, Lines.setLine, different] using rep.there member other inside
    · simpa [Lines.setPlace] using waits
  · simp [Sleepers.setPlace, Sleepers.push, Sleepers.setSleep, Sleepers.store, Lines.setPlace, Lines.join, Lines.setLine, rep.place]

-- A thread is taken out of its line, whichever call does it.
theorem remove_represents (queue : Option Queue) (list : Htlist Thread) (thr : Thread) (member : thr ∈ lines.line queue)
    (whole : HtEnded list ((lines.line queue).erase thr).reverse) (off : KeptOff (· ∈ (lines.line queue).reverse) world.links list.links) :
    Represents ((world.store queue list).setSleep thr false) (lines.setLine queue ((lines.line queue).erase thr)) := by
  have members : ∀ other inside, inside ∈ (lines.setLine queue ((lines.line queue).erase thr)).line other ↔ inside ∈ lines.line other ∧ inside ≠ thr := by
    intro other inside
    by_cases same : other = queue
    · subst same
      simp [Lines.setLine, (line_nodup world lines rep other).mem_erase_iff, and_comm]
    · have elsewhere : inside ∈ lines.line other → inside ≠ thr := by
        rintro within rfl
        exact same (one_line world lines rep inside other queue within member)
      simpa [Lines.setLine, same] using elsewhere
  constructor
  · apply store_queues world lines rep queue list _ (· ∈ (lines.line queue).reverse) whole off
    exact fun other different thr inside within =>
      different (one_line world lines rep thr other queue inside (List.mem_reverse.mp within))
  · intro other
    simp only [members]
    by_cases same : other = thr
    · subst same
      simp [Sleepers.setSleep]
    · simp [Sleepers.setSleep, Sleepers.store, same, rep.asleep]
  · exact fun other line inside => rep.there other line ((members line other).mp inside).1
  · exact rep.place

theorem dequeue_represents (queue : Option Queue) : ∃ next, world.dequeue queue = (next, (lines.line queue).head?) ∧
    Represents next (lines.setLine queue (lines.line queue).tail) := by
  obtain ⟨list, taken, whole⟩ := htlistdequeue_ended (world.htlist queue) _ (rep.queues queue)
  have off := htlistdequeue_off (world.htlist queue) _ (rep.queues queue)
  rw [List.getLast?_reverse] at taken
  rw [taken] at off
  cases line : lines.line queue with
  | nil =>
      rw [line] at taken
      have first := (rep.queues queue).first
      have last := (rep.queues queue).last
      rw [line] at first last
      have same : world.store queue list = world := by
        have unchanged : (world.htlist queue).htlistdequeue.1 = world.htlist queue := by
          simp only [List.reverse_nil, List.getLast?_nil] at last
          simp [Htlist.htlistdequeue, last]
        rw [taken] at unchanged
        rw [show list = world.htlist queue from unchanged]
        simp [Sleepers.store, Sleepers.htlist]
      refine ⟨world, by simp [Sleepers.dequeue, taken, same], ?_⟩
      have kept : lines.setLine queue [] = lines := by
        rw [← line]
        simp [Lines.setLine]
      rw [List.tail_nil, kept]
      exact rep
  | cons thr rest =>
      rw [line] at taken
      have erased : (lines.line queue).erase thr = rest := by simp [line]
      refine ⟨(world.store queue list).setSleep thr false, by simp [Sleepers.dequeue, taken], ?_⟩
      rw [List.tail_cons, ← erased]
      apply remove_represents world lines rep queue list thr (by simp [line]) _ off
      rw [erased]
      simpa [line] using whole

theorem rm_represents (queue : Option Queue) (thr : Thread) (sleeping : lines.place thr = .sleeping queue) :
    Represents (if world.sleep thr then world.rm queue thr else world) (lines.setLine queue ((lines.line queue).erase thr)) := by
  by_cases asleep : world.sleep thr = true
  · obtain ⟨other, member⟩ := (rep.asleep thr).mp asleep
    have here : thr ∈ lines.line queue := by
      rcases rep.there thr other member with place | place
      · rw [sleeping] at place
        cases place
      · rw [sleeping] at place
        cases place
        exact member
    rw [if_pos asleep, Sleepers.rm, if_pos asleep]
    have member' : thr ∈ (lines.line queue).reverse := List.mem_reverse.mpr here
    have whole := htlistrm_ended (world.htlist queue) _ thr (rep.queues queue) member'
    apply remove_represents world lines rep queue _ thr here
    · rw [(line_nodup world lines rep queue).erase_eq_filter, ← List.filter_reverse]
      rwa [(rep.queues queue).ended.nodup.erase_eq_filter] at whole
    · exact htlistrm_off (world.htlist queue) _ thr (rep.queues queue) member'
  · have nowhere : thr ∉ lines.line queue := fun member => asleep ((rep.asleep thr).mpr ⟨queue, member⟩)
    have kept : lines.setLine queue (lines.line queue) = lines := by simp [Lines.setLine]
    rw [if_neg asleep, List.erase_of_not_mem nowhere, kept]
    exact rep

omit [DecidableEq Queue] in
theorem place_represents (thr : Thread) (place : Place (Option Queue)) (nowhere : ∀ queue, thr ∉ lines.line queue) :
    Represents (world.setPlace thr place) (lines.setPlace thr place) := by
  refine ⟨rep.queues, rep.asleep, ?_, ?_⟩
  · intro other queue member
    have different : other ≠ thr := fun same => nowhere queue (same ▸ member)
    simpa [Lines.setPlace, different] using rep.there other queue member
  · simp [Sleepers.setPlace, Lines.setPlace, rep.place]

end Keeps

omit [DecidableEq Thread] in
theorem set_line_twice (lines : Lines Thread Queue) (queue : Option Queue) (first second : List Thread) :
    (lines.setLine queue first).setLine queue second = lines.setLine queue second := by
  simp [Lines.setLine]

theorem condsignal2_represents (queue : Option Queue) (nthr : Nat) (world : Sleepers Thread Queue) (lines : Lines Thread Queue)
    (rep : Represents world lines) : ∃ next, world.condsignal2 queue nthr = (next, (lines.line queue).take nthr) ∧
      Represents next (lines.setLine queue ((lines.line queue).drop nthr)) := by
  induction nthr generalizing world lines with
  | zero => exact ⟨world, rfl, by simpa [Lines.setLine] using rep⟩
  | succ nthr ih =>
      obtain ⟨middle, taken, middleRep⟩ := dequeue_represents world lines rep queue
      obtain ⟨next, rest, nextRep⟩ := ih middle _ middleRep
      refine ⟨next, ?_, ?_⟩
      · simp only [Sleepers.condsignal2, taken, rest]
        cases line : lines.line queue with
        | nil => simp [Lines.setLine]
        | cons thr others => simp [Lines.setLine]
      · rw [set_line_twice] at nextRep
        simpa [Lines.setLine, ← List.drop_one, Nat.add_comm] using nextRep

theorem thrwakeall1_represents (queue : Option Queue) (fuel : Nat) (world : Sleepers Thread Queue) (lines : Lines Thread Queue)
    (rep : Represents world lines) (enough : (lines.line queue).length < fuel) :
    ∃ next, world.thrwakeall1 queue fuel = some (next, lines.line queue) ∧ Represents next (lines.setLine queue []) := by
  induction fuel generalizing world lines with
  | zero => omega
  | succ fuel ih =>
      obtain ⟨middle, taken, middleRep⟩ := dequeue_represents world lines rep queue
      cases line : lines.line queue with
      | nil =>
          rw [line] at taken middleRep
          exact ⟨middle, by simp [Sleepers.thrwakeall1, taken], middleRep⟩
      | cons thr others =>
          rw [line] at taken middleRep enough
          have shorter : (lines.setLine queue others).line queue = others := by simp [Lines.setLine]
          obtain ⟨next, rest, nextRep⟩ := ih middle _ middleRep (by simpa [shorter] using enough)
          rw [List.tail_cons, shorter] at rest
          rw [set_line_twice] at nextRep
          exact ⟨next, by simp [Sleepers.thrwakeall1, taken, rest], nextRep⟩

omit [DecidableEq Thread] [DecidableEq Queue] in
theorem line_bounded [Fintype Thread] (world : Sleepers Thread Queue) (lines : Lines Thread Queue) (rep : Represents world lines)
    (queue : Option Queue) : (lines.line queue).length < Fintype.card Thread + 1 :=
  Nat.lt_succ_of_le (line_nodup world lines rep queue).length_le_card

theorem step_represents [Fintype Thread] (world : Sleepers Thread Queue) (lines : Lines Thread Queue) (op : Op Thread Queue)
    (rep : Represents world lines) (stands : lines.Stands op) :
    ∃ next, step world op = some (next, (lines.step op).2) ∧ Represents next (lines.step op).1 := by
  cases op with
  | thrwait1 thr queue =>
      have place : world.place thr = .running := by rw [rep.place]; exact stands
      exact ⟨_, by simp [step, place, Lines.step], push_represents world lines rep queue thr _ stands (.inl rfl)⟩
  | thrsleep2 thr queue =>
      have place : world.place thr = .running := by rw [rep.place]; exact stands
      exact ⟨_, by simp [step, place, Lines.step], push_represents world lines rep queue thr _ stands (.inr rfl)⟩
  | look thr =>
      obtain ⟨queue, waiting⟩ := stands
      have place : world.place thr = .waiting queue := by rw [rep.place]; exact waiting
      by_cases member : thr ∈ lines.line queue
      · have asleep := (rep.asleep thr).mpr ⟨queue, member⟩
        exact ⟨world, by simp [step, place, asleep, Lines.step, waiting, member], by simpa [Lines.step, waiting, member] using rep⟩
      · have nowhere : ∀ other, thr ∉ lines.line other := by
          intro other inside
          rcases rep.there thr other inside with here | here
          · rw [waiting] at here
            cases here
            exact member inside
          · rw [waiting] at here
            cases here
        have awake : world.sleep thr = false := by
          apply Bool.eq_false_iff.mpr
          intro asleep
          obtain ⟨other, inside⟩ := (rep.asleep thr).mp asleep
          exact nowhere other inside
        refine ⟨world.setPlace thr .running, by simp [step, place, awake, Lines.step, waiting, member], ?_⟩
        simpa [Lines.step, waiting, member] using place_represents world lines rep thr .running nowhere
  | timeout thr =>
      obtain ⟨queue, sleeping⟩ := stands
      have place : world.place thr = .sleeping queue := by rw [rep.place]; exact sleeping
      have removed := rm_represents world lines rep queue thr sleeping
      have nowhere : ∀ other, thr ∉ (lines.setLine queue ((lines.line queue).erase thr)).line other := by
        intro other
        by_cases same : other = queue
        · subst same
          simpa [Lines.setLine] using (line_nodup world lines rep other).not_mem_erase
        · intro inside
          have member : thr ∈ lines.line other := by simpa [Lines.setLine, same] using inside
          rcases rep.there thr other member with here | here
          · rw [sleeping] at here
            cases here
          · rw [sleeping] at here
            cases here
            exact same rfl
      have left := place_represents _ _ removed thr .running nowhere
      refine ⟨(if world.sleep thr then world.rm queue thr else world).setPlace thr .running, ?_, ?_⟩
      · simp only [step, place, Lines.step, sleeping]
      · simpa [Lines.step, sleeping] using left
  | thrwake1 queue =>
      obtain ⟨next, taken, nextRep⟩ := dequeue_represents world lines rep queue
      refine ⟨next, ?_, ?_⟩
      · cases line : lines.line queue <;> simp [step, taken, Lines.step, Lines.leave, line]
      · simpa [Lines.step, Lines.leave] using nextRep
  | condsignal2 queue nthr =>
      obtain ⟨next, taken, nextRep⟩ := condsignal2_represents queue nthr world lines rep
      exact ⟨next, by simp [step, taken, Lines.step, Lines.leave], nextRep⟩
  | thrwakeall1 queue =>
      obtain ⟨next, taken, nextRep⟩ := thrwakeall1_represents queue _ world lines rep (line_bounded world lines rep queue)
      exact ⟨next, by simp [step, taken, Lines.step, Lines.leave], by simpa [Lines.step, Lines.leave] using nextRep⟩

-- Every thread runs and every queue is empty; the links hold anything.
def awake (links : Heap Thread) : Sleepers Thread Queue := ⟨links, fun _ => none, fun _ => none, fun _ => false, fun _ => .running⟩

def noLines : Lines Thread Queue := ⟨fun _ => [], fun _ => .running⟩

omit [DecidableEq Thread] [DecidableEq Queue] in
theorem awake_represents (links : Heap Thread) : Represents (awake links : Sleepers Thread Queue) noLines := by
  refine ⟨fun queue => ⟨rfl, rfl, ended_nil links⟩, ?_, ?_, rfl⟩
  · simp [awake, noLines]
  · simp [noLines]

-- In every sequence of calls each queue is a line: a wake-up takes the thread that has
-- waited longest, a broadcast all of them, a thread whose time is over only itself, and
-- a thread is asleep exactly while it is in the line of the queue it waits at.
theorem sleepers_refine [Fintype Thread] (links : Heap Thread) (ops : List (Op Thread Queue))
    (stands : Along Lines.step Lines.Stands noLines ops) :
    Refines step Lines.step Represents (awake links : Sleepers Thread Queue) noLines ops :=
  refines_of_invariant step Lines.step Represents Represents Lines.Stands (fun _ _ rep => rep)
    (fun world lines op => step_represents world lines op) (awake links) noLines ops (awake_represents links) stands

theorem sleepers_refine_three :
    Refines step Lines.step Represents (awake ⟨fun _ => none, fun _ => none⟩ : Sleepers (Fin 3) Bool) noLines
      [.thrwait1 0 none, .thrwait1 1 (some true), .thrsleep2 2 none, .look 0, .thrwake1 none, .look 0, .timeout 2, .thrwakeall1 (some true),
        .look 1] := by
  apply sleepers_refine
  simp [Along, Lines.Stands, Lines.step, Lines.join, Lines.setLine, Lines.setPlace, Lines.leave, noLines]

end OsZero.Sync.Sleep

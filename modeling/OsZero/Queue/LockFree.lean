import Mathlib.Data.BitVec
import OsZero.Lib.Threads
import OsZero.Sync.Atomic

set_option autoImplicit false

namespace OsZero.Queue.LockFree

open Runs Threads OsZero.Sync

variable {Thread : Type} [DecidableEq Thread]

def LFDEQ_VAL_NONE : BitVec 64 := 0

inductive Adr where
  | null
  | dummy
  | node (index : Nat)
deriving DecidableEq

structure Tagptr where
  adr : Adr
  tag : BitVec 64
deriving DecidableEq

structure Node where
  prev : Tagptr
  next : Tagptr
  val : BitVec 64
deriving DecidableEq

-- fresh counts the nodes that lfdeqalloc has handed out. enqueued and dequeued
-- are no part of the queue: the values in the order of the successful swaps of
-- the tail, and those that successful swaps of the head have taken.
structure Lfdeq where
  head : Tagptr
  tail : Tagptr
  nodes : Adr → Node
  fresh : Nat
  enqueued : List (BitVec 64)
  dequeued : List (BitVec 64)

def zero : Tagptr := ⟨.null, 0⟩

def Lfdeq.setnode (queue : Lfdeq) (adr : Adr) (node : Node) : Lfdeq := { queue with nodes := Function.update queue.nodes adr node }

-- What a thread does next, with its local variables: first the steps of
-- lfdeqenqueue, then those of lfdeqdequeue and of _lfdeqfixqueue.
inductive Pc where
  | out
  | fault
  | alloc (val : BitVec 64)
  | gettail (node : Adr)
  | setnext (node : Adr) (tail : Tagptr)
  | swaptail (node : Adr) (tail : Tagptr)
  | setprev (node : Adr) (tail : Tagptr)
  | getlast (node : Adr) (tail : Tagptr)
  | setlast (last : Adr) (prev : Tagptr)
  | gethead
  | deqtail (head : Tagptr)
  | getitem (head tail : Tagptr)
  | getval (head tail item : Tagptr)
  | cmphead (head tail item : Tagptr) (val : BitVec 64)
  | newdummy (head tail : Tagptr)
  | swapdummy (head tail : Tagptr) (node : Adr)
  | dummyprev (head tail : Tagptr) (node : Adr)
  | hptrprev (head : Tagptr) (node : Adr)
  | sethptr (hptr : Adr) (prev : Tagptr)
  | swaphead (head item : Tagptr)
  | getret (hptr : Adr)
  | ret (val : BitVec 64)
  | skiphead (head item : Tagptr)
  | fixtmp (head cur : Tagptr) (node3 : Adr)
  | fixnext (head cur : Tagptr) (node3 node1 : Adr)
  | fixloop (head cur : Tagptr) (tag1 : BitVec 64) (node3 : Adr)
  | fixcur (head cur : Tagptr) (tag1 : BitVec 64)
  | fixprev (head cur : Tagptr) (tag1 : BitVec 64) (node3 : Adr)
  | fixset (head cur : Tagptr) (tag1 : BitVec 64) (node3 : Adr)
deriving DecidableEq

inductive Call where
  | lfdeqenqueue (val : BitVec 64)
  | lfdeqdequeue
deriving DecidableEq

def Lfdeq.at (queue : Lfdeq) (adr : Adr) (next : Node → Lfdeq × Pc) : Lfdeq × Pc :=
  if adr = .null then (queue, .fault) else next (queue.nodes adr)

-- lfdeqalloc hands out a node that nobody has, with its links zeroed.
def lfdeqalloc (queue : Lfdeq) (val : BitVec 64) : Lfdeq × Adr :=
  ({ queue.setnode (.node queue.fresh) ⟨zero, zero, val⟩ with fresh := queue.fresh + 1 }, .node queue.fresh)

def swaptail (queue : Lfdeq) (node : Adr) (tail : Tagptr) : Lfdeq × Pc :=
  let res := mcmpswap queue.tail tail (queue.nodes node).next
  if res.2 then ({ queue with tail := res.1, enqueued := queue.enqueued ++ [(queue.nodes node).val] }, .setprev node tail)
  else (queue, .gettail node)

-- The comparison of the head, and the tests that follow it.
def cmphead (queue : Lfdeq) (head tail item : Tagptr) (val : BitVec 64) : Pc :=
  if head ≠ queue.head then .gethead
  else if val ≠ LFDEQ_VAL_NONE then
    if tail ≠ head then
      if head.tag ≠ item.tag then .fixtmp head tail .null else .swaphead head { item with tag := head.tag + 1 }
    else .newdummy head tail
  else if head.adr = tail.adr then .ret LFDEQ_VAL_NONE
  else if item.tag ≠ head.tag then .fixtmp head tail .null
  else .skiphead head { item with tag := head.tag + 1 }

def newdummy (queue : Lfdeq) (head tail : Tagptr) : Lfdeq × Pc :=
  let res := lfdeqalloc queue LFDEQ_VAL_NONE
  (res.1.setnode res.2 ⟨⟨res.2, tail.tag + 1⟩, ⟨tail.adr, tail.tag + 1⟩, LFDEQ_VAL_NONE⟩, .swapdummy head tail res.2)

def swapdummy (queue : Lfdeq) (head tail : Tagptr) (node : Adr) : Lfdeq × Pc :=
  let res := mcmpswap queue.tail tail (queue.nodes node).prev
  ({ queue with tail := res.1 }, if res.2 then .dummyprev head tail node else .gethead)

def swaphead (queue : Lfdeq) (head item : Tagptr) : Lfdeq × Pc :=
  let res := mcmpswap queue.head head item
  if res.2 then ({ queue with head := res.1, dequeued := queue.dequeued ++ [(queue.nodes head.adr).val] }, .getret head.adr)
  else (queue, .gethead)

-- The condition of the inner loop, and the end of a round of the outer one;
-- node3 is not initialised before the inner loop has run.
def fixloop (queue : Lfdeq) (head cur : Tagptr) (tag1 : BitVec 64) (node3 : Adr) : Pc :=
  if head = queue.head ∧ cur ≠ head then .fixcur head cur tag1 else .fixtmp head ⟨node3, tag1 - 1⟩ node3

def fixcur (node : Node) (head cur : Tagptr) (tag1 : BitVec 64) : Pc :=
  if tag1 ≠ node.next.tag then .gethead else .fixprev head cur tag1 node.next.adr

def fixprev (node : Node) (head cur : Tagptr) (tag1 : BitVec 64) (node3 : Adr) : Pc :=
  if node.prev ≠ { cur with tag := tag1 - 1 } then .fixset head { cur with tag := tag1 - 1 } tag1 node3
  else .fixloop head { cur with tag := tag1 - 1 } tag1 node3

def lfdeqstep (op : Thread × Call) (queue : Lfdeq) (pc : Pc) : Lfdeq × Pc :=
  match pc with
  | .out =>
      match op.2 with
      | .lfdeqenqueue val => (queue, .alloc val)
      | .lfdeqdequeue => (queue, .gethead)
  | .fault => (queue, .fault)
  | .alloc val => ((lfdeqalloc queue val).1, .gettail (lfdeqalloc queue val).2)
  | .gettail node => (queue, .setnext node queue.tail)
  | .setnext node tail =>
      queue.at node fun old => (queue.setnode node { old with next := ⟨tail.adr, tail.tag + 1⟩ }, .swaptail node tail)
  | .swaptail node tail => swaptail queue node tail
  | .setprev node tail => queue.at node fun old => (queue.setnode node { old with prev := ⟨node, tail.tag⟩ }, .getlast node tail)
  | .getlast node tail => queue.at tail.adr fun last => (queue, .setlast tail.adr { last.prev with adr := node })
  | .setlast last prev => queue.at last fun old => (queue.setnode last { old with prev := prev }, .out)
  | .gethead => (queue, .deqtail queue.head)
  | .deqtail head => (queue, .getitem head queue.tail)
  | .getitem head tail => queue.at head.adr fun hptr => (queue, .getval head tail hptr.prev)
  | .getval head tail item => queue.at head.adr fun hptr => (queue, .cmphead head tail item hptr.val)
  | .cmphead head tail item val => (queue, cmphead queue head tail item val)
  | .newdummy head tail => newdummy queue head tail
  | .swapdummy head tail node => swapdummy queue head tail node
  | .dummyprev head tail node =>
      queue.at node fun old => (queue.setnode node { old with prev := { old.prev with tag := tail.tag } }, .hptrprev head node)
  | .hptrprev head node => queue.at head.adr fun hptr => (queue, .sethptr head.adr { hptr.prev with adr := node })
  | .sethptr hptr prev => queue.at hptr fun old => (queue.setnode hptr { old with prev := prev }, .gethead)
  | .swaphead head item => swaphead queue head item
  | .getret hptr => queue.at hptr fun old => (queue, .ret old.val)
  | .ret _ => (queue, .out)
  | .skiphead head item => ({ queue with head := (mcmpswap queue.head head item).1 }, .gethead)
  | .fixtmp head cur node3 => (queue, .fixnext head cur node3 queue.head.adr)
  | .fixnext head cur node3 node1 => queue.at node1 fun _ => (queue, .fixloop head cur cur.tag node3)
  | .fixloop head cur tag1 node3 => (queue, fixloop queue head cur tag1 node3)
  | .fixcur head cur tag1 => queue.at cur.adr fun node => (queue, fixcur node head cur tag1)
  | .fixprev head cur tag1 node3 => queue.at cur.adr fun node => (queue, fixprev node head cur tag1 node3)
  | .fixset head cur tag1 node3 =>
      queue.at node3 fun old => (queue.setnode node3 { old with prev := cur }, .fixloop head cur tag1 node3)

def lfdeqinitqueue : Lfdeq := ⟨⟨.dummy, 0⟩, ⟨.dummy, 0⟩, fun _ => ⟨zero, zero, LFDEQ_VAL_NONE⟩, 0, [], []⟩

def start : World Thread Lfdeq Pc := ⟨lfdeqinitqueue, fun _ => .out⟩

def Pc.fixes : Pc → Bool
  | .fixtmp .. => true
  | .fixnext .. => true
  | .fixloop .. => true
  | .fixcur .. => true
  | .fixprev .. => true
  | .fixset .. => true
  | _ => false

def Good (world : World Thread Lfdeq Pc) : Prop := world.shared.dequeued <+: world.shared.enqueued

structure Each (world : World Thread Lfdeq Pc) (op : Thread × Call) : Prop where
  empty : (after Prod.fst lfdeqstep world op).own op.1 = .ret LFDEQ_VAL_NONE → world.shared.dequeued = world.shared.enqueued
  repairs : (world.own op.1).fixes = true →
    ∃ count, (alone lfdeqstep op count (world.shared, world.own op.1)).2.fixes = false

def Pc.sound (queue : Lfdeq) : Pc → Bool
  | .cmphead .. => queue.enqueued = []
  | _ => true

-- A dequeue compares the head only while no swap of the tail has succeeded.
def Sound (world : World Thread Lfdeq Pc) (op : Thread × Call) : Prop := (world.own op.1).sound world.shared = true

theorem setnode_here (queue : Lfdeq) (adr : Adr) (node : Node) : (queue.setnode adr node).nodes adr = node :=
  Function.update_self _ _ _

theorem setnode_there (queue : Lfdeq) (adr : Adr) (node : Node) (other : Adr) (different : other ≠ adr) :
    (queue.setnode adr node).nodes other = queue.nodes other := Function.update_of_ne different _ _

def Owned (queue : Lfdeq) (node : Adr) : Prop := ∃ index < queue.fresh, node = .node index

-- Where a thread can be, and what its variables hold: a tail always names the
-- dummy, because an enqueue swaps in the link to the node it found there.
def Placed (queue : Lfdeq) : Pc → Prop
  | .out => True
  | .alloc _ => True
  | .gettail node => Owned queue node
  | .setnext node tail => Owned queue node ∧ tail.adr = .dummy
  | .swaptail node tail => Owned queue node ∧ tail.adr = .dummy ∧ (queue.nodes node).next.adr = .dummy
  | .setprev node tail => Owned queue node ∧ tail.adr = .dummy
  | .getlast node tail => Owned queue node ∧ tail.adr = .dummy
  | .setlast last _ => last = .dummy
  | .gethead => True
  | .deqtail head => head = queue.head
  | .getitem head tail => head = queue.head ∧ tail.adr = .dummy
  | .getval head tail _ => head = queue.head ∧ tail.adr = .dummy
  | .cmphead head tail _ val => head = queue.head ∧ tail.adr = .dummy ∧ val = LFDEQ_VAL_NONE
  | .ret _ => True
  | _ => False

structure Inv (world : World Thread Lfdeq Pc) : Prop where
  head : world.shared.head.adr = .dummy
  tail : world.shared.tail.adr = .dummy
  dummy : (world.shared.nodes .dummy).val = LFDEQ_VAL_NONE
  dequeued : world.shared.dequeued = []
  placed : ∀ thread, Placed world.shared (world.own thread)

structure Keeps (queue next : Lfdeq) : Prop where
  head : next.head = queue.head
  tail : queue.tail.adr = .dummy → next.tail.adr = .dummy
  dummy : (next.nodes .dummy).val = (queue.nodes .dummy).val
  fresh : queue.fresh ≤ next.fresh
  links : ∀ node, Owned queue node → (queue.nodes node).next.adr = .dummy → (next.nodes node).next.adr = .dummy
  dequeued : next.dequeued = queue.dequeued

theorem keeps_same (queue : Lfdeq) : Keeps queue queue := ⟨rfl, id, rfl, Nat.le_refl _, fun _ _ => id, rfl⟩

theorem owned_later (queue next : Lfdeq) (keeps : Keeps queue next) (node : Adr) (owned : Owned queue node) : Owned next node := by
  obtain ⟨index, below, rfl⟩ := owned
  exact ⟨index, Nat.lt_of_lt_of_le below keeps.fresh, rfl⟩

theorem placed_later (queue next : Lfdeq) (keeps : Keeps queue next) (pc : Pc) (placed : Placed queue pc) : Placed next pc := by
  have later := owned_later queue next keeps
  cases pc with
  | out => trivial
  | alloc val => trivial
  | gettail node => exact later node placed
  | setnext node tail => exact ⟨later node placed.1, placed.2⟩
  | swaptail node tail => exact ⟨later node placed.1, placed.2.1, keeps.links node placed.1 placed.2.2⟩
  | setprev node tail => exact ⟨later node placed.1, placed.2⟩
  | getlast node tail => exact ⟨later node placed.1, placed.2⟩
  | setlast last prev => exact placed
  | gethead => trivial
  | deqtail head => exact placed.trans keeps.head.symm
  | getitem head tail => exact ⟨placed.1.trans keeps.head.symm, placed.2⟩
  | getval head tail item => exact ⟨placed.1.trans keeps.head.symm, placed.2⟩
  | cmphead head tail item val => exact ⟨placed.1.trans keeps.head.symm, placed.2⟩
  | ret val => trivial
  | _ => exact placed.elim

theorem inv_put (world : World Thread Lfdeq Pc) (thread : Thread) (next : Lfdeq × Pc) (inv : Inv world)
    (keeps : Keeps world.shared next.1) (here : Placed next.1 next.2) : Inv (world.put thread next) := by
  refine ⟨?_, keeps.tail inv.tail, keeps.dummy.trans inv.dummy, keeps.dequeued.trans inv.dequeued, ?_⟩
  · rw [put_shared, keeps.head]
    exact inv.head
  · apply put_all world thread next fun _ => Placed next.1
    · exact here
    · exact fun other _ => placed_later world.shared next.1 keeps _ (inv.placed other)

theorem inv_still (world : World Thread Lfdeq Pc) (thread : Thread) (next : Pc) (inv : Inv world)
    (here : Placed world.shared next) : Inv (world.put thread (world.shared, next)) :=
  inv_put world thread _ inv (keeps_same world.shared) here

theorem at_owned (queue : Lfdeq) (node : Adr) (owned : Owned queue node) (next : Node → Lfdeq × Pc) :
    queue.at node next = next (queue.nodes node) := by
  obtain ⟨index, -, rfl⟩ := owned
  exact if_neg (by simp)

theorem at_dummy (queue : Lfdeq) (adr : Adr) (dummy : adr = .dummy) (next : Node → Lfdeq × Pc) :
    queue.at adr next = next (queue.nodes .dummy) := by
  subst dummy
  exact if_neg (by simp)

-- A write to a node that keeps its value and gives it no link away from the dummy.
theorem keeps_setnode (queue : Lfdeq) (adr : Adr) (node : Node) (val : node.val = (queue.nodes adr).val)
    (next : (queue.nodes adr).next.adr = .dummy → node.next.adr = .dummy) : Keeps queue (queue.setnode adr node) := by
  refine ⟨rfl, id, ?_, Nat.le_refl _, ?_, rfl⟩
  · by_cases same : Adr.dummy = adr
    · rw [← same, setnode_here, val, same]
    · rw [setnode_there queue adr node .dummy same]
  · intro other _ link
    by_cases same : other = adr
    · subst same
      rw [setnode_here]
      exact next link
    · rw [setnode_there queue adr node other same]
      exact link

theorem alloc_there (queue : Lfdeq) (val : BitVec 64) (adr : Adr) (old : adr ≠ .node queue.fresh) :
    (lfdeqalloc queue val).1.nodes adr = queue.nodes adr := Function.update_of_ne old _ _

theorem keeps_alloc (queue : Lfdeq) (val : BitVec 64) : Keeps queue (lfdeqalloc queue val).1 := by
  refine ⟨rfl, id, ?_, Nat.le_succ _, ?_, rfl⟩
  · rw [alloc_there queue val .dummy (by simp)]
  · rintro node ⟨index, below, rfl⟩ link
    rw [alloc_there queue val (.node index) (by simp [Nat.ne_of_lt below])]
    exact link

theorem swaptail_step (world : World Thread Lfdeq Pc) (thread : Thread) (node : Adr) (tail : Tagptr) (inv : Inv world)
    (placed : Placed world.shared (.swaptail node tail)) : Inv (world.put thread (swaptail world.shared node tail)) := by
  obtain ⟨owned, named, link⟩ := placed
  unfold swaptail
  by_cases same : world.shared.tail = tail
  · rw [same, cmpswap_same]
    apply inv_put world thread _ inv ⟨rfl, fun _ => link, rfl, Nat.le_refl _, fun _ _ => id, rfl⟩
    exact ⟨owned, named⟩
  · rw [cmpswap_other _ _ _ same]
    exact inv_still world thread _ inv owned

omit [DecidableEq Thread] in
-- The head and the tail both name the dummy, whose value is none.
theorem cmphead_none (world : World Thread Lfdeq Pc) (head tail item : Tagptr) (val : BitVec 64) (inv : Inv world)
    (placed : Placed world.shared (.cmphead head tail item val)) : cmphead world.shared head tail item val = .ret LFDEQ_VAL_NONE := by
  obtain ⟨rfl, named, rfl⟩ := placed
  unfold cmphead
  rw [if_neg (by simp), if_neg (by simp), if_pos (by rw [inv.head, named])]

theorem inv_step (world : World Thread Lfdeq Pc) (op : Thread × Call) (inv : Inv world) :
    Inv (after Prod.fst lfdeqstep world op) := by
  have placed := inv.placed op.1
  have still := inv_still world op.1
  unfold after lfdeqstep
  cases here : world.own op.1 with
  | out =>
      cases op.2 with
      | lfdeqenqueue val => exact still _ inv trivial
      | lfdeqdequeue => exact still _ inv trivial
  | alloc val => exact inv_put world op.1 _ inv (keeps_alloc world.shared val) ⟨_, Nat.lt_succ_self _, rfl⟩
  | gettail node =>
      rw [here] at placed
      exact still _ inv ⟨placed, inv.tail⟩
  | setnext node tail =>
      rw [here] at placed
      dsimp only
      rw [at_owned world.shared node placed.1]
      have keeps := keeps_setnode world.shared node { world.shared.nodes node with next := ⟨tail.adr, tail.tag + 1⟩ } rfl
        fun _ => placed.2
      apply inv_put world op.1 _ inv keeps
      exact ⟨placed.1, placed.2, by rw [setnode_here]; exact placed.2⟩
  | swaptail node tail =>
      rw [here] at placed
      exact swaptail_step world op.1 node tail inv placed
  | setprev node tail =>
      rw [here] at placed
      dsimp only
      rw [at_owned world.shared node placed.1]
      exact inv_put world op.1 _ inv (keeps_setnode world.shared node _ rfl id) placed
  | getlast node tail =>
      rw [here] at placed
      dsimp only
      rw [at_dummy world.shared tail.adr placed.2]
      exact still _ inv placed.2
  | setlast last prev =>
      rw [here] at placed
      dsimp only
      rw [at_dummy world.shared last placed, placed]
      exact inv_put world op.1 _ inv (keeps_setnode world.shared .dummy _ rfl id) trivial
  | gethead => exact still _ inv rfl
  | deqtail head =>
      rw [here] at placed
      exact still _ inv ⟨placed, inv.tail⟩
  | getitem head tail =>
      rw [here] at placed
      dsimp only
      rw [at_dummy world.shared head.adr (placed.1 ▸ inv.head)]
      exact still _ inv placed
  | getval head tail item =>
      rw [here] at placed
      dsimp only
      rw [at_dummy world.shared head.adr (placed.1 ▸ inv.head)]
      exact still _ inv ⟨placed.1, placed.2, inv.dummy⟩
  | cmphead head tail item val =>
      rw [here] at placed
      dsimp only
      rw [cmphead_none world head tail item val inv placed]
      exact still _ inv trivial
  | ret val => exact still _ inv trivial
  | _ =>
      rw [here] at placed
      exact placed.elim

omit [DecidableEq Thread] in
theorem inv_repairs (world : World Thread Lfdeq Pc) (thread : Thread) (inv : Inv world) : (world.own thread).fixes = false := by
  have placed := inv.placed thread
  cases here : world.own thread <;> rw [here] at placed
  case fixtmp | fixnext | fixloop | fixcur | fixprev | fixset => exact placed.elim
  all_goals rfl

theorem ret_elsewhere (world : World Thread Lfdeq Pc) (op : Thread × Call) (inv : Inv world)
    (elsewhere : ∀ head tail item val, world.own op.1 ≠ .cmphead head tail item val) :
    (after Prod.fst lfdeqstep world op).own op.1 ≠ .ret LFDEQ_VAL_NONE := by
  have placed := inv.placed op.1
  unfold after lfdeqstep
  rw [put_here]
  cases here : world.own op.1 with
  | cmphead head tail item val => exact absurd here (elsewhere head tail item val)
  | out =>
      dsimp only
      cases op.2 <;> simp
  | swaptail node tail =>
      dsimp only [swaptail]
      split <;> simp
  | setnext node tail | setprev node tail | getlast node tail | setlast last prev | getitem head tail | getval head tail item =>
      dsimp only [Lfdeq.at]
      split <;> simp
  | alloc val | gettail node | gethead | deqtail head | ret val => simp
  | _ =>
      rw [here] at placed
      exact placed.elim

theorem each_iff_sound (world : World Thread Lfdeq Pc) (op : Thread × Call) (inv : Inv world) : Each world op ↔ Sound world op := by
  by_cases compares : ∃ head tail item val, world.own op.1 = .cmphead head tail item val
  · obtain ⟨head, tail, item, val, here⟩ := compares
    have placed := inv.placed op.1
    rw [here] at placed
    have returns : (after Prod.fst lfdeqstep world op).own op.1 = .ret LFDEQ_VAL_NONE := by
      unfold after
      rw [put_here, here]
      exact cmphead_none world head tail item val inv placed
    have condition : Sound world op ↔ world.shared.enqueued = [] := by
      unfold Sound
      rw [here]
      simp [Pc.sound]
    rw [condition]
    constructor
    · intro each
      rw [← each.empty returns, inv.dequeued]
    · intro empty
      refine ⟨fun _ => by rw [inv.dequeued, empty], fun fixes => ?_⟩
      rw [inv_repairs world op.1 inv] at fixes
      cases fixes
  · have elsewhere : ∀ head tail item val, world.own op.1 ≠ .cmphead head tail item val :=
      fun head tail item val here => compares ⟨head, tail, item, val, here⟩
    have sound : Sound world op := by
      unfold Sound Pc.sound
      split
      · next here => exact absurd here (elsewhere _ _ _ _)
      · rfl
    refine iff_of_true ⟨fun returns => absurd returns (ret_elsewhere world op inv elsewhere), fun fixes => ?_⟩ sound
    rw [inv_repairs world op.1 inv] at fixes
    cases fixes

omit [DecidableEq Thread] in
theorem start_inv : Inv (start : World Thread Lfdeq Pc) := ⟨rfl, rfl, rfl, rfl, fun _ => trivial⟩

theorem lfdeq_fifo (steps : List (Thread × Call)) :
    Holds (act Prod.fst lfdeqstep) Good Each start steps ↔ Meets (act Prod.fst lfdeqstep) Sound start steps := by
  apply holds_iff_meets (act Prod.fst lfdeqstep) Inv Good Each Sound ?_ each_iff_sound ?_ start steps start_inv
  · intro world inv
    unfold Good
    rw [inv.dequeued]
    exact List.nil_prefix
  · exact fun world op inv => ⟨_, rfl, inv_step world op inv⟩

-- A value is enqueued, and the dequeue after it finds nothing.
theorem lfdeq_loses :
    ¬ Holds (act Prod.fst lfdeqstep) Good Each start
      (List.replicate 8 ((0 : Fin 1), Call.lfdeqenqueue 5) ++ List.replicate 6 (0, .lfdeqdequeue)) := by
  intro holds
  have last := holds_last Prod.fst lfdeqstep _ _ _
    (List.replicate 8 ((0 : Fin 1), Call.lfdeqenqueue 5) ++ List.replicate 5 (0, .lfdeqdequeue)) (0, .lfdeqdequeue) holds
  exact absurd (last.empty (by decide +kernel)) (by decide +kernel)

end OsZero.Queue.LockFree

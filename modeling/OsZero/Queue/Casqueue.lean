import OsZero.Lib.Chains
import OsZero.Lib.Threads

set_option autoImplicit false

namespace OsZero.Queue.Markbit

open Runs Threads

variable {Thread Item : Type} [DecidableEq Thread] [DecidableEq Item]

-- A pointer whose lowest bit is the mark; an item's address leaves it clear.
structure Word (Item : Type) where
  ptr : Option Item
  mark : Bool
deriving DecidableEq

-- The three counts are no part of the queue: for each item the pushes begun,
-- the pushes finished and the pops that have returned it.
structure Casqueue (Item : Type) where
  ptr : Word Item
  tail : Word Item
  next : Item → Word Item
  prev : Item → Option Item
  begun : Item → Nat
  pushed : Item → Nat
  popped : Item → Nat

def Casqueue.markptr (queue : Casqueue Item) (mark : Bool) : Casqueue Item := { queue with ptr := { queue.ptr with mark := mark } }

def Casqueue.marktail (queue : Casqueue Item) (mark : Bool) : Casqueue Item := { queue with tail := { queue.tail with mark := mark } }

def Casqueue.marknext (queue : Casqueue Item) (item : Item) (mark : Bool) : Casqueue Item :=
  { queue with next := Function.update queue.next item { queue.next item with mark := mark } }

def Casqueue.setprev (queue : Casqueue Item) (item : Item) (prev : Option Item) : Casqueue Item :=
  { queue with prev := Function.update queue.prev item prev }

-- What a thread does next, with its local variables: first the steps of
-- casqueuepush, then those of casqueuepop.
inductive Pc (Item : Type) where
  | out
  | noprev (item : Item)
  | setptr (item : Item)
  | settail (item : Item)
  | gethead (item : Item)
  | setnext (item head : Item)
  | headprev (item head : Item)
  | clrnext (item head : Item)
  | clrtail (item : Item)
  | puttail (item : Item)
  | putptr (item : Item)
  | undotail (item : Item)
  | undoptr (item : Item)
  | popptr (nspin : Nat)
  | poptail (nspin : Nat)
  | pophead (nspin : Nat)
  | popnext (nspin : Nat) (head : Item)
  | readnext (nspin : Nat) (head : Item)
  | marknext (nspin : Nat) (head next : Item)
  | nextprev (nspin : Nat) (head next : Item)
  | unmark (nspin : Nat) (head next : Item)
  | getnext (nspin : Nat) (head : Item)
  | putnext (nspin : Nat) (head : Item) (next : Word Item)
  | popclrnext (nspin : Nat) (head : Item) (item : Option Item)
  | popclrtail (nspin : Nat) (item : Option Item)
  | popclrptr (nspin : Nat) (item : Option Item)
  | poploop (nspin : Nat) (item : Option Item)
  | busyhead (nspin : Nat) (head : Item)
  | busyptr (nspin : Nat) (head : Item)
  | busyspin (nspin : Nat) (head : Item)
  | busynext (nspin : Nat) (head : Item)
  | nextptr (nspin : Nat) (head : Item)
  | nextspin (nspin : Nat) (head : Item)
  | ret (item : Option Item)
deriving DecidableEq

inductive Call (Item : Type) where
  | casqueuepush (item : Item)
  | casqueuepop

def Casqueue.begin (queue : Casqueue Item) (item : Item) : Casqueue Item :=
  { queue with begun := Function.update queue.begun item (queue.begun item + 1) }

def Casqueue.finish (queue : Casqueue Item) (item : Item) : Casqueue Item :=
  { queue with ptr := ⟨some item, false⟩, pushed := Function.update queue.pushed item (queue.pushed item + 1) }

def Casqueue.hand (queue : Casqueue Item) : Option Item → Casqueue Item
  | none => queue
  | some item => { queue with popped := Function.update queue.popped item (queue.popped item + 1) }

-- m_cmpsetbit and the branch on the bit it has found.
def setbit (busy : Bool) (queue marked : Casqueue Item) (taken held : Pc Item) : Casqueue Item × Pc Item :=
  if busy then (queue, held) else (marked, taken)

def pushstep (queue : Casqueue Item) : Pc Item → Casqueue Item × Pc Item
  | .noprev item => (queue.setprev item none, .setptr item)
  | .setptr item => setbit queue.ptr.mark queue (queue.markptr true) (.settail item) (.setptr item)
  | .settail item => setbit queue.tail.mark queue (queue.marktail true) (.gethead item) (.putptr item)
  | .gethead item =>
      match queue.ptr.ptr with
      | some head => (queue, .setnext item head)
      | none => (queue, .puttail item)
  | .setnext item head => setbit (queue.next head).mark queue (queue.marknext head true) (.headprev item head) (.undotail item)
  | .headprev item head => (queue.setprev head (some item), .clrnext item head)
  | .clrnext item head => (queue.marknext head false, .clrtail item)
  | .clrtail item => (queue.marktail false, .putptr item)
  | .puttail item => ({ queue with tail := ⟨some item, false⟩ }, .putptr item)
  | .putptr item => (queue.finish item, .out)
  | .undotail item => (queue.marktail false, .undoptr item)
  | .undoptr item => (queue.markptr false, .setptr item)
  | pc => (queue, pc)

-- nspin-- and the return when it has come to zero.
def spin (nspin : Nat) (next : Nat → Pc Item) : Pc Item := if nspin - 1 = 0 then .ret none else next (nspin - 1)

def popstep (queue : Casqueue Item) : Pc Item → Casqueue Item × Pc Item
  | .popptr nspin => setbit queue.ptr.mark queue (queue.markptr true) (.poptail nspin) (.poploop nspin none)
  | .poptail nspin => setbit queue.tail.mark queue (queue.marktail true) (.pophead nspin) (.popclrptr nspin none)
  | .pophead nspin =>
      match queue.ptr.ptr with
      | some head => (queue, .popnext nspin head)
      | none => (queue, .popclrtail nspin none)
  | .popnext nspin head => setbit (queue.next head).mark queue (queue.marknext head true) (.readnext nspin head) (.busyhead nspin head)
  | .readnext nspin head =>
      match (queue.next head).ptr with
      | some next => (queue, .marknext nspin head next)
      | none => (queue, .getnext nspin head)
  | .marknext nspin head next => setbit (queue.next next).mark queue (queue.marknext next true) (.nextprev nspin head next) (.busynext nspin head)
  | .nextprev nspin head next => (queue.setprev next none, .unmark nspin head next)
  | .unmark nspin head next => (queue.marknext next false, .getnext nspin head)
  | .getnext nspin head => (queue, .putnext nspin head (queue.next head))
  | .putnext nspin head next => ({ queue with ptr := next }, .popclrnext nspin head (some head))
  | .popclrnext nspin head item => (queue.marknext head false, .popclrtail nspin item)
  | .popclrtail nspin item => (queue.marktail false, .popclrptr nspin item)
  | .popclrptr nspin item => (queue.markptr false, .poploop nspin item)
  | .poploop nspin item => (queue, if item = none then spin nspin .popptr else .ret item)
  | .busyhead nspin head => (queue.marknext head false, .busyptr nspin head)
  | .busyptr nspin head => (queue.markptr false, .busyspin nspin head)
  | .busyspin nspin head => (queue, spin nspin fun nspin => .popclrnext nspin head none)
  | .busynext nspin head => (queue.marknext head false, .nextptr nspin head)
  | .nextptr nspin head => (queue.markptr false, .nextspin nspin head)
  -- continue goes to the condition of the loop, and item is not NULL there
  | .nextspin nspin head => (queue, spin nspin fun nspin => .poploop nspin (some head))
  | .ret item => (queue.hand item, .out)
  | pc => (queue, pc)

-- A thread pushes an item again only after a pop has returned it.
def call (queue : Casqueue Item) : Call Item → Casqueue Item × Pc Item
  | .casqueuepush item => if queue.begun item = queue.popped item then (queue.begin item, .noprev item) else (queue, .out)
  | .casqueuepop => (queue, .popptr 8)

def Pc.pushing : Pc Item → Option Item
  | .noprev item | .setptr item | .settail item | .gethead item | .setnext item _ | .headprev item _ | .clrnext item _
  | .clrtail item | .puttail item | .putptr item | .undotail item | .undoptr item => some item
  | _ => none

def casqueuestep (op : Thread × Call Item) (queue : Casqueue Item) (pc : Pc Item) : Casqueue Item × Pc Item :=
  if pc = .out then call queue op.2 else if pc.pushing ≠ none then pushstep queue pc else popstep queue pc

def start (next prev : Item → Option Item) : World Thread (Casqueue Item) (Pc Item) :=
  ⟨⟨⟨none, false⟩, ⟨none, false⟩, fun item => ⟨next item, false⟩, prev, fun _ => 0, fun _ => 0, fun _ => 0⟩, fun _ => .out⟩

-- One thread goes on alone until its call returns.
def returns (op : Thread × Call Item) : Nat → Casqueue Item × Pc Item → Option (Casqueue Item × Option Item)
  | 0, _ => none
  | fuel + 1, now =>
      match now.2 with
      | .ret item => some (now.1, item)
      | _ => returns op fuel (casqueuestep op now.1 now.2)

def Returns (thread : Thread) (now : Casqueue Item × Pc Item) (queue : Casqueue Item) (item : Option Item) : Prop :=
  ∃ fuel, returns (thread, .casqueuepop) fuel now = some (queue, item)

-- Repeated pops by one thread return the items one after the other, then NULL.
def Drains (thread : Thread) : List Item → Casqueue Item → Prop
  | [], queue => ∃ after, Returns thread (queue, .out) after none
  | item :: items, queue => ∃ after, Returns thread (queue, .out) after (some item) ∧ Drains thread items (after.hand (some item))

def Unmarked (queue : Casqueue Item) : Prop := queue.ptr.mark = false ∧ queue.tail.mark = false ∧ ∀ item, (queue.next item).mark = false

structure Quiet (queue : Casqueue Item) : Prop where
  unmarked : Unmarked queue
  drains : ∀ thread : Thread, ∃ items : List Item, items.Nodup ∧ (∀ item, item ∈ items ↔ queue.pushed item = queue.popped item + 1) ∧
    Drains thread items queue

structure Good (world : World Thread (Casqueue Item) (Pc Item)) : Prop where
  once : ∀ item, world.shared.popped item ≤ world.shared.pushed item
  quiet : (∀ thread, world.own thread = .out) → @Quiet Thread Item _ world.shared

-- A push that takes the queue finds in its item's next the item at the head.
def Sound (world : World Thread (Casqueue Item) (Pc Item)) (op : Thread × Call Item) : Prop :=
  ∀ item, world.own op.1 = .setptr item → world.shared.ptr.mark = false → (world.shared.next item).ptr = world.shared.ptr.ptr

instance [Fintype Item] (world : World Thread (Casqueue Item) (Pc Item)) (op : Thread × Call Item) : Decidable (Sound world op) :=
  inferInstanceAs (Decidable (∀ item, world.own op.1 = .setptr item → world.shared.ptr.mark = false →
    (world.shared.next item).ptr = world.shared.ptr.ptr))

end OsZero.Queue.Markbit

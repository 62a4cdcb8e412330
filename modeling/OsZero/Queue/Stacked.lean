import OsZero.Queue.Casqueue

set_option autoImplicit false

namespace OsZero.Queue.Markbit

open Runs Threads

variable {Thread Item : Type} [DecidableEq Thread] [DecidableEq Item]

def Linked (next : Item → Word Item) (head : Option Item) (items : List Item) : Prop :=
  Chains.Seg (fun item => (next item).ptr) head items none

-- The marks inside the queue while ptr is marked: that of tail, and at most
-- two of the items'.
def Marked (queue : Casqueue Item) (tail : Bool) (first second : Option Item) : Prop :=
  queue.tail.mark = tail ∧ ∀ item, (queue.next item).mark = decide (some item = first ∨ some item = second)

section Marks

variable (queue : Casqueue Item) (tail : Bool) (first second : Option Item)

theorem marked_free (item : Item) (marked : Marked queue tail first second) (apart : some item ≠ first) (other : some item ≠ second) :
    (queue.next item).mark = false := by
  rw [marked.2 item]
  simp [apart, other]

theorem marktail_marked (mark : Bool) (marked : Marked queue tail first second) : Marked (queue.marktail mark) mark first second :=
  ⟨rfl, marked.2⟩

theorem marknext_marked (item : Item) (mark : Bool) (first' second' : Option Item) (marked : Marked queue tail first second)
    (here : decide (some item = first' ∨ some item = second') = mark)
    (there : ∀ other, other ≠ item → (some other = first ∨ some other = second ↔ some other = first' ∨ some other = second')) :
    Marked (queue.marknext item mark) tail first' second' := by
  refine ⟨marked.1, fun other => ?_⟩
  by_cases same : other = item
  · subst same
    simp [Casqueue.marknext, here]
  · simp only [Casqueue.marknext, Function.update_of_ne same, marked.2 other, there other same]

theorem markfirst_marked (item : Item) (marked : Marked queue tail none none) : Marked (queue.marknext item true) tail (some item) none :=
  marknext_marked queue tail none none item true (some item) none marked (by simp) fun other different => by simp [different]

theorem clearfirst_marked (item : Item) (marked : Marked queue tail (some item) none) : Marked (queue.marknext item false) tail none none :=
  marknext_marked queue tail (some item) none item false none none marked (by simp) fun other different => by simp [different]

theorem marksecond_marked (item other : Item) (marked : Marked queue tail (some item) none) :
    Marked (queue.marknext other true) tail (some item) (some other) :=
  marknext_marked queue tail (some item) none other true (some item) (some other) marked (by simp) fun third different => by simp [different]

theorem clearsecond_marked (item other : Item) (apart : item ≠ other) (marked : Marked queue tail (some item) (some other)) :
    Marked (queue.marknext other false) tail (some item) none :=
  marknext_marked queue tail (some item) (some other) other false (some item) none marked (by simp [Ne.symm apart])
    fun third different => by simp [different]

theorem marknext_ptr (item : Item) (mark : Bool) (other : Item) : ((queue.marknext item mark).next other).ptr = (queue.next other).ptr := by
  by_cases here : other = item
  · subst here
    simp [Casqueue.marknext]
  · simp [Casqueue.marknext, here]

end Marks

omit [DecidableEq Item] in
theorem linked_same (next other : Item → Word Item) (items : List Item) (same : ∀ item, (other item).ptr = (next item).ptr) (head : Option Item)
    (linked : Linked next head items) : Linked other head items :=
  Chains.seg_frame _ _ head none items linked fun item _ => same item

-- What is true of the queue while the thread at pc has it: its marks, and that
-- a push keeps the head its item points to.
def Pc.Fits (queue : Casqueue Item) : Pc Item → Prop
  | .out | .noprev _ | .setptr _ | .popptr _ | .poploop _ _ | .ret _ => True
  | .settail item | .putptr item => Marked queue false none none ∧ (queue.next item).ptr = queue.ptr.ptr
  | .gethead item | .clrtail item | .puttail item => Marked queue true none none ∧ (queue.next item).ptr = queue.ptr.ptr
  | .setnext item head => Marked queue true none none ∧ (queue.next item).ptr = queue.ptr.ptr ∧ queue.ptr.ptr = some head
  | .headprev item head | .clrnext item head => Marked queue true (some head) none ∧ (queue.next item).ptr = queue.ptr.ptr
  | .poptail _ | .popclrptr _ _ => Marked queue false none none
  | .pophead _ | .popclrtail _ _ => Marked queue true none none
  | .popnext _ head => Marked queue true none none ∧ queue.ptr.ptr = some head
  | .readnext _ head | .getnext _ head => Marked queue true (some head) none ∧ queue.ptr.ptr = some head
  | .marknext _ head next => Marked queue true (some head) none ∧ queue.ptr.ptr = some head ∧ (queue.next head).ptr = some next
  | .nextprev _ head next | .unmark _ head next => Marked queue true (some head) (some next) ∧ queue.ptr.ptr = some head ∧ head ≠ next
  | .putnext _ head next => Marked queue true (some head) none ∧ queue.ptr.ptr = some head ∧ next = queue.next head
  | .popclrnext _ head item => Marked queue true (some head) none ∧ item = some head
  | _ => False

def Pc.inside : Pc Item → Bool
  | .out | .noprev _ | .setptr _ | .popptr _ | .poploop _ _ | .ret _ => false
  | _ => true

-- The item a pop has taken off the queue and not yet returned.
def Pc.popping : Pc Item → Option Item
  | .popclrnext _ _ item | .popclrtail _ item | .popclrptr _ item | .poploop _ item | .ret item => item
  | _ => none

-- Who has an item: the client, a thread that pushes it, the queue, or a thread
-- that has popped it.
inductive Owner (Thread : Type) where
  | client
  | push (thread : Thread)
  | queue
  | pop (thread : Thread)

def Owner.begun : Owner Thread → Nat
  | .client => 0
  | _ => 1

def Owner.pushed : Owner Thread → Nat
  | .queue | .pop _ => 1
  | _ => 0

structure Counted (queue : Casqueue Item) (owner : Item → Owner Thread) : Prop where
  begun : ∀ item, queue.begun item = queue.popped item + (owner item).begun
  pushed : ∀ item, queue.pushed item = queue.popped item + (owner item).pushed

-- Mutual exclusion on the mark of ptr, the chain from ptr, and who has each item.
structure Inv (world : World Thread (Casqueue Item) (Pc Item)) (lock : Option Thread) (items : List Item) (owner : Item → Owner Thread) :
    Prop where
  inside : ∀ thread, (world.own thread).inside = true ↔ lock = some thread
  mark : world.shared.ptr.mark = lock.isSome
  clear : lock = none → Marked world.shared false none none
  fits : ∀ thread, (world.own thread).Fits world.shared
  linked : Linked world.shared.next world.shared.ptr.ptr items
  nodup : items.Nodup
  pushing : ∀ thread item, owner item = .push thread ↔ (world.own thread).pushing = some item
  popping : ∀ thread item, owner item = .pop thread ↔ (world.own thread).popping = some item
  stored : ∀ item, owner item = .queue ↔ item ∈ items
  counted : Counted world.shared owner

omit [DecidableEq Thread] in
theorem start_inv (next prev : Item → Option Item) :
    Inv (start next prev : World Thread (Casqueue Item) (Pc Item)) none [] (fun _ => .client) := by
  refine ⟨?_, rfl, fun _ => ⟨rfl, fun _ => rfl⟩, fun _ => trivial, rfl, List.nodup_nil, ?_, ?_, ?_, ⟨fun _ => rfl, fun _ => rfl⟩⟩
  · intro thread
    simp [start, Pc.inside]
  · intro thread item
    simp [start, Pc.pushing]
  · intro thread item
    simp [start, Pc.popping]
  · simp

theorem fits_outside (queue other : Casqueue Item) (pc : Pc Item) (outside : pc.inside = false) (fits : pc.Fits queue) : pc.Fits other := by
  cases pc <;> first | exact trivial | exact fits.elim | simp [Pc.inside] at outside

theorem fits_same (queue other : Casqueue Item) (pc : Pc Item) (ptr : other.ptr = queue.ptr) (tail : other.tail = queue.tail)
    (next : other.next = queue.next) (fits : pc.Fits queue) : pc.Fits other := by
  obtain ⟨first, last, links, prev, begun, pushed, popped⟩ := queue
  obtain ⟨first', last', links', prev', begun', pushed', popped'⟩ := other
  obtain rfl : first' = first := ptr
  obtain rfl : last' = last := tail
  obtain rfl : links' = links := next
  cases pc <;> exact fits

section Step

variable (world : World Thread (Casqueue Item) (Pc Item)) (lock : Option Thread) (items : List Item) (owner : Item → Owner Thread)
  (inv : Inv world lock items owner) (thread : Thread)

include inv

omit [DecidableEq Thread] in
theorem lock_mine (here : (world.own thread).inside = true) : lock = some thread := (inv.inside thread).mp here

omit [DecidableEq Thread] in
theorem others_outside (mine : lock = some thread ∨ lock = none) (other : Thread) (different : other ≠ thread) :
    (world.own other).inside = false := by
  cases inside : (world.own other).inside with
  | false => rfl
  | true =>
      have theirs := (inv.inside other).mp inside
      obtain mine | free := mine
      · rw [mine] at theirs
        exact absurd (Option.some.inj theirs).symm different
      · rw [free] at theirs
        cases theirs

-- A step outside that leaves the queue's pointers and counts as they are.
theorem inv_outside (queue : Casqueue Item) (pc : Pc Item) (before : (world.own thread).inside = false) (outside : pc.inside = false)
    (ptr : queue.ptr = world.shared.ptr) (tail : queue.tail = world.shared.tail) (next : queue.next = world.shared.next)
    (fits : pc.Fits queue) (owned : Item → Owner Thread)
    (pushing : ∀ item, owned item = .push thread ↔ pc.pushing = some item)
    (popping : ∀ item, owned item = .pop thread ↔ pc.popping = some item)
    (same : ∀ item, owned item ≠ owner item → (owned item = .push thread ∨ owned item = .client) ∧
      (owner item = .client ∨ owner item = .pop thread))
    (counted : Counted queue owned) : Inv (world.put thread (queue, pc)) lock items owned := by
  have others : ∀ other, other ≠ thread → ∀ item, (owned item = .push other ↔ owner item = .push other) ∧
      (owned item = .pop other ↔ owner item = .pop other) := by
    intro other different item
    by_cases kept : owned item = owner item
    · rw [kept]
      exact ⟨Iff.rfl, Iff.rfl⟩
    · obtain ⟨one | one, two | two⟩ := same item kept <;> rw [one, two] <;> simp [Ne.symm different]
  refine ⟨?_, ?_, ?_, ?_, ?_, inv.nodup, ?_, ?_, ?_, counted⟩
  · refine put_all world thread (queue, pc) (fun other pc => pc.inside = true ↔ lock = some other) ?_ fun other _ => inv.inside other
    rw [← inv.inside thread, before, outside]
  · exact (congrArg Word.mark ptr).trans inv.mark
  · intro free
    have clear := inv.clear free
    rwa [Marked, ← tail, ← next] at clear
  · exact put_all world thread (queue, pc) (fun _ pc => pc.Fits queue) fits fun other _ => fits_same _ _ _ ptr tail next (inv.fits other)
  · have linked := inv.linked
    rwa [← ptr, ← next] at linked
  · exact put_all world thread (queue, pc) (fun other pc => ∀ item, owned item = .push other ↔ pc.pushing = some item) pushing
      fun other different item => (others other different item).1.trans (inv.pushing other item)
  · exact put_all world thread (queue, pc) (fun other pc => ∀ item, owned item = .pop other ↔ pc.popping = some item) popping
      fun other different item => (others other different item).2.trans (inv.popping other item)
  · intro item
    rw [← inv.stored item]
    by_cases kept : owned item = owner item
    · rw [kept]
    · obtain ⟨one | one, two | two⟩ := same item kept <;> rw [one, two] <;> simp

end Step

end OsZero.Queue.Markbit

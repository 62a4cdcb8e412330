import OsZero.Queue.Casrun

set_option autoImplicit false

namespace OsZero.Queue.Markbit

open Runs Threads

variable {Thread Item : Type} [DecidableEq Thread] [DecidableEq Item]

section Alone

variable (thread : Thread) (queue after : Casqueue Item) (item : Option Item)

omit [DecidableEq Thread]

theorem returns_pop (pc : Pc Item) (called : pc ≠ .out) (pops : pc.pushing = none) (more : ∀ item, pc ≠ .ret item)
    (rest : Returns thread (popstep queue pc) after item) : Returns thread (queue, pc) after item := by
  obtain ⟨fuel, done⟩ := rest
  refine ⟨fuel + 1, ?_⟩
  rw [← pop_step pc queue (thread, .casqueuepop) called pops] at done
  cases pc with
  | ret item => exact absurd rfl (more item)
  | _ => exact done

theorem returns_call (rest : Returns thread (queue, .popptr 8) after item) : Returns thread (queue, .out) after item := by
  obtain ⟨fuel, done⟩ := rest
  exact ⟨fuel + 1, done⟩

theorem returns_ret : Returns thread (queue, .ret item) queue item := ⟨1, rfl⟩

omit [DecidableEq Item] in
theorem restored (unmarked : Unmarked queue) : (((queue.markptr true).marktail true).marktail false).markptr false = queue := by
  obtain ⟨⟨ptr, mark⟩, ⟨tail, other⟩, next, prev, begun, pushed, popped⟩ := queue
  obtain ⟨rfl, rfl, -⟩ := unmarked
  rfl

-- One time around the loop of casqueuepop on an empty queue.
theorem pop_round (nspin : Nat) (unmarked : Unmarked queue) (empty : queue.ptr.ptr = none)
    (rest : Returns thread (queue, spin nspin .popptr) after item) : Returns thread (queue, .popptr nspin) after item := by
  apply returns_pop thread queue after item (.popptr nspin) (by simp) rfl (by simp)
  rw [popstep, setbit_free _ _ _ _ _ unmarked.1]
  apply returns_pop thread _ after item (.poptail nspin) (by simp) rfl (by simp)
  rw [popstep, setbit_free _ _ _ _ _ (show (queue.markptr true).tail.mark = false from unmarked.2.1)]
  apply returns_pop thread _ after item (.pophead nspin) (by simp) rfl (by simp)
  rw [popstep, show ((queue.markptr true).marktail true).ptr.ptr = none from empty]
  apply returns_pop thread _ after item (.popclrtail nspin none) (by simp) rfl (by simp)
  apply returns_pop thread _ after item (.popclrptr nspin none) (by simp) rfl (by simp)
  rw [popstep, restored queue unmarked]
  apply returns_pop thread queue after item (.poploop nspin none) (by simp) rfl (by simp)
  exact rest

theorem pop_none (spins : Nat) (unmarked : Unmarked queue) (empty : queue.ptr.ptr = none) :
    Returns thread (queue, .popptr (spins + 1)) queue none := by
  induction spins with
  | zero => exact pop_round thread queue queue none 1 unmarked empty (returns_ret thread queue none)
  | succ spins ih => exact pop_round thread queue queue none (spins + 2) unmarked empty ih

end Alone

-- What a pop of the head by one thread alone leaves.
structure Popped (queue : Casqueue Item) (head : Item) (after : Casqueue Item) : Prop where
  unmarked : Unmarked after
  ptr : after.ptr.ptr = (queue.next head).ptr
  links : ∀ item, (after.next item).ptr = (queue.next item).ptr

section Head

variable (thread : Thread) (queue : Casqueue Item) (nspin : Nat) (head : Item)

omit [DecidableEq Thread]

omit [DecidableEq Item] in
theorem popped_kept (other after : Casqueue Item) (kept : Kept queue other) (popped : Popped other head after) : Popped queue head after :=
  ⟨popped.unmarked, popped.ptr.trans (kept.links head), fun item => (popped.links item).trans (kept.links item)⟩

-- From the read of head->next on.
theorem pop_last (marked : Marked queue true (some head) none) :
    ∃ after, Returns thread (queue, .getnext nspin head) after (some head) ∧ Popped queue head after := by
  have clear := clearfirst_marked { queue with ptr := queue.next head } true head marked
  refine ⟨((({ queue with ptr := queue.next head } : Casqueue Item).marknext head false).marktail false).markptr false, ?_,
    ⟨⟨rfl, rfl, clear.2⟩, rfl, marknext_ptr _ head false⟩⟩
  apply returns_pop thread _ _ _ (.getnext nspin head) (by simp) rfl (by simp)
  apply returns_pop thread _ _ _ (.putnext nspin head (queue.next head)) (by simp) rfl (by simp)
  apply returns_pop thread _ _ _ (.popclrnext nspin head (some head)) (by simp) rfl (by simp)
  apply returns_pop thread _ _ _ (.popclrtail nspin (some head)) (by simp) rfl (by simp)
  apply returns_pop thread _ _ _ (.popclrptr nspin (some head)) (by simp) rfl (by simp)
  apply returns_pop thread _ _ _ (.poploop nspin (some head)) (by simp) rfl (by simp)
  exact returns_ret thread _ (some head)

theorem pop_second (next : Item) (apart : head ≠ next) (marked : Marked queue true (some head) none) :
    ∃ after, Returns thread (queue, .marknext nspin head next) after (some head) ∧ Popped queue head after := by
  have both := marksecond_marked queue true head next marked
  have one := clearsecond_marked ((queue.marknext next true).setprev next none) true head next apart both
  have free := marked_free queue true (some head) none next marked (by simp [Ne.symm apart]) (by simp)
  obtain ⟨after, done, popped⟩ := pop_last thread _ nspin head one
  refine ⟨after, ?_, popped_kept queue head _ after (kept_marknext queue next true)
    (popped_kept _ head _ after (kept_setprev _ next none) (popped_kept _ head _ after (kept_marknext _ next false) popped))⟩
  apply returns_pop thread _ _ _ (.marknext nspin head next) (by simp) rfl (by simp)
  rw [popstep, setbit_free _ _ _ _ _ free]
  apply returns_pop thread _ _ _ (.nextprev nspin head next) (by simp) rfl (by simp)
  apply returns_pop thread _ _ _ (.unmark nspin head next) (by simp) rfl (by simp)
  exact done

theorem pop_read (apart : ∀ next, (queue.next head).ptr = some next → head ≠ next) (marked : Marked queue true (some head) none) :
    ∃ after, Returns thread (queue, .readnext nspin head) after (some head) ∧ Popped queue head after := by
  cases link : (queue.next head).ptr with
  | none =>
      obtain ⟨after, done, popped⟩ := pop_last thread queue nspin head marked
      refine ⟨after, ?_, popped⟩
      apply returns_pop thread _ _ _ (.readnext nspin head) (by simp) rfl (by simp)
      rw [popstep, link]
      exact done
  | some next =>
      obtain ⟨after, done, popped⟩ := pop_second thread queue nspin head next (apart next link) marked
      refine ⟨after, ?_, popped⟩
      apply returns_pop thread _ _ _ (.readnext nspin head) (by simp) rfl (by simp)
      rw [popstep, link]
      exact done

theorem pop_head (unmarked : Unmarked queue) (top : queue.ptr.ptr = some head) (apart : ∀ next, (queue.next head).ptr = some next → head ≠ next) :
    ∃ after, Returns thread (queue, .popptr nspin) after (some head) ∧ Popped queue head after := by
  have free : Marked ((queue.markptr true).marktail true) true none none := ⟨rfl, unmarked.2.2⟩
  have marked := markfirst_marked _ true head free
  have kept : Kept queue (((queue.markptr true).marktail true).marknext head true) :=
    ⟨rfl, marknext_ptr queue head true, rfl, rfl, rfl⟩
  obtain ⟨after, done, popped⟩ := pop_read thread _ nspin head (fun next link => apart next ((kept.links head).symm.trans link)) marked
  refine ⟨after, ?_, popped_kept queue head _ after kept popped⟩
  apply returns_pop thread _ _ _ (.popptr nspin) (by simp) rfl (by simp)
  rw [popstep, setbit_free _ _ _ _ _ unmarked.1]
  apply returns_pop thread _ _ _ (.poptail nspin) (by simp) rfl (by simp)
  rw [popstep, setbit_free _ _ _ _ _ (show (queue.markptr true).tail.mark = false from unmarked.2.1)]
  apply returns_pop thread _ _ _ (.pophead nspin) (by simp) rfl (by simp)
  rw [popstep, show ((queue.markptr true).marktail true).ptr.ptr = some head from top]
  apply returns_pop thread _ _ _ (.popnext nspin head) (by simp) rfl (by simp)
  rw [popstep, setbit_free _ _ _ _ _ (marked_free _ true none none head free (by simp) (by simp))]
  exact done

-- Each pop takes the head of the chain, and the last finds the queue empty.
theorem drains_linked (items : List Item) (unmarked : Unmarked queue) (linked : Linked queue.next queue.ptr.ptr items) (nodup : items.Nodup) :
    Drains thread items queue := by
  induction items generalizing queue with
  | nil => exact ⟨queue, returns_call thread queue queue none (pop_none thread queue 7 unmarked linked)⟩
  | cons head items ih =>
      obtain ⟨top, rest⟩ := linked
      have apart := fun next link => linked_apart queue.next queue.ptr.ptr head next (head :: items) nodup ⟨top, rest⟩ top link
      obtain ⟨after, done, popped⟩ := pop_head thread queue 8 head unmarked top apart
      refine ⟨after, returns_call thread queue after (some head) done, ih (after.hand (some head)) popped.unmarked ?_ (List.nodup_cons.mp nodup).2⟩
      have left : Linked after.next (queue.next head).ptr items := linked_same queue.next after.next items popped.links _ rest
      rw [← popped.ptr] at left
      exact left

end Head

omit [DecidableEq Thread] in
theorem invariant_good (world : World Thread (Casqueue Item) (Pc Item)) (invariant : Invariant world) : Good world := by
  obtain ⟨lock, items, owner, inv⟩ := invariant
  refine ⟨fun item => ?_, fun idle => ?_⟩
  · rw [inv.counted.pushed item]
    exact Nat.le_add_right _ _
  · have free : lock = none := by
      cases held : lock with
      | none => rfl
      | some thread =>
          have inside := (inv.inside thread).mpr held
          rw [idle thread] at inside
          cases inside
    have clear := inv.clear free
    have unlocked : world.shared.ptr.mark = false := by rw [inv.mark, free]; rfl
    have unmarked : Unmarked world.shared := ⟨unlocked, clear.1, clear.2⟩
    refine ⟨unmarked, fun thread => ⟨items, inv.nodup, fun item => ?_, drains_linked thread world.shared items unmarked inv.linked inv.nodup⟩⟩
    rw [← inv.stored item, inv.counted.pushed item]
    cases owned : owner item with
    | pop thread =>
        have popping := (inv.popping thread item).mp owned
        rw [idle thread] at popping
        cases popping
    | _ => simp [Owner.pushed]

omit [DecidableEq Thread] in
theorem returns_same (op : Thread × Call Item) (fuel other : Nat) (now : Casqueue Item × Pc Item) (first second : Casqueue Item × Option Item)
    (one : returns op fuel now = some first) (two : returns op other now = some second) : first = second := by
  induction fuel generalizing other now with
  | zero => cases one
  | succ fuel ih =>
      cases other with
      | zero => cases two
      | succ other =>
          obtain ⟨queue, pc⟩ := now
          cases pc with
          | ret item => exact Option.some.inj (one.symm.trans two)
          | _ => exact ih other _ one two

-- As long as every push that takes the queue finds in its item's next the
-- item at the head, no item is lost and no mark is left.
theorem casqueue_returns (next prev : Item → Option Item) (ops : List (Thread × Call Item))
    (sound : Meets (act Prod.fst casqueuestep) Sound (start next prev) ops) :
    Holds (act Prod.fst casqueuestep) Good (fun _ _ => True) (start next prev) ops :=
  act_holds Prod.fst casqueuestep Invariant Good _ Sound invariant_good
    (fun world op invariant finds => ⟨trivial, inv_step world op invariant finds⟩) _ ops ⟨none, [], _, start_inv next prev⟩ sound

-- The pushes of two items by one thread, the steps of each.
def twopushes : List (Unit × Call Bool) :=
  List.replicate 7 ((), .casqueuepush true) ++ List.replicate 10 ((), .casqueuepush false)

-- The second thread's push waits for the first one's mark, and the first thread pops
-- its item.
def twothreads (first second : Thread) : List (Thread × Call Bool) :=
  List.replicate 3 (first, .casqueuepush true) ++ List.replicate 2 (second, .casqueuepush false) ++
    List.replicate 4 (first, .casqueuepush true) ++ List.replicate 8 (second, .casqueuepush false) ++
    List.replicate 15 (first, .casqueuepop)

def linkedqueue : World (Fin 2) (Casqueue Bool) (Pc Bool) := start (fun item => if item then none else some true) fun _ => none

theorem casqueue_returns_linked :
    Holds (act Prod.fst casqueuestep) Good (fun _ _ => True) linkedqueue (twothreads 0 1) ∧
      (run Prod.fst casqueuestep linkedqueue (twothreads 0 1)).own 0 = .ret (some false) :=
  ⟨casqueue_returns _ _ (twothreads 0 1) (meets_every Prod.fst casqueuestep Sound linkedqueue _ (by decide +kernel)), by decide +kernel⟩

-- casqueuepush never writes item->next, so the second push loses the first item.
theorem casqueue_loses :
    ¬ Holds (act Prod.fst casqueuestep) Good (fun _ _ => True)
      (start (fun _ => none) (fun _ => none) : World Unit (Casqueue Bool) (Pc Bool)) twopushes := by
  intro holds
  have good := holds_run Prod.fst casqueuestep Good _ _ _ holds
  obtain ⟨items, -, stored, drains⟩ := (good.quiet fun _ => rfl).drains ()
  have popped : ((returns ((), .casqueuepop) 20 ((run Prod.fst casqueuestep (start (fun _ => none) (fun _ => none)) twopushes).shared, .out)).map
      Prod.snd) = some (some false) := by decide +kernel
  have lost : ((returns ((), .casqueuepop) 20 ((run Prod.fst casqueuestep (start (fun _ => none) (fun _ => none)) twopushes).shared, .out)).bind
      fun first => (returns ((), .casqueuepop) 80 (first.1.hand first.2, .out)).map Prod.snd) = some none := by decide +kernel
  have both : true ∈ items ∧ false ∈ items := ⟨(stored true).mpr (by decide +kernel), (stored false).mpr (by decide +kernel)⟩
  rcases items with _ | ⟨first, _ | ⟨second, items⟩⟩
  · exact absurd both.1 List.not_mem_nil
  · obtain ⟨one, two⟩ := both
    rw [List.mem_singleton] at one two
    cases one.trans two.symm
  · obtain ⟨after, ⟨fuel, done⟩, last, ⟨more, next⟩, -⟩ := drains
    obtain ⟨result, found, -⟩ := Option.map_eq_some_iff.mp popped
    obtain rfl := returns_same _ _ _ _ _ _ found done
    rw [found, Option.bind_some] at lost
    obtain ⟨other, ended, nothing⟩ := Option.map_eq_some_iff.mp lost
    obtain rfl := returns_same _ _ _ _ _ _ ended next
    cases nothing

end OsZero.Queue.Markbit

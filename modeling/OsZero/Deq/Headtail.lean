import OsZero.Deq.Ring
import OsZero.Lib.Shelves

set_option autoImplicit false

namespace OsZero.Deq

open Links Runs

universe u
variable {α : Type u} [DecidableEq α]

-- The queue of htlist.h: its head and tail name the ends, and the items at the two
-- ends link to nothing.
structure Htlist (α : Type u) where
  links : Heap α
  head : Option α
  tail : Option α

def Htlist.htlistpop (queue : Htlist α) : Htlist α × Option α :=
  match queue.head with
  | none => (queue, none)
  | some item1 =>
      let item2 := queue.links.next item1
      let queue := match item2 with
        | some after => { queue with links := queue.links.setPrev after none }
        | none => { queue with tail := none }
      ({ queue with head := item2 }, some item1)

def Htlist.htlistpush (queue : Htlist α) (item : α) : Htlist α :=
  let links := queue.links.setPrev item none
  let first := queue.head
  let queue := match first with
    | some first => { queue with links := links.setPrev first (some item) }
    | none => { queue with links := links, tail := some item }
  { queue with links := queue.links.setNext item first, head := some item }

def Htlist.htlistdequeue (queue : Htlist α) : Htlist α × Option α :=
  match queue.tail with
  | none => (queue, none)
  | some item1 =>
      match queue.links.prev item1 with
      | none => ({ queue with head := none, tail := none }, some item1)
      | some item2 => ({ queue with links := queue.links.setNext item2 none, tail := some item2 }, some item1)

-- The item that was last keeps its NULL next, and the tail of an empty queue stays NULL.
def Htlist.htlistqueue (queue : Htlist α) (item : α) : Htlist α :=
  let links := queue.links.setNext item none
  let links := links.setPrev item queue.tail
  match queue.tail with
  | some _ => { queue with links := links, tail := some item }
  | none => { queue with links := links.setPrev item none, head := some item }

-- The neighbours are read again for the second half.
def Htlist.htlistrm (queue : Htlist α) (item : α) : Htlist α :=
  let queue := match queue.links.prev item with
    | some before => { queue with links := queue.links.setNext before (queue.links.next item) }
    | none =>
        let after := queue.links.next item
        let queue := match after with
          | some second => { queue with links := queue.links.setPrev second (queue.links.prev item) }
          | none => { queue with tail := none }
        { queue with head := after }
  match queue.links.next item with
  | some after => { queue with links := queue.links.setPrev after (queue.links.prev item) }
  | none =>
      let before := queue.links.prev item
      let queue := match before with
        | some last => { queue with links := queue.links.setNext last none }
        | none => { queue with head := none }
      { queue with tail := before }

def Htlist.step (queue : Htlist α) : Op α → Option (Htlist α × Option α)
  | .push item => some (queue.htlistpush item, none)
  | .append item => some (queue.htlistqueue item, none)
  | .pop => some queue.htlistpop
  | .getlast => some queue.htlistdequeue
  | .rmitem item => some (queue.htlistrm item, none)

structure HtRepresents (queue : Htlist α) (items : List α) : Prop where
  first : queue.head = items.head?
  last : queue.tail = items.getLast?
  path : Path queue.links items

structure HtEnded (queue : Htlist α) (items : List α) : Prop where
  first : queue.head = items.head?
  last : queue.tail = items.getLast?
  ended : Ended queue.links items

omit [DecidableEq α] in
theorem ht_ended_represents (queue : Htlist α) (items : List α) (whole : HtEnded queue items) : HtRepresents queue items :=
  ⟨whole.first, whole.last, whole.ended.path⟩

theorem htlistpush_ended (queue : Htlist α) (items : List α) (item : α) (whole : HtEnded queue items) (absent : item ∉ items) :
    HtEnded (queue.htlistpush item) (item :: items) := by
  have bare : Ended (queue.links.setPrev item none) items := by
    apply ended_frame queue.links _ _ whole.ended
    intro member inside
    exact ⟨rfl, set_prev_elsewhere _ _ _ _ fun same => absent (same ▸ inside)⟩
  have pushed := ended_push _ items item bare absent (set_prev_here _ _ _)
  rw [← whole.first] at pushed
  constructor
  · rfl
  · have last := whole.last
    have first := whole.first
    cases items with
    | nil =>
        simp only [List.head?_nil] at first
        simp [Htlist.htlistpush, first]
    | cons second rest =>
        simp only [List.head?_cons] at first
        simp [Htlist.htlistpush, first, last]
  · unfold pushFront at pushed
    unfold Htlist.htlistpush
    cases atHead : queue.head with
    | none => simpa [atHead] using pushed
    | some first => simpa [atHead] using pushed

theorem htlistpop_ended (queue : Htlist α) (items : List α) (whole : HtEnded queue items) :
    ∃ next, queue.htlistpop = (next, items.head?) ∧ HtEnded next items.tail := by
  have first := whole.first
  have last := whole.last
  cases items with
  | nil => exact ⟨queue, by simp [Htlist.htlistpop, first], whole⟩
  | cons item rest =>
      have next := ended_next queue.links [] rest item whole.ended
      simp only [List.head?_cons] at first
      cases rest with
      | nil => exact ⟨⟨queue.links, none, none⟩, by simp [Htlist.htlistpop, first, next], rfl, rfl, ended_nil _⟩
      | cons second rest =>
          have shorter := ended_unlink_first queue.links rest item second whole.ended
          simp only [List.head?_cons] at next
          refine ⟨⟨queue.links.setPrev second none, some second, queue.tail⟩, ?_, rfl, ?_, shorter⟩
          · simp [Htlist.htlistpop, first, next]
          · simpa using last

theorem htlistdequeue_ended (queue : Htlist α) (items : List α) (whole : HtEnded queue items) :
    ∃ next, queue.htlistdequeue = (next, items.getLast?) ∧ HtEnded next items.dropLast := by
  have first := whole.first
  have last := whole.last
  rcases List.eq_nil_or_concat items with rfl | ⟨front, item, rfl⟩
  · exact ⟨queue, by simp [Htlist.htlistdequeue, last], whole⟩
  · rw [List.concat_eq_append] at whole first last ⊢
    have prev := ended_prev queue.links front [] item whole.ended
    rw [List.getLast?_concat] at last
    rw [List.getLast?_concat, List.dropLast_concat]
    rcases List.eq_nil_or_concat front with rfl | ⟨front, before, rfl⟩
    · exact ⟨⟨queue.links, none, none⟩, by simp [Htlist.htlistdequeue, last, prev], rfl, rfl, ended_nil _⟩
    · rw [List.concat_eq_append] at whole prev first ⊢
      have shorter := ended_unlink_last queue.links front before item whole.ended
      rw [List.getLast?_concat] at prev
      refine ⟨⟨queue.links.setNext before none, queue.head, some before⟩, ?_, ?_, ?_, shorter⟩
      · simp [Htlist.htlistdequeue, last, prev]
      · rw [first]
        cases front <;> rfl
      · exact List.getLast?_concat.symm

-- Writing the same links a second time changes nothing.
theorem set_next_twice (links : Heap α) (item : α) (value : Option α) :
    (links.setNext item value).setNext item value = links.setNext item value := by
  simp only [Heap.setNext]
  congr
  funext other
  split <;> rfl

theorem htlistrm_inside (queue : Htlist α) (items front back : List α) (item : α) (whole : HtEnded queue items)
    (split : items = front ++ item :: back) :
    queue.htlistrm item = ⟨Links.unlink queue.links item, (front ++ back).head?, (front ++ back).getLast?⟩ := by
  subst split
  have next := ended_next queue.links front back item whole.ended
  have prev := ended_prev queue.links front back item whole.ended
  have first := whole.first
  have last := whole.last
  rcases List.eq_nil_or_concat front with rfl | ⟨front, before, rfl⟩
  · cases back with
    | nil =>
        simp only [List.getLast?_nil, List.head?_nil] at prev next
        simp [Htlist.htlistrm, Links.unlink, prev, next]
    | cons after back =>
        simp only [List.getLast?_nil, List.head?_cons] at prev next
        have different : item ≠ after := fun same => (List.nodup_cons.mp whole.ended.nodup).1 (by simp [same])
        have again : (queue.links.setPrev after none).setPrev after none = queue.links.setPrev after none :=
          set_prev_same _ _ _ (set_prev_here _ _ _)
        simp only [List.nil_append, List.getLast?_cons_cons] at last
        simp [Htlist.htlistrm, Links.unlink, prev, next, set_prev_elsewhere _ _ _ _ different, again, last]
  · rw [List.concat_eq_append] at first last prev whole ⊢
    rw [List.getLast?_concat] at prev
    have head : (front ++ [before] ++ item :: back).head? = (front ++ [before] ++ back).head? := by cases front <;> rfl
    rw [head] at first
    cases back with
    | nil =>
        simp only [List.head?_nil] at next
        simp only [List.append_nil] at first ⊢
        have still : (queue.links.setNext before none).next item = none := by simp [Heap.setNext, next]
        simp [Htlist.htlistrm, Links.unlink, prev, next, still, set_next_twice, first]
    | cons after back =>
        simp only [List.head?_cons] at next
        have different : item ≠ before := by
          rintro rfl
          exact (List.nodup_append.mp whole.ended.nodup).2.2 item (by simp) item (by simp) rfl
        have atLast : (front ++ [before] ++ item :: after :: back).getLast? = (front ++ [before] ++ after :: back).getLast? := by
          rw [List.getLast?_append_cons, List.getLast?_append_cons, List.getLast?_cons_cons]
        rw [atLast] at last
        simp [Htlist.htlistrm, Links.unlink, prev, next, set_next_elsewhere _ _ _ _ different, first, last]

theorem htlistrm_ended (queue : Htlist α) (items : List α) (item : α) (whole : HtEnded queue items) (member : item ∈ items) :
    HtEnded (queue.htlistrm item) (items.erase item) := by
  obtain ⟨front, back, -, split, erased⟩ := List.exists_erase_eq member
  rw [htlistrm_inside queue items front back item whole split, erased]
  subst split
  exact ⟨rfl, rfl, ended_unlink queue.links front back item whole.ended⟩

theorem htlistqueue_broken (queue : Htlist α) (items : List α) (item : α) (whole : HtEnded queue items) (absent : item ∉ items) :
    ¬ HtRepresents (queue.htlistqueue item) (items ++ [item]) := by
  intro rep
  have last := whole.last
  rcases List.eq_nil_or_concat items with rfl | ⟨front, before, rfl⟩
  · have tail := rep.last
    simp only [List.getLast?_nil] at last
    simp [Htlist.htlistqueue, last] at tail
  · rw [List.concat_eq_append] at rep last whole absent
    have path : Path (queue.htlistqueue item).links (front ++ before :: item :: []) := by simpa using rep.path
    have named := (List.isChain_append_cons_cons.mp path).2.1.1
    have different : before ≠ item := by
      rintro rfl
      exact absent (by simp)
    have ends := whole.ended.back before (by simp)
    rw [List.getLast?_concat] at last
    simp [Htlist.htlistqueue, last, set_next_elsewhere _ _ _ _ different, ends] at named

def NotQueued : List α → Op α → Prop
  | _, .append _ => False
  | _, _ => True

theorem along_not_queued (items : List α) (ops : List (Op α)) :
    Along listStep NotQueued items ops ↔ ∀ item, .append item ∉ ops := by
  induction ops generalizing items with
  | nil => simp [Along]
  | cons op ops ih =>
      rw [Along, ih]
      constructor
      · rintro ⟨other, rest⟩ item inside
        rcases List.mem_cons.mp inside with rfl | inside
        · exact other
        · exact rest item inside
      · intro absent
        refine ⟨?_, fun item inside => absent item (List.mem_cons_of_mem _ inside)⟩
        cases op with
        | append item => exact absent item List.mem_cons_self
        | push item => trivial
        | pop => trivial
        | getlast => trivial
        | rmitem item => trivial

theorem htlist_step_ended (queue : Htlist α) (items : List α) (op : Op α) (whole : HtEnded queue items) (legal : Legal items op)
    (other : NotQueued items op) :
    ∃ next, queue.step op = some (next, (listStep items op).2) ∧ HtEnded next (listStep items op).1 := by
  cases op with
  | push item => exact ⟨_, rfl, htlistpush_ended queue items item whole legal⟩
  | append item => exact other.elim
  | pop =>
      obtain ⟨next, taken, nextWhole⟩ := htlistpop_ended queue items whole
      exact ⟨next, by simp [Htlist.step, taken, listStep], nextWhole⟩
  | getlast =>
      obtain ⟨next, taken, nextWhole⟩ := htlistdequeue_ended queue items whole
      exact ⟨next, by simp [Htlist.step, taken, listStep], nextWhole⟩
  | rmitem item => exact ⟨_, rfl, htlistrm_ended queue items item whole legal⟩

theorem htlist_step_only (queue next : Htlist α) (items : List α) (op : Op α) (whole : HtEnded queue items) (legal : Legal items op)
    (taken : queue.step op = some (next, (listStep items op).2)) (rep : HtRepresents next (listStep items op).1) :
    NotQueued items op := by
  cases op with
  | append item =>
      cases taken
      exact htlistqueue_broken queue items item whole legal rep
  | push item => trivial
  | pop => trivial
  | getlast => trivial
  | rmitem item => trivial

def emptyHtlist (links : Heap α) : Htlist α := ⟨links, none, none⟩

omit [DecidableEq α] in
theorem htlist_empty_ended (links : Heap α) : HtEnded (emptyHtlist links) [] := ⟨rfl, rfl, ended_nil links⟩

-- htlistqueue breaks the queue whenever it is used, and nothing else does.
theorem htlist_refines_iff (links : Heap α) (ops : List (Op α)) (legal : Along listStep Legal [] ops) :
    Refines Htlist.step listStep HtRepresents (emptyHtlist links) [] ops ↔ ∀ item, .append item ∉ ops := by
  rw [← along_not_queued []]
  exact refines_iff_invariant Htlist.step listStep HtEnded HtRepresents Legal NotQueued ht_ended_represents htlist_step_ended
    (fun queue items op next => htlist_step_only queue next items op) (emptyHtlist links) [] ops (htlist_empty_ended links) legal

theorem htlist_refines_three :
    Along listStep Legal [] [.push 2, .push (1 : Nat), .push 0, .rmitem 1, .getlast, .pop] ∧
      Refines Htlist.step listStep HtRepresents (emptyHtlist ⟨fun _ => none, fun _ => none⟩) []
        [.push 2, .push (1 : Nat), .push 0, .rmitem 1, .getlast, .pop] := by
  have legal : Along listStep Legal [] [.push 2, .push (1 : Nat), .push 0, .rmitem 1, .getlast, .pop] := by
    simp [Along, Legal, listStep]
  exact ⟨legal, (htlist_refines_iff _ _ legal).mpr (by simp)⟩

-- The queued item is the head of the queue, and nothing comes out at its tail.
theorem htlistqueue_not_dequeued :
    Along listStep Legal [] [.append (1 : Nat), .getlast] ∧
      (Htlist.htlistqueue (emptyHtlist ⟨fun _ => none, fun _ => none⟩) (1 : Nat)).htlistdequeue.2 = none ∧
      ¬ Refines Htlist.step listStep HtRepresents (emptyHtlist ⟨fun _ => none, fun _ => none⟩) [] [.append (1 : Nat), .getlast] := by
  refine ⟨by simp [Along, Legal], rfl, ?_⟩
  rintro ⟨-, next, taken, rep, -⟩
  cases taken
  have tail := rep.last
  simp [listStep, Htlist.htlistqueue, emptyHtlist] at tail

end OsZero.Deq

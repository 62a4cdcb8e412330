import OsZero.Lib.Links
import OsZero.Lib.Runs

set_option autoImplicit false

namespace OsZero.Deq

open Links

universe u
variable {α : Type u} [DecidableEq α]

-- Both variants of deq.h take an item out with the same two stores,
-- item->prev->next = item->next and item->next->prev = item->prev. A store
-- through a NULL link has no result.
def unlink (links : Heap α) (item : α) : Option (Heap α) := do
  let before ← links.prev item
  let links := links.setNext before (links.next item)
  let after ← links.next item
  some (links.setPrev after (links.prev item))

theorem unlink_head (links : Heap α) (item first last : α) (rest : List α)
    (ring : Ring links (item :: rest)) (nodup : (item :: rest).Nodup)
    (atHead : rest.head? = some first) (atLast : rest.getLast? = some last) :
    unlink links item = some (join links last first) := by
  obtain ⟨back, split⟩ := List.head?_eq_some_iff.mp atHead
  obtain ⟨front, splitLast⟩ := List.getLast?_eq_some_iff.mp atLast
  have after : links.next item = some first := by
    rw [split] at ring
    exact (ring_next_head links item first back ring).1
  have before : links.prev item = some last := by
    rw [splitLast] at ring
    obtain ⟨x, atFront, prev, -⟩ := ring_prev_head links (item :: front) last ring
    simp only [List.cons_append, List.head?_cons, Option.some.injEq] at atFront
    rw [atFront]
    exact prev
  have different : item ≠ last := by
    rintro rfl
    rw [splitLast] at nodup
    simp at nodup
  simp [unlink, before, set_next_elsewhere _ _ _ _ different, after, join]

theorem unlink_ring (links : Heap α) (front back : List α) (item : α)
    (ring : Ring links (front ++ item :: back)) (nodup : (front ++ item :: back).Nodup)
    (others : front ++ back ≠ []) :
    ∃ next, unlink links item = some next ∧ Ring next (front ++ back) ∧
      next.next item = links.next item ∧ next.prev item = links.prev item := by
  have turned : Ring links (item :: (back ++ front)) := by simpa using ring_rotate links front (item :: back) ring
  have turnedNodup : (item :: (back ++ front)).Nodup := by
    rw [← List.cons_append]
    exact List.nodup_append_comm.mp nodup
  have remaining : back ++ front ≠ [] := by
    intro empty
    simp only [List.append_eq_nil_iff] at empty
    exact others (by simp [empty.1, empty.2])
  obtain ⟨first, rest, split⟩ := List.exists_cons_of_ne_nil remaining
  have atHead : (back ++ front).head? = some first := by rw [split]; rfl
  have atLast : (back ++ front).getLast? = some ((back ++ front).getLast remaining) := List.getLast?_eq_some_getLast remaining
  refine ⟨_, unlink_head links item first _ (back ++ front) turned turnedNodup atHead atLast, ?_, ?_, ?_⟩
  · exact ring_rotate _ back front (ring_remove_head links item first _ (back ++ front) turned turnedNodup atHead atLast)
  · apply join_next_elsewhere
    rintro rfl
    exact (List.nodup_cons.mp turnedNodup).1 (List.getLast_mem remaining)
  · apply join_prev_elsewhere
    rintro rfl
    exact (List.nodup_cons.mp turnedNodup).1 (List.mem_of_mem_head? atHead)

-- The interface shared by the two variants and the list it stands for.
inductive Op (α : Type u) where
  | push (item : α)
  | append (item : α)
  | pop
  | getlast
  | rmitem (item : α)
deriving DecidableEq, Repr

def listStep (items : List α) : Op α → List α × Option α
  | .push item => (item :: items, none)
  | .append item => (items ++ [item], none)
  | .pop => (items.tail, items.head?)
  | .getlast => (items.dropLast, items.getLast?)
  | .rmitem item => (items.erase item, none)

def Legal (items : List α) : Op α → Prop
  | .push item => item ∉ items
  | .append item => item ∉ items
  | .pop => True
  | .getlast => True
  | .rmitem item => item ∈ items

instance (items : List α) (op : Op α) : Decidable (Legal items op) := by
  cases op <;> unfold Legal <;> infer_instance

end OsZero.Deq

import Mathlib.Data.List.Chain
import Mathlib.Data.List.Nodup

set_option autoImplicit false

namespace Links

universe u
variable {α : Type u} [DecidableEq α]

-- The two link fields of intrusive list items, indexed by item address.
structure Heap (α : Type u) where
  next : α → Option α
  prev : α → Option α

def Heap.setNext (heap : Heap α) (item : α) (value : Option α) : Heap α :=
  { heap with next := fun other => if other = item then value else heap.next other }

def Heap.setPrev (heap : Heap α) (item : α) (value : Option α) : Heap α :=
  { heap with prev := fun other => if other = item then value else heap.prev other }

@[simp] theorem set_next_here (heap : Heap α) (item : α) (value : Option α) :
    (heap.setNext item value).next item = value := by simp [Heap.setNext]

@[simp] theorem set_prev_here (heap : Heap α) (item : α) (value : Option α) :
    (heap.setPrev item value).prev item = value := by simp [Heap.setPrev]

@[simp] theorem set_next_prev (heap : Heap α) (item : α) (value : Option α) :
    (heap.setNext item value).prev = heap.prev := rfl

@[simp] theorem set_prev_next (heap : Heap α) (item : α) (value : Option α) :
    (heap.setPrev item value).next = heap.next := rfl

theorem set_next_elsewhere (heap : Heap α) (item other : α) (value : Option α) (different : other ≠ item) :
    (heap.setNext item value).next other = heap.next other := by simp [Heap.setNext, different]

theorem set_prev_elsewhere (heap : Heap α) (item other : α) (value : Option α) (different : other ≠ item) :
    (heap.setPrev item value).prev other = heap.prev other := by simp [Heap.setPrev, different]

theorem set_prev_same (heap : Heap α) (item : α) (value : Option α) (same : heap.prev item = value) :
    heap.setPrev item value = heap := by
  subst same
  simp only [Heap.setPrev]
  congr
  funext other
  split <;> simp_all

def Linked (heap : Heap α) (a b : α) : Prop := heap.next a = some b ∧ heap.prev b = some a

def Path (heap : Heap α) (items : List α) : Prop := items.IsChain (Linked heap)

-- Joining two items touches one field of each; every list operation below is
-- a sequence of such joins.
def join (heap : Heap α) (a b : α) : Heap α := (heap.setNext a (some b)).setPrev b (some a)

theorem join_linked (heap : Heap α) (a b : α) : Linked (join heap a b) a b := by
  simp [Linked, join]

theorem join_next_elsewhere (heap : Heap α) (a b other : α) (different : other ≠ a) :
    (join heap a b).next other = heap.next other := by
  simp [join, set_next_elsewhere, different]

theorem join_prev_elsewhere (heap : Heap α) (a b other : α) (different : other ≠ b) :
    (join heap a b).prev other = heap.prev other := by
  simp [join, set_prev_elsewhere, different]

omit [DecidableEq α] in
theorem path_frame (heap after : Heap α) (items : List α) (path : Path heap items)
    (nextKept : ∀ item ∈ items.dropLast, after.next item = heap.next item)
    (prevKept : ∀ item ∈ items.tail, after.prev item = heap.prev item) : Path after items := by
  induction items with
  | nil => exact .nil
  | cons a rest ih =>
      cases rest with
      | nil => exact .singleton _
      | cons b rest =>
          obtain ⟨linked, tail⟩ := List.isChain_cons_cons.mp path
          refine List.isChain_cons_cons.mpr ⟨⟨?_, ?_⟩, ih tail ?_ ?_⟩
          · rw [nextKept a (by simp)]
            exact linked.1
          · rw [prevKept b (by simp)]
            exact linked.2
          · exact fun item member => nextKept item (by simp [member])
          · exact fun item member => prevKept item (by simp at member ⊢; exact Or.inr member)

-- A list with two ends: nothing is linked before its first item or after its
-- last one.
structure Ended (heap : Heap α) (items : List α) : Prop where
  path : Path heap items
  front : ∀ first, items.head? = some first → heap.prev first = none
  back : ∀ last, items.getLast? = some last → heap.next last = none
  nodup : items.Nodup

omit [DecidableEq α] in
theorem ended_nil (heap : Heap α) : Ended heap [] := by
  constructor <;> simp [Path]

omit [DecidableEq α] in
theorem ended_single (heap : Heap α) (item : α) (front : heap.prev item = none) (back : heap.next item = none) :
    Ended heap [item] := by
  constructor <;> simp [Path, front, back]

def Ring (heap : Heap α) (items : List α) : Prop := Path heap (items ++ items.head?.toList)

omit [DecidableEq α] in
theorem ring_path (heap : Heap α) (items : List α) (ring : Ring heap items) : Path heap items := by
  unfold Ring at ring
  exact ring.left_of_append

omit [DecidableEq α] in
theorem ring_rotate (heap : Heap α) (front back : List α) (ring : Ring heap (front ++ back)) :
    Ring heap (back ++ front) := by
  cases front with
  | nil => simpa using ring
  | cons x front =>
      cases back with
      | nil => simpa using ring
      | cons y back =>
          have whole : Path heap ((x :: front) ++ y :: (back ++ [x])) := by simpa [Ring] using ring
          obtain ⟨left, right⟩ := List.isChain_split.mp whole
          have joined : Path heap ((y :: back) ++ x :: (front ++ [y])) :=
            List.isChain_split.mpr ⟨by simpa using right, by simpa using left⟩
          simpa [Ring] using joined

omit [DecidableEq α] in
theorem ring_prev_head (heap : Heap α) (items : List α) (last : α) (ring : Ring heap (items ++ [last])) :
    ∃ first, (items ++ [last]).head? = some first ∧ heap.prev first = some last ∧ heap.next last = some first := by
  cases items with
  | nil =>
      have linked : Linked heap last last := by
        have path : Path heap [last, last] := by simpa [Ring] using ring
        exact (List.isChain_cons_cons.mp path).1
      exact ⟨last, rfl, linked.2, linked.1⟩
  | cons first items =>
      have path : Path heap ((first :: items) ++ last :: [first]) := by simpa [Ring] using ring
      have linked : Linked heap last first := (List.isChain_cons_cons.mp (List.isChain_split.mp path).2).1
      exact ⟨first, rfl, linked.2, linked.1⟩

omit [DecidableEq α] in
theorem ring_next_head (heap : Heap α) (first second : α) (items : List α)
    (ring : Ring heap (first :: second :: items)) : heap.next first = some second ∧ heap.prev second = some first := by
  have path : Path heap (first :: second :: (items ++ [first])) := by simpa [Ring] using ring
  exact (List.isChain_cons_cons.mp path).1

omit [DecidableEq α] in
theorem ring_adjacent (heap : Heap α) (front back : List α) (a b : α)
    (ring : Ring heap (front ++ a :: b :: back)) : Linked heap a b := by
  have path : Path heap (front ++ a :: b :: (back ++ (front ++ a :: b :: back).head?.toList)) := by
    simpa [Ring] using ring
  exact (List.isChain_append_cons_cons.mp path).2.1

omit [DecidableEq α] in
theorem ring_next_eq_prev_iff (heap : Heap α) (first : α) (items : List α)
    (ring : Ring heap (first :: items)) (nodup : (first :: items).Nodup) :
    heap.next first = heap.prev first ↔ items.length ≤ 1 := by
  cases items with
  | nil =>
      obtain ⟨x, atHead, prev, next⟩ := ring_prev_head heap [] first ring
      simp only [List.nil_append, List.head?_cons, Option.some.injEq] at atHead
      subst atHead
      simp [next, prev]
  | cons second rest =>
      have forward := ring_next_head heap first second rest ring
      rcases List.eq_nil_or_concat rest with none | ⟨middle, last, split⟩
      · subst none
        obtain ⟨x, atHead, prev, -⟩ := ring_prev_head heap [first] second ring
        simp only [List.cons_append, List.head?_cons, Option.some.injEq] at atHead
        subst atHead
        simp [forward.1, prev]
      · rw [List.concat_eq_append] at split
        subst split
        obtain ⟨x, atHead, prev, -⟩ := ring_prev_head heap (first :: second :: middle) last (by simpa using ring)
        simp only [List.cons_append, List.head?_cons, Option.some.injEq] at atHead
        subst atHead
        have different : second ≠ last := by
          intro same
          simp [same] at nodup
        simp [forward.1, prev, different]

theorem ring_insert_back (heap : Heap α) (items : List α) (first last item : α)
    (path : Path heap (items ++ [last])) (nodup : (items ++ [last]).Nodup)
    (atHead : (items ++ [last]).head? = some first) (absent : item ∉ items ++ [last]) :
    Ring (join (join heap last item) item first) (items ++ [last] ++ [item]) := by
  have lastFresh : last ≠ item := by
    rintro rfl
    simp at absent
  have firstFresh : first ≠ item := by
    rintro rfl
    exact absent (List.mem_of_mem_head? atHead)
  have kept : Path (join (join heap last item) item first) (items ++ [last]) := by
    apply path_frame heap _ _ path
    · intro other member
      have inside : other ∈ items := by simpa using member
      have notItem : other ≠ item := by
        rintro rfl
        exact absent (by simp [inside])
      have notLast : other ≠ last := by
        rintro rfl
        exact (List.nodup_append.mp nodup).2.2 other inside other (by simp) rfl
      rw [join_next_elsewhere _ _ _ _ notItem, join_next_elsewhere _ _ _ _ notLast]
    · intro other member
      have notItem : other ≠ item := by
        rintro rfl
        exact absent (List.mem_of_mem_tail member)
      have notFirst : other ≠ first := by
        rintro rfl
        cases whole : items ++ [last] with
        | nil => simp at whole
        | cons x rest =>
            rw [whole] at atHead member nodup
            simp only [List.head?_cons, Option.some.injEq] at atHead
            subst atHead
            exact (List.nodup_cons.mp nodup).1 member
      rw [join_prev_elsewhere _ _ _ _ notFirst, join_prev_elsewhere _ _ _ _ notItem]
  have first_link : Linked (join (join heap last item) item first) last item := by
    refine ⟨?_, ?_⟩
    · rw [join_next_elsewhere _ _ _ _ lastFresh]
      exact (join_linked heap last item).1
    · rw [join_prev_elsewhere _ _ _ _ (Ne.symm firstFresh)]
      exact (join_linked heap last item).2
  have second_link := join_linked (join heap last item) item first
  have head_eq : (items ++ [last] ++ [item]).head? = some first := by
    rw [List.head?_append, atHead]
    rfl
  unfold Ring
  rw [head_eq]
  have whole : Path (join (join heap last item) item first) (items ++ last :: item :: [first]) :=
    List.isChain_split.mpr ⟨kept, List.isChain_cons_cons.mpr ⟨first_link,
      List.isChain_cons_cons.mpr ⟨second_link, .singleton _⟩⟩⟩
  simpa using whole

theorem ring_remove_head (heap : Heap α) (item first last : α) (rest : List α)
    (ring : Ring heap (item :: rest)) (nodup : (item :: rest).Nodup)
    (atHead : rest.head? = some first) (atLast : rest.getLast? = some last) :
    Ring (join heap last first) rest := by
  have path : Path heap rest := by
    have whole : Path heap ([item] ++ (rest ++ [item])) := by simpa [Ring] using ring
    exact (whole.right_of_append).left_of_append
  have restNodup := (List.nodup_cons.mp nodup).2
  have kept : Path (join heap last first) rest := by
    apply path_frame heap _ _ path
    · intro other member
      have notLast : other ≠ last := by
        rintro rfl
        obtain ⟨front, split⟩ := List.getLast?_eq_some_iff.mp atLast
        subst split
        simp only [List.dropLast_concat] at member
        exact (List.nodup_append.mp restNodup).2.2 other member other (by simp) rfl
      rw [join_next_elsewhere _ _ _ _ notLast]
    · intro other member
      have notFirst : other ≠ first := by
        rintro rfl
        obtain ⟨back, split⟩ := List.head?_eq_some_iff.mp atHead
        subst split
        exact (List.nodup_cons.mp restNodup).1 member
      rw [join_prev_elsewhere _ _ _ _ notFirst]
  unfold Ring
  rw [atHead]
  obtain ⟨front, split⟩ := List.getLast?_eq_some_iff.mp atLast
  have closing : Path (join heap last first) (front ++ last :: [first]) :=
    List.isChain_split.mpr ⟨by rw [← split]; exact kept,
      List.isChain_cons_cons.mpr ⟨join_linked heap last first, .singleton _⟩⟩
  rw [split]
  simpa using closing

omit [DecidableEq α] in
theorem path_unique (heap : Heap α) (start stop : α) (a b : List α) (left : Path heap (start :: a ++ [stop]))
    (right : Path heap (start :: b ++ [stop])) (leftClear : stop ∉ a) (rightClear : stop ∉ b) : a = b := by
  induction a generalizing start b with
  | nil =>
      cases b with
      | nil => rfl
      | cons y b =>
          have one := (List.isChain_cons_cons.mp left).1.1
          have two := (List.isChain_cons_cons.mp right).1.1
          have same : stop = y := Option.some.inj (one.symm.trans two)
          simp [same] at rightClear
  | cons x a ih =>
      cases b with
      | nil =>
          have one := (List.isChain_cons_cons.mp left).1.1
          have two := (List.isChain_cons_cons.mp right).1.1
          have same : x = stop := Option.some.inj (one.symm.trans two)
          simp [same] at leftClear
      | cons y b =>
          obtain ⟨one, restLeft⟩ := List.isChain_cons_cons.mp left
          obtain ⟨two, restRight⟩ := List.isChain_cons_cons.mp right
          have same : x = y := Option.some.inj (one.1.symm.trans two.1)
          subst same
          rw [ih x b restLeft restRight (fun member => leftClear (by simp [member]))
            (fun member => rightClear (by simp [member]))]

omit [DecidableEq α] in
theorem ring_unique (heap : Heap α) (first : α) (a b : List α) (left : Ring heap (first :: a))
    (right : Ring heap (first :: b)) (leftNodup : (first :: a).Nodup) (rightNodup : (first :: b).Nodup) : a = b :=
  path_unique heap first first a b (by simpa [Ring] using left) (by simpa [Ring] using right)
    (List.nodup_cons.mp leftNodup).1 (List.nodup_cons.mp rightNodup).1

end Links

import OsZero.Deq.Ring

set_option autoImplicit false

namespace OsZero.Deq

open Links Runs

universe u
variable {α : Type u} [DecidableEq α]

-- DEQ_SINGLE_TYPE: the items carry both links and *deq names the first item.
structure SingleDeq (α : Type u) where
  links : Heap α
  deq : Option α

def deqinit (links : Heap α) (item : α) : Heap α := (links.setNext item (some item)).setPrev item (some item)

def deqissingular (links : Heap α) (item : α) : Prop := links.next item = links.prev item

instance (links : Heap α) (item : α) : Decidable (deqissingular links item) := by
  unfold deqissingular
  infer_instance

-- deqpush and deqappend have the same body in the source: the item is linked
-- in front of *deq, and *deq itself is set only when the deque was empty.
def linkbefore (item : α) (state : SingleDeq α) : Option (SingleDeq α) :=
  match state.deq with
  | some list => do
      let last ← state.links.prev list
      let links := state.links.setNext last (some item)
      let links := links.setPrev item (links.prev list)
      let links := links.setNext item (some list)
      some ⟨links.setPrev list (some item), some list⟩
  | none => some ⟨deqinit state.links item, some item⟩

def deqpush (item : α) (state : SingleDeq α) : Option (SingleDeq α) := linkbefore item state

def deqappend (item : α) (state : SingleDeq α) : Option (SingleDeq α) := linkbefore item state

def deqpop (state : SingleDeq α) : Option (SingleDeq α × Option α) :=
  match state.deq with
  | none => some (state, none)
  | some item =>
      if ¬ deqissingular state.links item then do
        let links ← unlink state.links item
        some (⟨links, links.next item⟩, some item)
      else some (⟨state.links, none⟩, some item)

def deqgetlast (state : SingleDeq α) : Option (SingleDeq α × Option α) :=
  match state.deq with
  | none => some (state, none)
  | some list =>
      if ¬ deqissingular state.links list then do
        let item ← state.links.prev list
        let links ← unlink state.links item
        some (⟨links.setPrev list (links.prev item), some list⟩, some item)
      else some (⟨state.links, none⟩, some list)

def deqrmitem (item : α) (state : SingleDeq α) : Option (SingleDeq α) :=
  if ¬ deqissingular state.links item then do
    let links ← unlink state.links item
    some ⟨links, if some item = state.deq then links.next item else state.deq⟩
  else if some item = state.deq then some ⟨state.links, none⟩
  else some state

def deqStep (state : SingleDeq α) : Op α → Option (SingleDeq α × Option α)
  | .push item => (deqpush item state).map (·, none)
  | .append item => (deqappend item state).map (·, none)
  | .pop => deqpop state
  | .getlast => deqgetlast state
  | .rmitem item => (deqrmitem item state).map (·, none)

structure Represents (state : SingleDeq α) (items : List α) : Prop where
  first : state.deq = items.head?
  ring : Ring state.links items
  nodup : items.Nodup

omit [DecidableEq α] in
theorem represents_unique (state : SingleDeq α) (a b : List α) (left : Represents state a) (right : Represents state b) :
    a = b := by
  cases a with
  | nil =>
      cases b with
      | nil => rfl
      | cons x b => simpa [left.first] using right.first
  | cons x a =>
      cases b with
      | nil => simpa [left.first] using right.first
      | cons y b =>
          have same : x = y := by simpa [left.first] using right.first
          subst same
          rw [ring_unique state.links x a b left.ring right.ring left.nodup right.nodup]

theorem linkbefore_last (state : SingleDeq α) (front : List α) (last item : α) (rep : Represents state (front ++ [last])) :
    ∃ first, (front ++ [last]).head? = some first ∧
      linkbefore item state = some ⟨join (join state.links last item) item first, some first⟩ := by
  obtain ⟨first, atHead, prev, -⟩ := ring_prev_head state.links front last rep.ring
  have atDeq : state.deq = some first := rep.first.trans atHead
  refine ⟨first, atHead, ?_⟩
  simp [linkbefore, atDeq, prev, join]

theorem linkbefore_represents (state : SingleDeq α) (items : List α) (item : α)
    (rep : Represents state items) (absent : item ∉ items) :
    ∃ next, linkbefore item state = some next ∧ Represents next (items ++ [item]) := by
  rcases List.eq_nil_or_concat items with empty | ⟨front, last, split⟩
  · subst empty
    refine ⟨⟨deqinit state.links item, some item⟩, by simp [linkbefore, rep.first], rfl, ?_, by simp⟩
    refine List.isChain_cons_cons.mpr ⟨⟨?_, ?_⟩, .singleton _⟩ <;> simp [deqinit]
  · rw [List.concat_eq_append] at split
    subst split
    obtain ⟨first, atHead, links⟩ := linkbefore_last state front last item rep
    refine ⟨_, links, ?_, ?_, ?_⟩
    · rw [List.head?_append, atHead]
      rfl
    · exact ring_insert_back state.links front first last item (ring_path _ _ rep.ring) rep.nodup atHead absent
    · exact List.nodup_append.mpr ⟨rep.nodup, by simp, fun a inside b atEnd same => by
        simp only [List.mem_singleton] at atEnd
        exact absent (by rw [← atEnd, ← same]; exact inside)⟩

omit [DecidableEq α] in
theorem deqissingular_iff (state : SingleDeq α) (front back : List α) (item : α)
    (rep : Represents state (front ++ item :: back)) :
    deqissingular state.links item ↔ (front ++ item :: back).length ≤ 2 := by
  have turned : Ring state.links (item :: (back ++ front)) := by
    simpa using ring_rotate state.links front (item :: back) rep.ring
  have nodup : (item :: (back ++ front)).Nodup := by
    rw [← List.cons_append]
    exact List.nodup_append_comm.mp rep.nodup
  have base := ring_next_eq_prev_iff state.links item (back ++ front) turned nodup
  rw [deqissingular, base]
  simp only [List.length_append, List.length_cons]
  omega

theorem deqpop_represents (state : SingleDeq α) (items : List α) (rep : Represents state items)
    (count : items.length ≠ 2) :
    ∃ next, deqpop state = some (next, items.head?) ∧ Represents next items.tail := by
  cases items with
  | nil => exact ⟨state, by simp [deqpop, rep.first], rep⟩
  | cons item rest =>
      have singular := deqissingular_iff state [] rest item rep
      have atDeq : state.deq = some item := rep.first
      cases rest with
      | nil =>
          refine ⟨⟨state.links, none⟩, ?_, rfl, .nil, by simp⟩
          simp [deqpop, atDeq, singular]
      | cons second rest =>
          have several : ¬ deqissingular state.links item := by
            rw [singular]
            simp only [List.length_cons, List.nil_append] at count ⊢
            omega
          obtain ⟨links, unlinked, ring, next, -⟩ := unlink_ring state.links [] (second :: rest) item rep.ring rep.nodup (by simp)
          refine ⟨⟨links, links.next item⟩, by simp [deqpop, atDeq, several, unlinked], ?_, ring, ?_⟩
          · rw [next]
            exact (ring_next_head state.links item second rest rep.ring).1
          · exact (List.nodup_cons.mp rep.nodup).2

theorem deqgetlast_represents (state : SingleDeq α) (items : List α) (rep : Represents state items)
    (count : items.length ≠ 2) :
    ∃ next, deqgetlast state = some (next, items.getLast?) ∧ Represents next items.dropLast := by
  rcases List.eq_nil_or_concat items with empty | ⟨body, item, split⟩
  · subst empty
    exact ⟨state, by simp [deqgetlast, rep.first], rep⟩
  · rw [List.concat_eq_append] at split
    subst split
    obtain ⟨first, atHead, prev, -⟩ := ring_prev_head state.links body item rep.ring
    have atDeq : state.deq = some first := rep.first.trans atHead
    rcases List.eq_nil_or_concat body with empty | ⟨front, before, split⟩
    · subst empty
      have same : item = first := by simpa using atHead
      subst same
      refine ⟨⟨state.links, none⟩, ?_, rfl, .nil, by simp⟩
      have singular := deqissingular_iff state [] [] item rep
      simp [deqgetlast, atDeq, singular]
    · rw [List.concat_eq_append] at split
      subst split
      obtain ⟨rest, shape⟩ := List.head?_eq_some_iff.mp atHead
      have several : ¬ deqissingular state.links first := by
        rw [deqissingular_iff state [] rest first (by simpa [← shape] using rep), List.nil_append, ← shape]
        simp only [List.length_append, List.length_singleton] at count ⊢
        omega
      obtain ⟨links, unlinked, ring, -, kept⟩ :=
        unlink_ring state.links (front ++ [before]) [] item rep.ring rep.nodup (by simp)
      rw [List.append_nil] at ring
      obtain ⟨head, atFront, headPrev, -⟩ := ring_prev_head links front before ring
      have same : head = first := by
        rw [List.head?_append, atFront] at atHead
        simpa using atHead
      have lastPrev : links.prev item = some before := by
        rw [kept]
        exact (ring_adjacent state.links front [] before item (by simpa using rep.ring)).2
      refine ⟨⟨links, some first⟩, ?_, ?_, ?_, ?_⟩
      · simp only [deqgetlast, atDeq, several, not_false_eq_true, if_true, prev, unlinked, Option.bind_eq_bind,
          Option.bind_some, List.getLast?_append, List.getLast?_singleton, Option.some_or]
        rw [lastPrev, set_prev_same links first (some before) (by rw [← same]; exact headPrev)]
      · rw [List.dropLast_concat, atFront, same]
      · rw [List.dropLast_concat]
        exact ring
      · rw [List.dropLast_concat]
        exact (List.nodup_append.mp rep.nodup).1

theorem deqrmitem_represents (state : SingleDeq α) (items : List α) (item : α) (rep : Represents state items)
    (member : item ∈ items) (count : items.length ≠ 2) :
    ∃ next, deqrmitem item state = some next ∧ Represents next (items.erase item) := by
  obtain ⟨front, back, absent, split, erased⟩ := List.exists_erase_eq member
  rw [erased]
  subst split
  have singular := deqissingular_iff state front back item rep
  by_cases alone : front ++ back = []
  · obtain ⟨rfl, rfl⟩ := List.append_eq_nil_iff.mp alone
    have atDeq : state.deq = some item := rep.first
    refine ⟨⟨state.links, none⟩, ?_, rfl, .nil, by simp⟩
    simp [deqrmitem, singular, atDeq]
  · have several : ¬ deqissingular state.links item := by
      rw [singular]
      have nonempty := List.length_pos_of_ne_nil alone
      simp only [List.length_append, List.length_cons] at count nonempty ⊢
      omega
    obtain ⟨links, unlinked, ring, next, -⟩ := unlink_ring state.links front back item rep.ring rep.nodup alone
    refine ⟨⟨links, if some item = state.deq then links.next item else state.deq⟩, by simp [deqrmitem, several, unlinked], ?_, ring, ?_⟩
    · cases front with
      | nil =>
          have atDeq : state.deq = some item := rep.first
          cases back with
          | nil => simp at alone
          | cons second back =>
              simp only [atDeq, if_true, next, List.nil_append, List.head?_cons]
              exact (ring_next_head state.links item second back rep.ring).1
      | cons first front =>
          have atDeq : state.deq = some first := rep.first
          have different : item ≠ first := by
            rintro rfl
            simp at absent
          simp [atDeq, different]
    · exact rep.nodup.sublist (by simp)

theorem linkbefore_frame (state next : SingleDeq α) (items : List α) (item other : α) (rep : Represents state items)
    (linked : linkbefore item state = some next) (outside : other ∉ items) (different : other ≠ item) :
    next.links.next other = state.links.next other ∧ next.links.prev other = state.links.prev other := by
  rcases List.eq_nil_or_concat items with empty | ⟨front, last, split⟩
  · subst empty
    have made : ⟨deqinit state.links item, some item⟩ = next := by simpa [linkbefore, rep.first] using linked
    rw [← made]
    simp [deqinit, set_next_elsewhere, set_prev_elsewhere, different]
  · rw [List.concat_eq_append] at split
    subst split
    obtain ⟨first, atHead, links⟩ := linkbefore_last state front last item rep
    rw [links] at linked
    cases linked
    have notLast : other ≠ last := by
      rintro rfl
      simp at outside
    have notFirst : other ≠ first := by
      rintro rfl
      exact outside (List.mem_of_mem_head? atHead)
    rw [join_next_elsewhere _ _ _ _ different, join_next_elsewhere _ _ _ _ notLast, join_prev_elsewhere _ _ _ _ notFirst,
      join_prev_elsewhere _ _ _ _ different]
    exact ⟨rfl, rfl⟩

theorem deqpop_frame (state next : SingleDeq α) (items : List α) (other : α) (out : Option α) (rep : Represents state items)
    (popped : deqpop state = some (next, out)) (outside : other ∉ items) :
    next.links.next other = state.links.next other ∧ next.links.prev other = state.links.prev other := by
  cases items with
  | nil =>
      simp only [deqpop, rep.first, List.head?_nil, Option.some.injEq, Prod.mk.injEq] at popped
      rw [popped.1]
      exact ⟨rfl, rfl⟩
  | cons item rest =>
      have atDeq : state.deq = some item := rep.first
      by_cases singular : deqissingular state.links item
      · simp only [deqpop, atDeq, singular, not_true_eq_false, if_false, Option.some.injEq, Prod.mk.injEq] at popped
        rw [← popped.1]
        exact ⟨rfl, rfl⟩
      · have remaining : rest ≠ [] := by
          rintro rfl
          exact singular ((deqissingular_iff state [] [] item rep).mpr (by simp))
        obtain ⟨second, tail, shape⟩ := List.exists_cons_of_ne_nil remaining
        have atHead : rest.head? = some second := by rw [shape]; rfl
        have atLast : rest.getLast? = some (rest.getLast remaining) := List.getLast?_eq_some_getLast remaining
        have unlinked := unlink_head state.links item second _ rest rep.ring rep.nodup atHead atLast
        simp only [deqpop, atDeq, singular, not_false_eq_true, if_true, unlinked, Option.bind_eq_bind, Option.bind_some,
          Option.some.injEq, Prod.mk.injEq] at popped
        rw [← popped.1]
        have notLast : other ≠ rest.getLast remaining := by
          rintro rfl
          exact outside (List.mem_cons_of_mem _ (List.getLast_mem remaining))
        have notSecond : other ≠ second := by
          rintro rfl
          exact outside (List.mem_cons_of_mem _ (List.mem_of_mem_head? atHead))
        exact ⟨join_next_elsewhere _ _ _ _ notLast, join_prev_elsewhere _ _ _ _ notSecond⟩

omit [DecidableEq α] in
theorem represents_frame (links after : Heap α) (deq : Option α) (items : List α) (rep : Represents ⟨links, deq⟩ items)
    (kept : ∀ item ∈ items, after.next item = links.next item ∧ after.prev item = links.prev item) :
    Represents ⟨after, deq⟩ items := by
  have inside : ∀ item ∈ items ++ items.head?.toList, item ∈ items := by
    intro item member
    rcases List.mem_append.mp member with old | atHead
    · exact old
    · exact List.mem_of_mem_head? (by simpa using atHead)
  refine ⟨rep.first, ?_, rep.nodup⟩
  apply path_frame links after _ rep.ring
  · exact fun item member => (kept item (inside item (List.dropLast_subset _ member))).1
  · exact fun item member => (kept item (inside item (List.mem_of_mem_tail member))).2

omit [DecidableEq α] in
theorem ring_next_mem (links : Heap α) (items : List α) (item next : α) (ring : Ring links items) (member : item ∈ items)
    (linked : links.next item = some next) : next ∈ items := by
  obtain ⟨front, back, split⟩ := List.append_of_mem member
  subst split
  have turned : Ring links (item :: (back ++ front)) := by simpa using ring_rotate links front (item :: back) ring
  have path : Path links (item :: ((back ++ front) ++ [item])) := by simpa [Links.Ring] using turned
  cases others : back ++ front with
  | nil =>
      rw [others] at path
      have same : next = item := Option.some.inj (linked.symm.trans (List.isChain_cons_cons.mp path).1.1)
      exact same ▸ member
  | cons first rest =>
      rw [others] at path
      have same : next = first := Option.some.inj (linked.symm.trans (List.isChain_cons_cons.mp path).1.1)
      have inside : first ∈ back ++ front := others ▸ List.mem_cons_self
      rw [same, List.mem_append, List.mem_cons]
      rcases List.mem_append.mp inside with late | early
      · exact Or.inr (Or.inr late)
      · exact Or.inl early

-- A list that begins with the same item and follows the same links meets the same items.
omit [DecidableEq α] in
theorem represents_reaches (links after : Heap α) (deq : Option α) (front back others : List α) (item : α)
    (rep : Represents ⟨links, deq⟩ (front ++ item :: back)) (now : Represents ⟨after, deq⟩ others)
    (same : ∀ other ∈ front, after.next other = links.next other) : item ∈ others := by
  induction front using List.reverseRecOn generalizing item back with
  | nil => exact List.mem_of_mem_head? (now.first.symm.trans rep.first)
  | append_singleton front last ih =>
      have whole : front ++ [last] ++ item :: back = front ++ last :: item :: back := by simp
      rw [whole] at rep
      have before := ih (item :: back) last rep fun other early => same other (List.mem_append_left _ early)
      have path : Path links (last :: item :: back) := (ring_path links _ rep.ring).right_of_append
      have linked := (List.isChain_cons_cons.mp path).1.1
      exact ring_next_mem after others last item now.ring before ((same last (by simp)).trans linked)

-- Two items look like one to the source: removing one of them either empties
-- the deque or changes nothing.
omit [DecidableEq α] in
theorem two_items_singular (state : SingleDeq α) (a b : α) (rep : Represents state [a, b]) :
    deqissingular state.links a ∧ deqissingular state.links b :=
  ⟨(deqissingular_iff state [] [b] a rep).mpr (by simp), (deqissingular_iff state [a] [] b rep).mpr (by simp)⟩

def Sound (items : List α) : Op α → Prop
  | .push _ => items = []
  | .append _ => True
  | .pop => items.length ≠ 2
  | .getlast => items.length ≠ 2
  | .rmitem _ => items.length ≠ 2

omit [DecidableEq α] in
theorem emptied_not_represents (links : Heap α) (items : List α) (some : items ≠ []) : ¬ Represents ⟨links, none⟩ items := by
  intro rep
  exact some (List.head?_eq_none_iff.mp rep.first.symm)

theorem rmitem_of_two (state other : SingleDeq α) (a b item : α) (rep : Represents state [a, b]) (member : item ∈ [a, b])
    (taken : deqrmitem item state = some other) : ¬ Represents other ([a, b].erase item) := by
  have atDeq : state.deq = some a := rep.first
  have singular := two_items_singular state a b rep
  have different : a ≠ b := by
    have nodup := rep.nodup
    simp at nodup
    exact nodup
  have members : item = a ∨ item = b := by simpa using member
  rcases members with rfl | rfl
  · have emptied : ⟨state.links, none⟩ = other := by simpa [deqrmitem, atDeq, singular.1] using taken
    subst emptied
    exact emptied_not_represents state.links _ (by simp)
  · have unchanged : state = other := by simpa [deqrmitem, atDeq, singular.2, Ne.symm different] using taken
    subst unchanged
    intro otherRep
    have shrunk := represents_unique state _ _ rep otherRep
    simp [different] at shrunk

theorem deq_step_exact (state : SingleDeq α) (items : List α) (op : Op α) (rep : Represents state items)
    (legal : Legal items op) :
    (∃ next, deqStep state op = some (next, (listStep items op).2) ∧ Represents next (listStep items op).1) ↔
      Sound items op := by
  cases op with
  | push item =>
      obtain ⟨next, linked, nextRep⟩ := linkbefore_represents state items item rep legal
      constructor
      · rintro ⟨other, taken, otherRep⟩
        have same : next = other := by simpa [deqStep, deqpush, linked, listStep] using taken
        subst same
        have order : items ++ [item] = item :: items := represents_unique next _ _ nextRep otherRep
        cases items with
        | nil => rfl
        | cons first items =>
            have head : first = item := (List.cons.inj order).1
            exact absurd (by simp [head]) legal
      · intro empty
        have empty : items = [] := empty
        subst empty
        exact ⟨next, by simp [deqStep, deqpush, linked, listStep], nextRep⟩
  | append item =>
      obtain ⟨next, linked, nextRep⟩ := linkbefore_represents state items item rep legal
      exact ⟨fun _ => trivial, fun _ => ⟨next, by simp [deqStep, deqappend, linked, listStep], nextRep⟩⟩
  | pop =>
      refine ⟨?_, deqpop_represents state items rep⟩
      rintro ⟨other, taken, otherRep⟩ two
      obtain ⟨a, b, rfl⟩ := List.length_eq_two.mp two
      have atDeq : state.deq = some a := rep.first
      have emptied : ⟨state.links, none⟩ = other := by
        simpa [deqStep, deqpop, atDeq, (two_items_singular state a b rep).1, listStep] using taken
      subst emptied
      exact emptied_not_represents state.links _ (by simp [listStep]) otherRep
  | getlast =>
      refine ⟨?_, deqgetlast_represents state items rep⟩
      rintro ⟨other, taken, otherRep⟩ two
      obtain ⟨a, b, rfl⟩ := List.length_eq_two.mp two
      have atDeq : state.deq = some a := rep.first
      have pair : ⟨state.links, none⟩ = other ∧ a = b := by
        simpa [deqStep, deqgetlast, atDeq, (two_items_singular state a b rep).1, listStep] using taken
      obtain ⟨rfl, -⟩ := pair
      exact emptied_not_represents state.links _ (by simp [listStep]) otherRep
  | rmitem item =>
      constructor
      · rintro ⟨other, taken, otherRep⟩ two
        obtain ⟨a, b, rfl⟩ := List.length_eq_two.mp two
        have removed : deqrmitem item state = some other := by simpa [deqStep, listStep] using taken
        exact rmitem_of_two state other a b item rep legal removed otherRep
      · intro count
        obtain ⟨next, removed, nextRep⟩ := deqrmitem_represents state items item rep legal count
        exact ⟨next, by simp [deqStep, removed, listStep], nextRep⟩

def emptyDeq (links : Heap α) : SingleDeq α := ⟨links, none⟩

omit [DecidableEq α] in
theorem empty_deq_represents (links : Heap α) : Represents (emptyDeq links) ([] : List α) := ⟨rfl, .nil, .nil⟩

-- The deque is the list along a run exactly when every push finds it empty
-- and nothing is removed while it holds two items.
theorem single_deq_refines_iff (links : Heap α) (ops : List (Op α)) (legal : Along listStep Legal [] ops) :
    Refines deqStep listStep Represents (emptyDeq links) [] ops ↔ Along listStep Sound [] ops :=
  refines_iff_along deqStep listStep Represents Legal Sound deq_step_exact (emptyDeq links) [] ops
    (empty_deq_represents links) legal

def noLinks : Heap Nat := ⟨fun _ => none, fun _ => none⟩

theorem single_deq_refines_three_items :
    Along listStep Legal [] [.push 1, .append 2, .append 3, .pop, .append 4, .rmitem (3 : Nat)] ∧
      Refines deqStep listStep Represents (emptyDeq noLinks) []
        [.push 1, .append 2, .append 3, .pop, .append 4, .rmitem 3] := by
  have legal : Along listStep Legal [] [.push 1, .append 2, .append 3, .pop, .append 4, .rmitem (3 : Nat)] := by
    simp [Along, Legal, listStep]
  exact ⟨legal, (single_deq_refines_iff noLinks _ legal).mpr (by simp [Along, Sound, listStep])⟩

-- Pushing 1 and then 2 leaves 1 in front, so the pop hands out 1 and not 2.
theorem push_keeps_old_front :
    Along listStep Legal [] [.push 1, .push (2 : Nat), .pop] ∧
      ¬ Refines deqStep listStep Represents (emptyDeq noLinks) [] [.push 1, .push 2, .pop] := by
  refine ⟨by simp [Along, Legal, listStep], ?_⟩
  rintro ⟨-, one, first, -, two, second, -, three, third, -⟩
  cases first
  cases second
  cases third

end OsZero.Deq

import OsZero.Deq.Ring

set_option autoImplicit false

namespace OsZero.Deq

open Links Runs

universe u
variable {α : Type u} [DecidableEq α]

-- The variant with a head structure: *deq is a head whose next and prev name
-- the first and last item. The items link to each other, never to the head.
structure HeadDeq (α : Type u) where
  links : Heap α
  next : Option α
  prev : Option α

def HeadDeq.issingular (state : HeadDeq α) : Prop := state.next = state.prev

instance (state : HeadDeq α) : Decidable state.issingular := by
  unfold HeadDeq.issingular
  infer_instance

-- The first item of a deque keeps whatever links it had: deqinit writes the
-- head only.
def HeadDeq.init (state : HeadDeq α) (item : α) : HeadDeq α := ⟨state.links, some item, some item⟩

def HeadDeq.deqpush (item : α) (state : HeadDeq α) : Option (HeadDeq α) :=
  match state.next with
  | some list => do
      let links := state.links.setPrev item state.prev
      let last ← links.prev item
      let links := links.setNext last (some item)
      let links := links.setPrev list (some item)
      some ⟨links.setNext item (some list), some item, state.prev⟩
  | none => some (state.init item)

def HeadDeq.deqpop (state : HeadDeq α) : Option (HeadDeq α × Option α) :=
  match state.next with
  | none => some (state, none)
  | some item =>
      if ¬ state.issingular then do
        let last ← state.prev
        let links := state.links.setNext last (state.links.next item)
        let after ← links.next item
        let links := links.setPrev after state.prev
        some (⟨links, links.next item, state.prev⟩, some item)
      else some (⟨state.links, none, none⟩, some item)

def HeadDeq.deqappend (item : α) (state : HeadDeq α) : Option (HeadDeq α) :=
  match state.prev with
  | some list => do
      let links := state.links.setPrev item (some list)
      let links := links.setNext list (some item)
      let links := links.setNext item state.next
      let after ← links.next item
      some ⟨links.setPrev after (some item), state.next, some item⟩
  | none => some (state.init item)

def HeadDeq.deqgetlast (state : HeadDeq α) : Option (HeadDeq α × Option α) :=
  match state.prev with
  | none => some (state, none)
  | some item =>
      if ¬ state.issingular then do
        let links ← unlink state.links item
        some (⟨links, state.next, state.prev⟩, some item)
      else some (⟨state.links, none, none⟩, some item)

-- When the first item is removed the source stores its successor in a local
-- variable; the head keeps both of its pointers.
def HeadDeq.deqrmitem (item : α) (state : HeadDeq α) : Option (HeadDeq α) :=
  match state.next with
  | none => some state
  | some _ =>
      if ¬ state.issingular then do
        let links ← unlink state.links item
        some ⟨links, state.next, state.prev⟩
      else some ⟨state.links, none, none⟩

def HeadDeq.step (state : HeadDeq α) : Op α → Option (HeadDeq α × Option α)
  | .push item => (state.deqpush item).map (·, none)
  | .append item => (state.deqappend item).map (·, none)
  | .pop => state.deqpop
  | .getlast => state.deqgetlast
  | .rmitem item => (state.deqrmitem item).map (·, none)

-- A single item is linked to nothing in particular, so only the path between
-- the items and, from two items on, the closing link are part of what is asked.
structure HeadRepresents (state : HeadDeq α) (items : List α) : Prop where
  first : state.next = items.head?
  last : state.prev = items.getLast?
  path : Path state.links items
  ring : 2 ≤ items.length → Ring state.links items
  nodup : items.Nodup

omit [DecidableEq α] in
theorem head_ring_represents (state : HeadDeq α) (items : List α) (first : state.next = items.head?)
    (last : state.prev = items.getLast?) (ring : Ring state.links items) (nodup : items.Nodup) :
    HeadRepresents state items :=
  ⟨first, last, ring_path _ _ ring, fun _ => ring, nodup⟩

omit [DecidableEq α] in
theorem head_one_represents (links : Heap α) (item : α) :
    HeadRepresents (⟨links, some item, some item⟩ : HeadDeq α) [item] :=
  ⟨rfl, rfl, .singleton _, by simp, by simp⟩

omit [DecidableEq α] in
theorem head_none_represents (links : Heap α) : HeadRepresents (⟨links, none, none⟩ : HeadDeq α) [] :=
  ⟨rfl, rfl, .nil, by simp, .nil⟩

omit [DecidableEq α] in
theorem head_issingular_iff (state : HeadDeq α) (items : List α) (rep : HeadRepresents state items) :
    state.issingular ↔ items.length ≤ 1 := by
  rw [HeadDeq.issingular, rep.first, rep.last]
  cases items with
  | nil => simp
  | cons first rest =>
      rcases List.eq_nil_or_concat rest with empty | ⟨front, last, split⟩
      · simp [empty]
      · rw [List.concat_eq_append] at split
        subst split
        have different : first ≠ last := by
          rintro rfl
          have nodup := rep.nodup
          simp at nodup
        have atLast : (first :: (front ++ [last])).getLast? = some last := by
          rw [← List.cons_append, List.getLast?_append]
          rfl
        simp [atLast, different]

theorem head_insert_links (links : Heap α) (front : List α) (first last item : α)
    (path : Path links (front ++ [last])) (nodup : (front ++ [last]).Nodup)
    (atHead : (front ++ [last]).head? = some first) (absent : item ∉ front ++ [last]) :
    Ring (join (join links last item) item first) (front ++ [last] ++ [item]) ∧
      Ring (join (join links last item) item first) (item :: (front ++ [last])) ∧
      (front ++ [last] ++ [item]).Nodup ∧ (item :: (front ++ [last])).Nodup := by
  have ring := ring_insert_back links front first last item path nodup atHead absent
  have pushed : (item :: (front ++ [last])).Nodup := List.nodup_cons.mpr ⟨absent, nodup⟩
  have appended : (front ++ [last] ++ [item]).Nodup := List.nodup_append_comm.mp pushed
  exact ⟨ring, ring_rotate _ (front ++ [last]) [item] ring, appended, pushed⟩

omit [DecidableEq α] in
theorem head_ends (state : HeadDeq α) (front : List α) (last : α) (rep : HeadRepresents state (front ++ [last])) :
    ∃ first, (front ++ [last]).head? = some first ∧ state.prev = some last ∧ state.next = some first := by
  obtain ⟨first, rest, shape⟩ := List.exists_cons_of_ne_nil (List.append_ne_nil_of_right_ne_nil front (List.cons_ne_nil last []))
  have atHead : (front ++ [last]).head? = some first := by rw [shape]; rfl
  exact ⟨first, atHead, by simpa using rep.last, rep.first.trans atHead⟩

theorem head_deqpush_represents (state : HeadDeq α) (items : List α) (item : α)
    (rep : HeadRepresents state items) (absent : item ∉ items) :
    ∃ next, state.deqpush item = some next ∧ HeadRepresents next (item :: items) := by
  rcases List.eq_nil_or_concat items with empty | ⟨front, last, split⟩
  · subst empty
    exact ⟨_, by simp [HeadDeq.deqpush, HeadDeq.init, rep.first], head_one_represents state.links item⟩
  · rw [List.concat_eq_append] at split
    subst split
    obtain ⟨first, atHead, atPrev, atNext⟩ := head_ends state front last rep
    obtain ⟨-, ring, -, nodup⟩ := head_insert_links state.links front first last item rep.path rep.nodup atHead absent
    refine ⟨⟨join (join state.links last item) item first, some item, state.prev⟩, ?_, ?_⟩
    · simp [HeadDeq.deqpush, atNext, atPrev]
      rfl
    · refine head_ring_represents _ _ rfl ?_ ring nodup
      rw [← List.cons_append, List.getLast?_append]
      simpa using atPrev

theorem head_deqappend_represents (state : HeadDeq α) (items : List α) (item : α)
    (rep : HeadRepresents state items) (absent : item ∉ items) :
    ∃ next, state.deqappend item = some next ∧ HeadRepresents next (items ++ [item]) := by
  rcases List.eq_nil_or_concat items with empty | ⟨front, last, split⟩
  · subst empty
    exact ⟨_, by simp [HeadDeq.deqappend, HeadDeq.init, rep.last], head_one_represents state.links item⟩
  · rw [List.concat_eq_append] at split
    subst split
    obtain ⟨first, atHead, atPrev, atNext⟩ := head_ends state front last rep
    obtain ⟨ring, -, nodup, -⟩ := head_insert_links state.links front first last item rep.path rep.nodup atHead absent
    refine ⟨⟨join (join state.links last item) item first, state.next, some item⟩, ?_, ?_⟩
    · simp [HeadDeq.deqappend, atNext, atPrev]
      rfl
    · refine head_ring_represents _ _ ?_ (by simp) ring nodup
      rw [List.head?_append, atHead]
      exact atNext

theorem head_deqpop_represents (state : HeadDeq α) (items : List α) (rep : HeadRepresents state items) :
    ∃ next, state.deqpop = some (next, items.head?) ∧ HeadRepresents next items.tail := by
  have singular := head_issingular_iff state items rep
  cases items with
  | nil => exact ⟨state, by simp [HeadDeq.deqpop, rep.first], rep⟩
  | cons item rest =>
      have atNext : state.next = some item := rep.first
      cases rest with
      | nil =>
          have one : state.issingular := singular.mpr (by simp)
          exact ⟨_, by simp [HeadDeq.deqpop, atNext, one], head_none_represents state.links⟩
      | cons second rest =>
          have several : ¬ state.issingular := by simp [singular]
          have ring := rep.ring (by simp)
          have after := (ring_next_head state.links item second rest ring).1
          have atLast : (second :: rest).getLast? = some ((second :: rest).getLast (by simp)) :=
            List.getLast?_eq_some_getLast _
          generalize (second :: rest).getLast (by simp) = last at atLast
          have atPrev : state.prev = some last := by rw [rep.last, List.getLast?_cons_cons, atLast]
          have different : item ≠ last := by
            rintro rfl
            exact (List.nodup_cons.mp rep.nodup).1 (List.mem_of_getLast? atLast)
          have removed := ring_remove_head state.links item second last (second :: rest) ring rep.nodup rfl atLast
          refine ⟨⟨join state.links last second, some second, state.prev⟩, ?_, ?_⟩
          · simp [HeadDeq.deqpop, atNext, several, atPrev, set_next_elsewhere _ _ _ _ different, after, join]
          · exact head_ring_represents _ _ rfl (atPrev.trans atLast.symm) removed (List.nodup_cons.mp rep.nodup).2

theorem head_deqgetlast_few (state : HeadDeq α) (items : List α) (rep : HeadRepresents state items)
    (count : items.length ≤ 1) :
    ∃ next, state.deqgetlast = some (next, items.getLast?) ∧ HeadRepresents next items.dropLast := by
  have one : state.issingular := (head_issingular_iff state items rep).mpr count
  cases items with
  | nil => exact ⟨state, by simp [HeadDeq.deqgetlast, rep.last], rep⟩
  | cons item rest =>
      have alone : rest = [] := by simpa using count
      subst alone
      have atPrev : state.prev = some item := rep.last
      exact ⟨_, by simp [HeadDeq.deqgetlast, atPrev, one], head_none_represents state.links⟩

-- From two items on neither removal writes the head, so its pointers are
-- right afterwards exactly when they do not name the removed item.
theorem head_deqgetlast_keeps (state next : HeadDeq α) (out : Option α) (several : ¬ state.issingular)
    (taken : state.deqgetlast = some (next, out)) : next.prev = state.prev := by
  unfold HeadDeq.deqgetlast at taken
  split at taken
  · cases taken
    rfl
  · rw [if_pos several] at taken
    obtain ⟨links, -, pair⟩ := Option.bind_eq_some_iff.mp taken
    cases pair
    rfl

theorem head_deqrmitem_keeps (state next : HeadDeq α) (item : α) (several : ¬ state.issingular)
    (taken : state.deqrmitem item = some next) : next.next = state.next ∧ next.prev = state.prev := by
  unfold HeadDeq.deqrmitem at taken
  split at taken
  · cases taken
    exact ⟨rfl, rfl⟩
  · rw [if_pos several] at taken
    obtain ⟨links, -, same⟩ := Option.bind_eq_some_iff.mp taken
    cases same
    exact ⟨rfl, rfl⟩

theorem head_deqrmitem_few (state : HeadDeq α) (items : List α) (item : α) (rep : HeadRepresents state items)
    (member : item ∈ items) (count : items.length ≤ 1) :
    ∃ next, state.deqrmitem item = some next ∧ HeadRepresents next (items.erase item) := by
  have one : state.issingular := (head_issingular_iff state items rep).mpr count
  cases items with
  | nil => simp at member
  | cons first rest =>
      have alone : rest = [] := by simpa using count
      subst alone
      have same : item = first := by simpa using member
      subst same
      have atNext : state.next = some item := rep.first
      refine ⟨_, by simp [HeadDeq.deqrmitem, atNext, one]; rfl, ?_⟩
      rw [List.erase_cons_head]
      exact head_none_represents state.links

theorem head_deqrmitem_inner (state : HeadDeq α) (items : List α) (item : α) (rep : HeadRepresents state items)
    (member : item ∈ items) (notFirst : items.head? ≠ some item) (notLast : items.getLast? ≠ some item) :
    ∃ next, state.deqrmitem item = some next ∧ HeadRepresents next (items.erase item) := by
  have singular := head_issingular_iff state items rep
  obtain ⟨front, back, -, split, erased⟩ := List.exists_erase_eq member
  rw [erased]
  subst split
  cases front with
  | nil => simp at notFirst
  | cons first front =>
      rcases List.eq_nil_or_concat back with empty | ⟨middle, last, shape⟩
      · subst empty
        exact absurd List.getLast?_concat notLast
      · rw [List.concat_eq_append] at shape
        subst shape
        have several : ¬ state.issingular := by
          rw [singular]
          simp
        have atNext : state.next = some first := rep.first
        obtain ⟨links, unlinked, ring, -, -⟩ :=
          unlink_ring state.links (first :: front) (middle ++ [last]) item (rep.ring (by simp; omega)) rep.nodup (by simp)
        refine ⟨⟨links, state.next, state.prev⟩, by simp [HeadDeq.deqrmitem, atNext, several, unlinked], ?_⟩
        refine head_ring_represents _ _ atNext ?_ ring (rep.nodup.sublist (by simp))
        rw [rep.last, ← List.cons_append, ← List.append_assoc, ← List.append_assoc, List.getLast?_concat, List.getLast?_concat]

def HeadSound (items : List α) : Op α → Prop
  | .push _ => True
  | .append _ => True
  | .pop => True
  | .getlast => items.length ≤ 1
  | .rmitem item => items.length ≤ 1 ∨ (items.head? ≠ some item ∧ items.getLast? ≠ some item)

theorem head_deqgetlast_exact (state : HeadDeq α) (items : List α) (rep : HeadRepresents state items) :
    (∃ next, state.deqgetlast = some (next, items.getLast?) ∧ HeadRepresents next items.dropLast) ↔
      items.length ≤ 1 := by
  refine ⟨?_, head_deqgetlast_few state items rep⟩
  rintro ⟨next, taken, nextRep⟩
  by_contra many
  have several : ¬ state.issingular := by
    rw [head_issingular_iff state items rep]
    exact many
  have stale := head_deqgetlast_keeps state next _ several taken
  rcases List.eq_nil_or_concat items with empty | ⟨front, last, split⟩
  · simp [empty] at many
  · rw [List.concat_eq_append] at split
    subst split
    rw [nextRep.last, rep.last, List.dropLast_concat, List.getLast?_concat] at stale
    have again : last ∈ front := List.mem_of_getLast? stale
    exact (List.nodup_append.mp rep.nodup).2.2 last again last (by simp) rfl

theorem head_deqrmitem_exact (state : HeadDeq α) (items : List α) (item : α) (rep : HeadRepresents state items)
    (member : item ∈ items) :
    (∃ next, state.deqrmitem item = some next ∧ HeadRepresents next (items.erase item)) ↔
      items.length ≤ 1 ∨ (items.head? ≠ some item ∧ items.getLast? ≠ some item) := by
  constructor
  · rintro ⟨next, taken, nextRep⟩
    by_cases few : items.length ≤ 1
    · exact .inl few
    · have several : ¬ state.issingular := by
        rw [head_issingular_iff state items rep]
        exact few
      obtain ⟨nextKept, prevKept⟩ := head_deqrmitem_keeps state next item several taken
      have gone : item ∉ items.erase item := rep.nodup.not_mem_erase
      refine .inr ⟨?_, ?_⟩
      · intro named
        rw [nextRep.first, rep.first, named] at nextKept
        exact gone (List.mem_of_mem_head? nextKept)
      · intro named
        rw [nextRep.last, rep.last, named] at prevKept
        exact gone (List.mem_of_getLast? prevKept)
  · rintro (few | ⟨notFirst, notLast⟩)
    · exact head_deqrmitem_few state items item rep member few
    · exact head_deqrmitem_inner state items item rep member notFirst notLast

theorem head_step_exact (state : HeadDeq α) (items : List α) (op : Op α) (rep : HeadRepresents state items)
    (legal : Legal items op) :
    (∃ next, state.step op = some (next, (listStep items op).2) ∧ HeadRepresents next (listStep items op).1) ↔
      HeadSound items op := by
  cases op with
  | push item =>
      obtain ⟨next, taken, nextRep⟩ := head_deqpush_represents state items item rep legal
      exact ⟨fun _ => trivial, fun _ => ⟨next, by simp [HeadDeq.step, taken, listStep], nextRep⟩⟩
  | append item =>
      obtain ⟨next, taken, nextRep⟩ := head_deqappend_represents state items item rep legal
      exact ⟨fun _ => trivial, fun _ => ⟨next, by simp [HeadDeq.step, taken, listStep], nextRep⟩⟩
  | pop => exact ⟨fun _ => trivial, fun _ => head_deqpop_represents state items rep⟩
  | getlast => exact head_deqgetlast_exact state items rep
  | rmitem item =>
      have exact_removal := head_deqrmitem_exact state items item rep legal
      simpa [HeadDeq.step, listStep, HeadSound] using exact_removal

def emptyHead (links : Heap α) : HeadDeq α := ⟨links, none, none⟩

-- The head names both ends along a run exactly when, from two items on, the
-- last item is never taken and neither end is removed by name.
theorem head_deq_refines_iff (links : Heap α) (ops : List (Op α)) (legal : Along listStep Legal [] ops) :
    Refines HeadDeq.step listStep HeadRepresents (emptyHead links) [] ops ↔ Along listStep HeadSound [] ops :=
  refines_iff_along HeadDeq.step listStep HeadRepresents Legal HeadSound head_step_exact (emptyHead links) [] ops
    (head_none_represents links) legal

def unlinked : Heap Nat := ⟨fun _ => none, fun _ => none⟩

theorem head_deq_refines_inner_removal :
    Along listStep Legal [] [.push 2, .push 1, .append 3, .rmitem (2 : Nat), .pop, .getlast] ∧
      Refines HeadDeq.step listStep HeadRepresents (emptyHead unlinked) []
        [.push 2, .push 1, .append 3, .rmitem 2, .pop, .getlast] := by
  have legal : Along listStep Legal [] [.push 2, .push 1, .append 3, .rmitem (2 : Nat), .pop, .getlast] := by
    simp [Along, Legal, listStep]
  exact ⟨legal, (head_deq_refines_iff unlinked _ legal).mpr (by simp [Along, HeadSound, listStep])⟩

-- The second getlast hands out 2 again: the head still names it.
theorem getlast_repeats_item :
    Along listStep Legal [] [.append 1, .append (2 : Nat), .getlast, .getlast] ∧
      ¬ Refines HeadDeq.step listStep HeadRepresents (emptyHead unlinked) []
        [.append 1, .append 2, .getlast, .getlast] := by
  refine ⟨by simp [Along, Legal, listStep], ?_⟩
  rintro ⟨-, one, first, -, two, second, -, three, third, rep, -⟩
  cases first
  cases second
  cases third
  have named := rep.last
  simp [listStep] at named

end OsZero.Deq

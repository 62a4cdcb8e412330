import OsZero.Lib.Links

set_option autoImplicit false

namespace Links

universe u v
variable {α : Type u} [DecidableEq α] {β : Type v} [DecidableEq β]

def pushFront (heap : Heap α) (item : α) (head : Option α) : Heap α :=
  match head with
  | some first => (heap.setPrev first (some item)).setNext item head
  | none => heap.setNext item head

def popFront (heap : Heap α) (item : α) : Heap α :=
  match heap.next item with
  | some next => ((heap.setPrev next none).setPrev item none).setNext item none
  | none => (heap.setPrev item none).setNext item none

-- An item with no predecessor is taken for the first one.
def unlink (heap : Heap α) (item : α) : Heap α :=
  match heap.prev item, heap.next item with
  | some prev, some next => (heap.setNext prev (some next)).setPrev next (some prev)
  | some prev, none => heap.setNext prev none
  | none, some next => heap.setPrev next none
  | none, none => heap

def unlinkHead (heap : Heap α) (item : α) (head : Option α) : Option α :=
  match heap.prev item with
  | some _ => head
  | none => heap.next item

-- A family of lists over one heap of links: no item is in two of them, and an
-- item that is in none has no predecessor.
structure Shelved (heap : Heap α) (head : β → Option α) (shelf : β → List α) : Prop where
  ended : ∀ bin, Ended heap (shelf bin)
  first : ∀ bin, head bin = (shelf bin).head?
  apart : ∀ one two item, item ∈ shelf one → item ∈ shelf two → one = two
  off : ∀ item, (∀ bin, item ∉ shelf bin) → heap.prev item = none

omit [DecidableEq α] in
theorem ended_frame (heap after : Heap α) (items : List α) (ended : Ended heap items)
    (same : ∀ item ∈ items, after.next item = heap.next item ∧ after.prev item = heap.prev item) : Ended after items := by
  constructor
  · apply path_frame heap after items ended.path
    · exact fun item member => (same item (List.dropLast_subset _ member)).1
    · exact fun item member => (same item (List.mem_of_mem_tail member)).2
  · intro first atHead
    rw [(same first (List.mem_of_mem_head? atHead)).2]
    exact ended.front first atHead
  · intro last atLast
    rw [(same last (List.mem_of_mem_getLast? atLast)).1]
    exact ended.back last atLast
  · exact ended.nodup

omit [DecidableEq α] in
theorem ended_next (heap : Heap α) (front back : List α) (item : α) (ended : Ended heap (front ++ item :: back)) :
    heap.next item = back.head? := by
  cases back with
  | nil => exact ended.back item (by simp)
  | cons next back => exact ((List.isChain_append_cons_cons.mp ended.path).2.1).1

omit [DecidableEq α] in
theorem ended_prev (heap : Heap α) (front back : List α) (item : α) (ended : Ended heap (front ++ item :: back)) :
    heap.prev item = front.getLast? := by
  rcases List.eq_nil_or_concat front with rfl | ⟨front, last, rfl⟩
  · exact ended.front item (by simp)
  · have path : Path heap (front ++ last :: item :: back) := by simpa using ended.path
    simpa using ((List.isChain_append_cons_cons.mp path).2.1).2

theorem ended_push (heap : Heap α) (items : List α) (item : α) (ended : Ended heap items) (absent : item ∉ items)
    (bare : heap.prev item = none) : Ended (pushFront heap item items.head?) (item :: items) := by
  cases items with
  | nil =>
      apply ended_single
      · simpa [pushFront] using bare
      · simp [pushFront]
  | cons first rest =>
      have different : first ≠ item := fun same => absent (by simp [same])
      obtain ⟨outside, restNodup⟩ := List.nodup_cons.mp ended.nodup
      have kept : Path (pushFront heap item (some first)) (first :: rest) := by
        apply path_frame heap _ _ ended.path
        · intro other member
          have notItem : other ≠ item := fun same => absent (same ▸ List.dropLast_subset _ member)
          simp [pushFront, set_next_elsewhere, notItem]
        · intro other member
          have notFirst : other ≠ first := fun same => outside (same ▸ member)
          simp [pushFront, set_prev_elsewhere, notFirst]
      constructor
      · refine List.isChain_cons_cons.mpr ⟨⟨?_, ?_⟩, kept⟩
        · simp [pushFront]
        · simp [pushFront]
      · intro other atHead
        cases atHead
        simp [pushFront, set_prev_elsewhere, Ne.symm different, bare]
      · intro last atLast
        have inside : last ∈ first :: rest := List.mem_of_mem_getLast? (by simpa using atLast)
        have notItem : last ≠ item := fun same => absent (same ▸ inside)
        simp only [List.head?_cons, pushFront, set_next_elsewhere _ _ _ _ notItem, set_prev_next]
        exact ended.back last (by simpa using atLast)
      · exact List.nodup_cons.mpr ⟨absent, ended.nodup⟩

theorem ended_pop (heap : Heap α) (items : List α) (item : α) (ended : Ended heap (item :: items)) :
    Ended (popFront heap item) items := by
  have next := ended_next heap [] items item ended
  obtain ⟨outside, nodup⟩ := List.nodup_cons.mp ended.nodup
  cases items with
  | nil => exact ended_nil _
  | cons second rest =>
      have secondItem : second ≠ item := fun same => outside (by simp [same])
      obtain ⟨secondOutside, -⟩ := List.nodup_cons.mp nodup
      simp only [List.head?_cons] at next
      constructor
      · apply path_frame heap _ _ (List.isChain_cons_cons.mp ended.path).2
        · intro other member
          have notItem : other ≠ item := fun same => outside (same ▸ List.dropLast_subset _ member)
          simp [popFront, next, set_next_elsewhere, notItem]
        · intro other member
          have notSecond : other ≠ second := fun same => secondOutside (same ▸ member)
          have notItem : other ≠ item := fun same => outside (same ▸ List.mem_of_mem_tail member)
          simp [popFront, next, set_prev_elsewhere, notSecond, notItem]
      · intro other atHead
        cases atHead
        simp [popFront, next, set_prev_elsewhere, secondItem]
      · intro last atLast
        have notItem : last ≠ item := fun same => outside (same ▸ List.mem_of_mem_getLast? atLast)
        simp only [popFront, next, set_next_elsewhere _ _ _ _ notItem, set_prev_next]
        exact ended.back last (by simpa using atLast)
      · exact nodup

theorem ended_unlink_inner (heap : Heap α) (front back : List α) (last item next : α)
    (ended : Ended heap (front ++ [last] ++ item :: next :: back)) : Ended (join heap last next) (front ++ [last] ++ next :: back) := by
  obtain ⟨frontNodup, backNodup, apart⟩ := List.nodup_append.mp ended.nodup
  obtain ⟨-, restNodup⟩ := List.nodup_cons.mp backNodup
  have across : ∀ a ∈ front ++ [last], ∀ b ∈ next :: back, a ≠ b :=
    fun a inFront b inBack => apart a inFront b (List.mem_cons_of_mem _ inBack)
  have lastFront : last ∉ front := fun member => (List.nodup_append.mp frontNodup).2.2 last member last (by simp) rfl
  have nextBack : next ∉ back := (List.nodup_cons.mp restNodup).1
  have whole : Path heap (front ++ [last] ++ item :: next :: back) := ended.path
  have left : Path (join heap last next) (front ++ [last]) := by
    apply path_frame heap _ _ whole.left_of_append
    · intro other member
      have notLast : other ≠ last := fun same => lastFront (same ▸ by simpa using member)
      exact join_next_elsewhere heap last next other notLast
    · intro other member
      exact join_prev_elsewhere heap last next other (across other (List.mem_of_mem_tail member) next List.mem_cons_self)
  have right : Path (join heap last next) (next :: back) := by
    apply path_frame heap _ _ (List.isChain_cons_cons.mp whole.right_of_append).2
    · intro other member
      exact join_next_elsewhere heap last next other (across last (by simp) other (List.dropLast_subset _ member)).symm
    · intro other member
      have notNext : other ≠ next := fun same => nextBack (same ▸ member)
      exact join_prev_elsewhere heap last next other notNext
  constructor
  · have joined : Path (join heap last next) (front ++ last :: next :: back) :=
      List.isChain_append_cons_cons.mpr ⟨left, join_linked heap last next, right⟩
    simpa using joined
  · intro first atHead
    have inFront : first ∈ front ++ [last] := by
      cases front <;> simp_all
    rw [join_prev_elsewhere heap last next first (across first inFront next List.mem_cons_self)]
    apply ended.front
    cases front <;> simp_all
  · intro final atLast
    have inBack : final ∈ next :: back := by
      rw [List.getLast?_append_cons] at atLast
      exact List.mem_of_mem_getLast? atLast
    rw [join_next_elsewhere heap last next final (across last (by simp) final inBack).symm]
    apply ended.back
    rw [List.getLast?_append_cons] at atLast ⊢
    simpa using atLast
  · exact List.nodup_append.mpr ⟨frontNodup, restNodup, across⟩

theorem ended_unlink_last (heap : Heap α) (front : List α) (last item : α) (ended : Ended heap (front ++ [last] ++ [item])) :
    Ended (heap.setNext last none) (front ++ [last]) := by
  have nodup := (List.nodup_append.mp ended.nodup).1
  have lastFront : last ∉ front := fun member => (List.nodup_append.mp nodup).2.2 last member last (by simp) rfl
  have whole : Path heap (front ++ [last] ++ [item]) := ended.path
  constructor
  · apply path_frame heap _ _ whole.left_of_append
    · intro other member
      have notLast : other ≠ last := fun same => lastFront (same ▸ by simpa using member)
      exact set_next_elsewhere heap last other none notLast
    · exact fun _ _ => rfl
  · intro first atHead
    rw [set_next_prev]
    apply ended.front
    rw [List.head?_append, atHead]
    rfl
  · intro final atLast
    simp only [List.getLast?_append, List.getLast?_singleton, Option.some_or, Option.some.injEq] at atLast
    subst atLast
    exact set_next_here heap last none
  · exact nodup

theorem ended_unlink_first (heap : Heap α) (back : List α) (item next : α) (ended : Ended heap (item :: next :: back)) :
    Ended (heap.setPrev next none) (next :: back) := by
  have nodup := (List.nodup_cons.mp ended.nodup).2
  constructor
  · apply path_frame heap _ _ (List.isChain_cons_cons.mp ended.path).2
    · exact fun _ _ => rfl
    · intro other member
      have notNext : other ≠ next := fun same => (List.nodup_cons.mp nodup).1 (same ▸ member)
      exact set_prev_elsewhere heap next other none notNext
  · intro first atHead
    cases atHead
    exact set_prev_here heap next none
  · intro final atLast
    exact ended.back final (by simpa using atLast)
  · exact nodup

theorem ended_unlink (heap : Heap α) (front back : List α) (item : α) (ended : Ended heap (front ++ item :: back)) :
    Ended (unlink heap item) (front ++ back) := by
  have next := ended_next heap front back item ended
  have prev := ended_prev heap front back item ended
  rcases List.eq_nil_or_concat front with rfl | ⟨front, last, rfl⟩
  · cases back with
    | nil => exact ended_nil _
    | cons second back =>
        simp only [List.getLast?_nil, List.head?_cons] at prev next
        simp only [unlink, prev, next]
        exact ended_unlink_first heap back item second ended
  · rw [List.concat_eq_append] at ended prev ⊢
    simp only [List.getLast?_append, List.getLast?_singleton, Option.some_or] at prev
    cases back with
    | nil =>
        simp only [List.head?_nil] at next
        simp only [unlink, prev, next, List.append_nil]
        exact ended_unlink_last heap front last item ended
    | cons second back =>
        simp only [List.head?_cons] at next
        simp only [unlink, prev, next]
        exact ended_unlink_inner heap front back last item second ended

theorem push_elsewhere (heap : Heap α) (items : List α) (item other : α) (outside : other ∉ items) :
    (other ≠ item → (pushFront heap item items.head?).next other = heap.next other) ∧
      (pushFront heap item items.head?).prev other = heap.prev other := by
  cases items with
  | nil => exact ⟨fun different => by simp [pushFront, set_next_elsewhere, different], by simp [pushFront]⟩
  | cons first rest =>
      have notFirst : other ≠ first := fun same => outside (by simp [same])
      exact ⟨fun different => by simp [pushFront, set_next_elsewhere, different],
        by simp [pushFront, set_prev_elsewhere, notFirst]⟩

theorem pop_elsewhere (heap : Heap α) (items : List α) (item other : α) (ended : Ended heap (item :: items))
    (outside : other ∉ items) (different : other ≠ item) :
    (popFront heap item).next other = heap.next other ∧ (popFront heap item).prev other = heap.prev other := by
  have next := ended_next heap [] items item ended
  cases items with
  | nil =>
      simp only [List.head?_nil] at next
      simp [popFront, next, set_next_elsewhere, set_prev_elsewhere, different]
  | cons second rest =>
      have notSecond : other ≠ second := fun same => outside (by simp [same])
      simp only [List.head?_cons] at next
      simp [popFront, next, set_next_elsewhere, set_prev_elsewhere, different, notSecond]

theorem pop_bare (heap : Heap α) (item : α) : (popFront heap item).prev item = none := by
  unfold popFront
  cases heap.next item <;> simp

theorem unlink_elsewhere (heap : Heap α) (front back : List α) (item other : α) (ended : Ended heap (front ++ item :: back))
    (outside : other ∉ front ++ back) :
    (unlink heap item).next other = heap.next other ∧ (unlink heap item).prev other = heap.prev other := by
  have next := ended_next heap front back item ended
  have prev := ended_prev heap front back item ended
  have notPrev : ∀ before, front.getLast? = some before → other ≠ before := by
    rintro before atLast rfl
    exact outside (List.mem_append_left _ (List.mem_of_mem_getLast? atLast))
  have notNext : ∀ after, back.head? = some after → other ≠ after := by
    rintro after atHead rfl
    exact outside (List.mem_append_right _ (List.mem_of_mem_head? atHead))
  rw [← prev] at notPrev
  rw [← next] at notNext
  unfold unlink
  split
  next before after isPrev isNext =>
    simp [set_next_elsewhere, set_prev_elsewhere, notPrev before isPrev, notNext after isNext]
  next before isPrev isNext => simp [set_next_elsewhere, notPrev before isPrev]
  next after isPrev isNext => simp [set_prev_elsewhere, notNext after isNext]
  next => exact ⟨rfl, rfl⟩

omit [DecidableEq α] in
theorem unlink_head (heap : Heap α) (front back : List α) (item : α) (ended : Ended heap (front ++ item :: back)) :
    unlinkHead heap item (front ++ item :: back).head? = (front ++ back).head? := by
  have next := ended_next heap front back item ended
  have prev := ended_prev heap front back item ended
  rcases List.eq_nil_or_concat front with rfl | ⟨front, last, rfl⟩
  · simp only [List.getLast?_nil] at prev
    simp only [unlinkHead, prev, next, List.nil_append]
  · simp only [List.concat_eq_append, List.getLast?_append, List.getLast?_singleton, Option.some_or] at prev
    simp only [unlinkHead, prev, List.concat_eq_append]
    cases front <;> rfl

-- What is left to show when only one list changes.
omit [DecidableEq α] in
theorem shelved_update (heap after : Heap α) (head : β → Option α) (shelf : β → List α) (bin : β) (items : List α)
    (shelved : Shelved heap head shelf) (ended : Ended after items)
    (elsewhere : ∀ other, other ≠ bin → ∀ item ∈ shelf other, after.next item = heap.next item ∧ after.prev item = heap.prev item)
    (apart : ∀ item ∈ items, ∀ other, other ≠ bin → item ∉ shelf other)
    (off : ∀ item, item ∉ items → (∀ other, other ≠ bin → item ∉ shelf other) → after.prev item = none) :
    Shelved after (Function.update head bin items.head?) (Function.update shelf bin items) := by
  constructor
  · intro other
    by_cases same : other = bin
    · subst same
      rwa [Function.update_self]
    · rw [Function.update_of_ne same]
      exact ended_frame heap after _ (shelved.ended other) (elsewhere other same)
  · intro other
    by_cases same : other = bin
    · subst same
      rw [Function.update_self, Function.update_self]
    · rw [Function.update_of_ne same, Function.update_of_ne same]
      exact shelved.first other
  · intro one two item left right
    by_cases first : one = bin
    · subst first
      rw [Function.update_self] at left
      by_contra different
      rw [Function.update_of_ne (Ne.symm different)] at right
      exact apart item left two (Ne.symm different) right
    · rw [Function.update_of_ne first] at left
      by_cases second : two = bin
      · subst second
        rw [Function.update_self] at right
        exact absurd left (apart item right one first)
      · rw [Function.update_of_ne second] at right
        exact shelved.apart one two item left right
  · intro item outside
    apply off item
    · simpa using outside bin
    · intro other different
      simpa [Function.update_of_ne different] using outside other

theorem shelved_push (heap : Heap α) (head : β → Option α) (shelf : β → List α) (bin : β) (item : α)
    (shelved : Shelved heap head shelf) (absent : ∀ other, item ∉ shelf other) :
    Shelved (pushFront heap item (head bin)) (Function.update head bin (some item)) (Function.update shelf bin (item :: shelf bin)) := by
  rw [shelved.first bin]
  have bare := shelved.off item absent
  apply shelved_update heap _ head shelf bin (item :: shelf bin) shelved
  · exact ended_push heap (shelf bin) item (shelved.ended bin) (absent bin) bare
  · intro other different member inside
    have outside : member ∉ shelf bin := fun both => different (shelved.apart other bin member inside both)
    have notItem : member ≠ item := fun same => absent other (same ▸ inside)
    exact ⟨(push_elsewhere heap (shelf bin) item member outside).1 notItem, (push_elsewhere heap (shelf bin) item member outside).2⟩
  · intro member inside other different both
    rcases List.mem_cons.mp inside with rfl | inside
    · exact absent other both
    · exact different (shelved.apart other bin member both inside)
  · intro member outside others
    have outside : member ∉ shelf bin := fun here => outside (List.mem_cons_of_mem _ here)
    rw [(push_elsewhere heap (shelf bin) item member outside).2]
    apply shelved.off
    intro other
    by_cases same : other = bin
    · exact same ▸ outside
    · exact others other same

theorem shelved_pop (heap : Heap α) (head : β → Option α) (shelf : β → List α) (bin : β) (item : α) (items : List α)
    (shelved : Shelved heap head shelf) (split : shelf bin = item :: items) :
    Shelved (popFront heap item) (Function.update head bin (heap.next item)) (Function.update shelf bin items) := by
  have ended := shelved.ended bin
  rw [split] at ended
  have inside : ∀ member, member = item ∨ member ∈ items → member ∈ shelf bin := by
    intro member either
    rwa [split, List.mem_cons]
  rw [ended_next heap [] items item ended]
  apply shelved_update heap _ head shelf bin items shelved (ended_pop heap items item ended)
  · intro other different member there
    have outside : ∀ place, place ∈ shelf bin → member ≠ place := by
      rintro place here rfl
      exact different (shelved.apart other bin member there here)
    exact pop_elsewhere heap items item member ended (fun here => outside member (inside member (Or.inr here)) rfl)
      (outside item (inside item (Or.inl rfl)))
  · intro member here other different there
    exact different (shelved.apart other bin member there (inside member (Or.inr here)))
  · intro member outside others
    by_cases same : member = item
    · subst same
      exact pop_bare heap member
    · rw [(pop_elsewhere heap items item member ended outside same).2]
      apply shelved.off
      intro other
      by_cases here : other = bin
      · subst here
        rw [split]
        simp only [List.mem_cons, not_or]
        exact ⟨same, outside⟩
      · exact others other here

theorem shelved_unlink (heap : Heap α) (head : β → Option α) (shelf : β → List α) (bin : β) (item : α) (front back : List α)
    (shelved : Shelved heap head shelf) (split : shelf bin = front ++ item :: back) :
    Shelved ((unlink heap item).setPrev item none) (Function.update head bin (unlinkHead heap item (head bin)))
      (Function.update shelf bin (front ++ back)) := by
  have ended := shelved.ended bin
  have first := shelved.first bin
  rw [split] at ended first
  have inside : ∀ member, member = item ∨ member ∈ front ++ back → member ∈ shelf bin := by
    intro member either
    rw [split]
    simp only [List.mem_append, List.mem_cons] at either ⊢
    tauto
  have gone : item ∉ front ++ back := by
    have moved := List.perm_middle.nodup_iff.mp ended.nodup
    exact (List.nodup_cons.mp moved).1
  rw [first, unlink_head heap front back item ended]
  apply shelved_update heap _ head shelf bin (front ++ back) shelved
  · apply ended_frame (unlink heap item) _ _ (ended_unlink heap front back item ended)
    intro member here
    exact ⟨rfl, set_prev_elsewhere _ _ _ _ fun same => gone (same ▸ here)⟩
  · intro other different member there
    have outside : ∀ place, place ∈ shelf bin → member ≠ place := by
      rintro place here rfl
      exact different (shelved.apart other bin member there here)
    have kept := unlink_elsewhere heap front back item member ended fun here => outside member (inside member (Or.inr here)) rfl
    rw [set_prev_next, set_prev_elsewhere _ _ _ _ (outside item (inside item (Or.inl rfl)))]
    exact kept
  · intro member here other different there
    exact different (shelved.apart other bin member there (inside member (Or.inr here)))
  · intro member outside others
    by_cases same : member = item
    · subst same
      exact set_prev_here _ _ _
    · rw [set_prev_elsewhere _ _ _ _ same, (unlink_elsewhere heap front back item member ended outside).2]
      apply shelved.off
      intro other
      by_cases here : other = bin
      · subst here
        rw [split]
        simp only [List.mem_append, List.mem_cons, not_or] at outside ⊢
        exact ⟨outside.1, same, outside.2⟩
      · exact others other here

omit [DecidableEq α] in
theorem removed_members (heap : Heap α) (head : β → Option α) (shelf : β → List α) (bin : β) (item : α) (front back : List α)
    (shelved : Shelved heap head shelf) (split : shelf bin = front ++ item :: back) :
    (∀ other member, member ≠ item → (member ∈ Function.update shelf bin (front ++ back) other ↔ member ∈ shelf other)) ∧
      ∀ other, item ∉ Function.update shelf bin (front ++ back) other := by
  have nodup := (shelved.ended bin).nodup
  rw [split] at nodup
  have gone := (List.nodup_cons.mp (List.perm_middle.nodup_iff.mp nodup)).1
  have here : item ∈ shelf bin := by simp [split]
  constructor
  · intro other member different
    by_cases same : other = bin
    · subst same
      simp [split, different]
    · rw [Function.update_of_ne same]
  · intro other
    by_cases same : other = bin
    · subst same
      rwa [Function.update_self]
    · rw [Function.update_of_ne same]
      exact fun there => same (shelved.apart other bin item there here)

omit [DecidableEq α] in
theorem pushed_members (shelf : β → List α) (bin : β) (item : α) (absent : ∀ other, item ∉ shelf other) :
    (∀ other member, member ≠ item → (member ∈ Function.update shelf bin (item :: shelf bin) other ↔ member ∈ shelf other)) ∧
      ∀ other, item ∈ Function.update shelf bin (item :: shelf bin) other ↔ other = bin := by
  constructor
  · intro other member different
    by_cases same : other = bin
    · subst same
      simp [different]
    · rw [Function.update_of_ne same]
  · intro other
    by_cases same : other = bin
    · subst same
      simp
    · rw [Function.update_of_ne same]
      simp [same, absent other]

omit [DecidableEq β] in
theorem shelved_setNext (heap : Heap α) (head : β → Option α) (shelf : β → List α) (item : α) (value : Option α)
    (shelved : Shelved heap head shelf) (absent : ∀ bin, item ∉ shelf bin) : Shelved (heap.setNext item value) head shelf := by
  refine ⟨fun bin => ended_frame heap _ _ (shelved.ended bin) ?_, shelved.first, shelved.apart, shelved.off⟩
  intro member here
  exact ⟨set_next_elsewhere heap item member value fun same => absent bin (same ▸ here), rfl⟩

end Links

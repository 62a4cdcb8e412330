import OsZero.Wait.Table

set_option autoImplicit false

namespace OsZero.Wait

open Links Runs Tables

universe u
variable {τ : Type u} [DecidableEq τ]

inductive Op (τ : Type u) where
  | setwait (task : τ) (wtchan : BitVec 32)
  | wakeup (wtchan : BitVec 32)

abbrev Waiting (τ : Type u) := List (τ × BitVec 32)

def waitStep [Fintype τ] (state : WaitState τ) : Op τ → Option (WaitState τ × Multiset τ)
  | .setwait task wtchan => (schedsetwait task wtchan state).map (·, 0)
  | .wakeup wtchan => (schedwakeup wtchan state).map fun result => (result.1, (result.2 : Multiset τ))

def waitSpec (waiting : Waiting τ) : Op τ → Waiting τ × Multiset τ
  | .setwait task wtchan => (waiting ++ [(task, wtchan)], 0)
  | .wakeup wtchan =>
      (waiting.filter (·.2 ≠ wtchan), ((waiting.filter (·.2 = wtchan)).map (·.1) : List τ))

def Legal (waiting : Waiting τ) : Op τ → Prop
  | .setwait task _ => ∀ entry ∈ waiting, entry.1 ≠ task
  | .wakeup _ => True

structure Findable (state : WaitState τ) (task : τ) (wtchan : BitVec 32) : Prop where
  path : ∃ lvl1 lvl2 lvl3 first items, state.mem.load 0 (clwords * taskwaitkey0 wtchan + 2) = some (.tab lvl1 0) ∧
    state.mem.load lvl1 (taskwaitkey1 wtchan) = some (.tab lvl2 0) ∧
    state.mem.load lvl2 (taskwaitkey2 wtchan) = some (.tab lvl3 0) ∧
    state.mem.load lvl3 (clwords * taskwaitkey3 wtchan + 1) = some (.task first) ∧
    Ring state.links (first :: items) ∧ (first :: items).Nodup ∧ task ∈ first :: items

def AllFindable (state : WaitState τ) (waiting : Waiting τ) : Prop :=
  ∀ entry ∈ waiting, Findable state entry.1 entry.2

-- The words of a table that one schedsetwait has created and counted: its
-- reference count, the tab field behind it and the entry of the key.
def lvlword (key : Nat) (ptr : Word τ) (index : Nat) : Word τ :=
  if index = 0 then .num 1 else if index = 1 ∨ index = key then ptr else .num 0

structure Placed (mem : Memory (Word τ)) (links : Heap τ) (task : τ) (wtchan : BitVec 32) (lvl1 lvl2 lvl3 : Nat) : Prop where
  lower : 0 < lvl1 ∧ 0 < lvl2 ∧ 0 < lvl3
  upper : lvl1 < mem.fresh ∧ lvl2 < mem.fresh ∧ lvl3 < mem.fresh
  sizes : mem.size lvl1 = 512 ∧ mem.size lvl2 = 512 ∧ mem.size lvl3 = 2048
  entry : mem.word 0 (clwords * taskwaitkey0 wtchan + 2) = .tab lvl1 0
  first : ∀ index, mem.word lvl1 index = lvlword (taskwaitkey1 wtchan) (.tab lvl2 0) index
  second : ∀ index, mem.word lvl2 index = lvlword (taskwaitkey2 wtchan) (.tab lvl3 0) index
  list : mem.word lvl3 (clwords * taskwaitkey3 wtchan + 1) = .task task
  ring : links.next task = some task ∧ links.prev task = some task
  keys : taskwaitkey1 wtchan ≠ 0 ∧ taskwaitkey2 wtchan ≠ 0

structure Inv (state : WaitState τ) (waiting : Waiting τ) : Prop where
  size : state.mem.size 0 = 2048
  fresh : 0 < state.mem.fresh
  rest : ∀ index, index % 8 ≠ 2 → state.mem.word 0 index = .num 0
  empty : ∀ key0 < 256, (∀ entry ∈ waiting, taskwaitkey0 entry.2 ≠ key0) → state.mem.word 0 (clwords * key0 + 2) = .num 0
  placed : ∀ entry ∈ waiting, ∃ lvl1 lvl2 lvl3, Placed state.mem state.links entry.1 entry.2 lvl1 lvl2 lvl3

theorem key0_lt (wtchan : BitVec 32) : taskwaitkey0 wtchan < 256 := Nat.mod_lt _ (by decide)
theorem key1_lt (wtchan : BitVec 32) : taskwaitkey1 wtchan < 256 := Nat.mod_lt _ (by decide)
theorem key2_lt (wtchan : BitVec 32) : taskwaitkey2 wtchan < 256 := Nat.mod_lt _ (by decide)
theorem key3_lt (wtchan : BitVec 32) : taskwaitkey3 wtchan < 256 := Nat.mod_lt _ (by decide)

omit [DecidableEq τ] in
theorem placed_findable (state : WaitState τ) (task : τ) (wtchan : BitVec 32) (lvl1 lvl2 lvl3 : Nat)
    (size : state.mem.size 0 = 2048) (placed : Placed state.mem state.links task wtchan lvl1 lvl2 lvl3) :
    Findable state task wtchan := by
  have k0 := key0_lt wtchan
  have k1 := key1_lt wtchan
  have k2 := key2_lt wtchan
  have k3 := key3_lt wtchan
  obtain ⟨size1, size2, size3⟩ := placed.sizes
  refine ⟨lvl1, lvl2, lvl3, task, [], ?_, ?_, ?_, ?_, ?_, by simp, by simp⟩
  · rw [load_inside _ _ _ (by rw [size, clwords]; omega), placed.entry]
  · rw [load_inside _ _ _ (by rw [size1]; omega), placed.first]
    simp [lvlword, placed.keys.1]
  · rw [load_inside _ _ _ (by rw [size2]; omega), placed.second]
    simp [lvlword, placed.keys.2]
  · rw [load_inside _ _ _ (by rw [size3, clwords]; omega), placed.list]
  · exact List.isChain_cons_cons.mpr ⟨placed.ring, .singleton _⟩

omit [DecidableEq τ] in
theorem inv_findable (state : WaitState τ) (waiting : Waiting τ) (inv : Inv state waiting) : AllFindable state waiting := by
  intro entry member
  obtain ⟨lvl1, lvl2, lvl3, placed⟩ := inv.placed entry member
  exact placed_findable state entry.1 entry.2 lvl1 lvl2 lvl3 inv.size placed

-- The states that schedsetwait goes through when it creates all three levels,
-- each as the memory before it with one word written.
theorem lockl0_free (key0 : Nat) (state : WaitState τ) (inside : clwords * key0 < state.mem.size 0)
    (unlocked : state.mem.word 0 (clwords * key0) = .num 0) :
    lockl0 key0 state = some { state with mem := state.mem.put 0 (clwords * key0) (.num 1) } := by
  simp [lockl0, l0entry, WaitState.load, WaitState.store, load_inside _ _ _ inside, store_inside _ _ _ _ inside,
    unlocked, Word.null]

omit [DecidableEq τ] in
theorem store_tab (state : WaitState τ) (table index : Nat) (value : Word τ) (inside : index < state.mem.size table) :
    state.store (.tab table 0) index value = some { state with mem := state.mem.put table index value } := by
  simp [WaitState.store, store_inside _ _ _ _ inside]

omit [DecidableEq τ] in
theorem load_tab (state : WaitState τ) (table index : Nat) (inside : index < state.mem.size table) :
    state.load (.tab table 0) index = some (state.mem.word table index) := by
  simp [WaitState.load, load_inside _ _ _ inside]

theorem getlvl1_new (key0 : Nat) (state : WaitState τ) (inside : clwords * key0 + 2 < state.mem.size 0)
    (fresh : 0 < state.mem.fresh) (absent : state.mem.word 0 (clwords * key0 + 2) = .num 0) :
    getlvl1 key0 state = some ({ state with mem := (state.mem.alloc 512 (.num 0)).put 0 (clwords * key0 + 2) (.tab state.mem.fresh 0) },
      .tab state.mem.fresh 0, .tab state.mem.fresh 0) := by
  have kept : clwords * key0 + 2 < (state.mem.alloc 512 (.num 0)).size 0 := alloc_inside _ _ _ _ _ fresh inside
  simp [getlvl1, l0entry, WaitState.load, WaitState.store, WaitState.kmalloc, load_inside _ _ _ inside, absent, Word.null,
    tasknlvlwait, tabwords, store_inside _ _ _ _ kept]

theorem getlvl2_new (lvl1 key1 : Nat) (state : WaitState τ) (inside : key1 < state.mem.size lvl1)
    (fresh : lvl1 < state.mem.fresh) (absent : state.mem.word lvl1 key1 = .num 0) :
    getlvl2 (.tab lvl1 0) key1 state = some ({ state with mem := (state.mem.alloc 512 (.num 0)).put lvl1 key1 (.tab state.mem.fresh 0) },
      .tab state.mem.fresh 0) := by
  have kept : key1 < (state.mem.alloc 512 (.num 0)).size lvl1 := alloc_inside _ _ _ _ _ fresh inside
  simp [getlvl2, WaitState.load, WaitState.store, WaitState.kmalloc, load_inside _ _ _ inside, absent, Word.null,
    tasknlvlwait, tabwords, store_inside _ _ _ _ kept]

theorem getlvl3_new (lvl2 key2 : Nat) (state : WaitState τ) (inside : key2 < state.mem.size lvl2)
    (fresh : lvl2 < state.mem.fresh) (absent : state.mem.word lvl2 key2 = .num 0) :
    getlvl3 (.tab lvl2 0) key2 state = some ({ state with mem := (state.mem.alloc 2048 (.num 0)).put lvl2 key2 (.tab state.mem.fresh 0) },
      .tab state.mem.fresh 0, .tab state.mem.fresh 0) := by
  have kept : key2 < (state.mem.alloc 2048 (.num 0)).size lvl2 := alloc_inside _ _ _ _ _ fresh inside
  simp [getlvl3, WaitState.load, WaitState.store, WaitState.kmalloc, load_inside _ _ _ inside, absent, Word.null,
    tasknlvlwait, clwords, store_inside _ _ _ _ kept]

theorem appendtask_first (lvl3 key3 : Nat) (task : τ) (state : WaitState τ) (inside : clwords * key3 + 1 < state.mem.size lvl3)
    (absent : state.mem.word lvl3 (clwords * key3 + 1) = .num 0) :
    appendtask (.tab lvl3 0) key3 task state =
      some { state with mem := state.mem.put lvl3 (clwords * key3 + 1) (.task task), links := Deq.deqinit state.links task } := by
  simp [appendtask, load_tab state lvl3 _ inside, absent, wordtask, Deq.deqappend, Deq.linkbefore, WaitState.store,
    store_inside _ _ _ _ inside]

omit [DecidableEq τ] in
theorem addref_num (table : Nat) (count value : Int) (state : WaitState τ) (inside : 0 < state.mem.size table)
    (counted : state.mem.word table 0 = .num count) :
    addref (.tab table 0) value state = some { state with mem := state.mem.put table 0 (.num (count + value)) } := by
  simp [addref, load_tab state table 0 inside, counted, Word.add, store_tab state table 0 _ inside]

omit [DecidableEq τ] in
theorem unlockl0_inside (key0 : Nat) (state : WaitState τ) (inside : clwords * key0 < state.mem.size 0) :
    unlockl0 key0 state = some { state with mem := state.mem.put 0 (clwords * key0) (.num 0) } := by
  simp [unlockl0, l0entry, WaitState.store, store_inside _ _ _ _ inside, Word.null]

def setwaitMem (mem : Memory (Word τ)) (key0 key1 key2 key3 : Nat) (task : τ) : Memory (Word τ) :=
  let locked := mem.put 0 (clwords * key0) (.num 1)
  let made1 := (locked.alloc 512 (.num 0)).put 0 (clwords * key0 + 2) (.tab mem.fresh 0)
  let made2 := (made1.alloc 512 (.num 0)).put mem.fresh key1 (.tab (mem.fresh + 1) 0)
  let made3 := (made2.alloc 2048 (.num 0)).put (mem.fresh + 1) key2 (.tab (mem.fresh + 2) 0)
  let queued := made3.put (mem.fresh + 2) (clwords * key3 + 1) (.task task)
  let counted1 := (queued.put mem.fresh 0 (.num 1)).put mem.fresh 1 (.tab (mem.fresh + 1) 0)
  let counted2 := (counted1.put (mem.fresh + 1) 0 (.num 1)).put (mem.fresh + 1) 1 (.tab (mem.fresh + 2) 0)
  let counted3 := counted2.put (mem.fresh + 2) 0 (.num 1)
  counted3.put 0 (clwords * key0) (.num 0)

theorem schedsetwait_new (task : τ) (wtchan : BitVec 32) (state : WaitState τ) (size : state.mem.size 0 = 2048)
    (fresh : 0 < state.mem.fresh) (unlocked : state.mem.word 0 (clwords * taskwaitkey0 wtchan) = .num 0)
    (absent : state.mem.word 0 (clwords * taskwaitkey0 wtchan + 2) = .num 0)
    (key1 : taskwaitkey1 wtchan ≠ 0) (key2 : taskwaitkey2 wtchan ≠ 0) :
    schedsetwait task wtchan state = some { state with
      mem := setwaitMem state.mem (taskwaitkey0 wtchan) (taskwaitkey1 wtchan) (taskwaitkey2 wtchan) (taskwaitkey3 wtchan) task
      links := Deq.deqinit state.links task } := by
  have k0 := key0_lt wtchan
  have k1 := key1_lt wtchan
  have k2 := key2_lt wtchan
  have k3 := key3_lt wtchan
  have notZero : state.mem.fresh ≠ 0 := Nat.ne_of_gt fresh
  have apart : state.mem.fresh ≠ state.mem.fresh + 1 + 1 := by omega
  have inside0 : clwords * taskwaitkey0 wtchan < state.mem.size 0 := by rw [size, clwords]; omega
  unfold schedsetwait
  simp only [Option.bind_eq_bind]
  rw [lockl0_free _ _ inside0 unlocked, Option.bind_some]
  rw [getlvl1_new _ _ (by simp only [put_size, size, clwords]; omega) (by simpa using fresh)
    (by rw [put_other_index _ _ _ _ _ _ (by omega)]; exact absent), Option.bind_some]
  simp only [put_fresh]
  rw [getlvl2_new _ _ _ (by simp [Memory.alloc, Memory.put]; omega) (by simp [Memory.alloc, Memory.put])
    (by simp [Memory.alloc, Memory.put, notZero]), Option.bind_some]
  simp only [put_fresh, alloc_fresh]
  rw [getlvl3_new _ _ _ (by simp [Memory.alloc, Memory.put]; omega) (by simp [Memory.alloc, Memory.put])
    (by simp [Memory.alloc, Memory.put]), Option.bind_some]
  simp only [put_fresh, alloc_fresh]
  rw [appendtask_first _ _ _ _ (by simp [Memory.alloc, Memory.put, clwords]; omega)
    (by simp [Memory.alloc, Memory.put]), Option.bind_some]
  rw [addref_num _ 0 _ _ (by simp [Memory.alloc, Memory.put, apart]) (by simp [Memory.alloc, Memory.put, notZero, key1.symm, apart]),
    Option.bind_some, settab, store_tab _ _ _ _ (by simp [Memory.alloc, Memory.put, apart]), Option.bind_some]
  rw [addref_num _ 0 _ _ (by simp [Memory.alloc, Memory.put]) (by simp [Memory.alloc, Memory.put, key2.symm]),
    Option.bind_some, settab, store_tab _ _ _ _ (by simp [Memory.alloc, Memory.put]), Option.bind_some]
  rw [addref_num _ 0 _ _ (by simp [Memory.alloc, Memory.put]) (by simp [Memory.alloc, Memory.put, apart.symm]), Option.bind_some]
  rw [unlockl0_inside _ _ (by simp [Memory.alloc, Memory.put, notZero.symm, size, clwords]; omega)]
  rfl

section Written

variable (mem : Memory (Word τ)) (key0 key1 key2 key3 : Nat) (task : τ)

omit [DecidableEq τ] in
theorem setwait_fresh : (setwaitMem mem key0 key1 key2 key3 task).fresh = mem.fresh + 3 := rfl

omit [DecidableEq τ] in
theorem setwait_size (table : Nat) :
    (setwaitMem mem key0 key1 key2 key3 task).size table =
      if table = mem.fresh + 2 then 2048 else if table = mem.fresh + 1 ∨ table = mem.fresh then 512 else mem.size table := by
  simp only [setwaitMem, Memory.alloc, Memory.put]
  grind

omit [DecidableEq τ] in
theorem setwait_word_zero (index : Nat) (fresh : 0 < mem.fresh) :
    (setwaitMem mem key0 key1 key2 key3 task).word 0 index =
      if index = clwords * key0 then .num 0
      else if index = clwords * key0 + 2 then .tab mem.fresh 0 else mem.word 0 index := by
  have notZero : 0 ≠ mem.fresh := Nat.ne_of_lt fresh
  simp [setwaitMem, Memory.alloc, Memory.put, notZero]
  split_ifs <;> rfl

omit [DecidableEq τ] in
theorem setwait_word_old (table index : Nat) (lower : 0 < table) (upper : table < mem.fresh) :
    (setwaitMem mem key0 key1 key2 key3 task).word table index = mem.word table index := by
  have one : table ≠ 0 := by omega
  have two : table ≠ mem.fresh := by omega
  have three : table ≠ mem.fresh + 1 := by omega
  have four : table ≠ mem.fresh + 1 + 1 := by omega
  simp [setwaitMem, Memory.alloc, Memory.put, one, two, three, four]

omit [DecidableEq τ] in
theorem setwait_word_first (index : Nat) (fresh : 0 < mem.fresh) :
    (setwaitMem mem key0 key1 key2 key3 task).word mem.fresh index = lvlword key1 (.tab (mem.fresh + 1) 0) index := by
  have notZero : mem.fresh ≠ 0 := Nat.ne_of_gt fresh
  have apart : mem.fresh ≠ mem.fresh + 1 + 1 := by omega
  simp [setwaitMem, Memory.alloc, Memory.put, notZero, apart, lvlword]
  split_ifs <;> first | rfl | omega

omit [DecidableEq τ] in
theorem setwait_word_second (index : Nat) :
    (setwaitMem mem key0 key1 key2 key3 task).word (mem.fresh + 1) index = lvlword key2 (.tab (mem.fresh + 2) 0) index := by
  simp [setwaitMem, Memory.alloc, Memory.put, lvlword]
  split_ifs <;> first | rfl | omega

omit [DecidableEq τ] in
theorem setwait_word_list :
    (setwaitMem mem key0 key1 key2 key3 task).word (mem.fresh + 2) (clwords * key3 + 1) = .task task := by
  simp [setwaitMem, Memory.put]

end Written

theorem deqinit_other (links : Heap τ) (task other : τ) (different : other ≠ task) :
    (Deq.deqinit links task).next other = links.next other ∧ (Deq.deqinit links task).prev other = links.prev other := by
  simp [Deq.deqinit, set_next_elsewhere, set_prev_elsewhere, different]

theorem placed_kept (state : WaitState τ) (task other : τ) (wtchan : BitVec 32) (key0 key1 key2 key3 lvl1 lvl2 lvl3 : Nat)
    (placed : Placed state.mem state.links other wtchan lvl1 lvl2 lvl3) (different : other ≠ task)
    (apart : taskwaitkey0 wtchan ≠ key0) :
    Placed (setwaitMem state.mem key0 key1 key2 key3 task) (Deq.deqinit state.links task) other wtchan lvl1 lvl2 lvl3 := by
  obtain ⟨low1, low2, low3⟩ := placed.lower
  obtain ⟨up1, up2, up3⟩ := placed.upper
  obtain ⟨size1, size2, size3⟩ := placed.sizes
  have fresh : 0 < state.mem.fresh := by omega
  refine ⟨placed.lower, ?_, ?_, ?_, ?_, ?_, ?_, ?_, placed.keys⟩
  · rw [setwait_fresh]
    omega
  · simp only [setwait_size]
    refine ⟨?_, ?_, ?_⟩ <;> rw [if_neg (by omega), if_neg (by omega)] <;> assumption
  · rw [setwait_word_zero _ _ _ _ _ _ _ fresh, if_neg (by unfold clwords; omega), if_neg (by unfold clwords; omega)]
    exact placed.entry
  · intro index
    rw [setwait_word_old _ _ _ _ _ _ _ _ low1 up1]
    exact placed.first index
  · intro index
    rw [setwait_word_old _ _ _ _ _ _ _ _ low2 up2]
    exact placed.second index
  · rw [setwait_word_old _ _ _ _ _ _ _ _ low3 up3]
    exact placed.list
  · rw [(deqinit_other state.links task other different).1, (deqinit_other state.links task other different).2]
    exact placed.ring

theorem placed_new (state : WaitState τ) (task : τ) (wtchan : BitVec 32) (fresh : 0 < state.mem.fresh)
    (key1 : taskwaitkey1 wtchan ≠ 0) (key2 : taskwaitkey2 wtchan ≠ 0) :
    Placed (setwaitMem state.mem (taskwaitkey0 wtchan) (taskwaitkey1 wtchan) (taskwaitkey2 wtchan) (taskwaitkey3 wtchan) task)
      (Deq.deqinit state.links task) task wtchan state.mem.fresh (state.mem.fresh + 1) (state.mem.fresh + 2) := by
  refine ⟨by omega, ?_, ?_, ?_, ?_, ?_, ?_, ?_, key1, key2⟩
  · rw [setwait_fresh]
    omega
  · simp [setwait_size]
  · rw [setwait_word_zero _ _ _ _ _ _ _ fresh, if_neg (by omega), if_pos rfl]
  · exact fun index => setwait_word_first _ _ _ _ _ _ index fresh
  · exact fun index => setwait_word_second _ _ _ _ _ _ index
  · exact setwait_word_list _ _ _ _ _ _
  · simp [Deq.deqinit]

theorem setwait_inv (state : WaitState τ) (waiting : Waiting τ) (task : τ) (wtchan : BitVec 32) (inv : Inv state waiting)
    (absent : ∀ entry ∈ waiting, entry.1 ≠ task) (apart : ∀ entry ∈ waiting, taskwaitkey0 entry.2 ≠ taskwaitkey0 wtchan)
    (key1 : taskwaitkey1 wtchan ≠ 0) (key2 : taskwaitkey2 wtchan ≠ 0) :
    ∃ next, schedsetwait task wtchan state = some next ∧ Inv next (waiting ++ [(task, wtchan)]) := by
  have none := inv.empty _ (key0_lt wtchan) apart
  have unlocked := inv.rest (clwords * taskwaitkey0 wtchan) (by unfold clwords; omega)
  refine ⟨_, schedsetwait_new task wtchan state inv.size inv.fresh unlocked none key1 key2, ?_, ?_, ?_, ?_, ?_⟩
  · have fresh := inv.fresh
    simp only [setwait_size]
    rw [if_neg (by omega), if_neg (by omega)]
    exact inv.size
  · simp [setwait_fresh]
  · intro index outside
    rw [setwait_word_zero _ _ _ _ _ _ _ inv.fresh]
    split
    · rfl
    · rw [if_neg (by unfold clwords; omega)]
      exact inv.rest index outside
  · intro key0 small clear
    have other : taskwaitkey0 wtchan ≠ key0 := clear (task, wtchan) (by simp)
    rw [setwait_word_zero _ _ _ _ _ _ _ inv.fresh, if_neg (by unfold clwords; omega), if_neg (by unfold clwords; omega)]
    exact inv.empty key0 small fun entry member => clear entry (by simp [member])
  · intro entry member
    rcases List.mem_append.mp member with old | new
    · obtain ⟨lvl1, lvl2, lvl3, placed⟩ := inv.placed entry old
      exact ⟨lvl1, lvl2, lvl3, placed_kept state task entry.1 entry.2 _ _ _ _ _ _ _ placed (absent entry old) (apart entry old)⟩
    · simp only [List.mem_singleton] at new
      subst new
      exact ⟨_, _, _, placed_new state task wtchan inv.fresh key1 key2⟩

omit [DecidableEq τ] in
theorem l0_word_null (state : WaitState τ) (waiting : Waiting τ) (inv : Inv state waiting) (index : Nat) (inside : index < 2048)
    (outside : ∀ entry ∈ waiting, index ≠ clwords * taskwaitkey0 entry.2 + 2) : state.mem.word 0 index = .num 0 := by
  by_cases slot : index % 8 = 2
  · have shape : index = clwords * (index / 8) + 2 := by
      unfold clwords
      omega
    rw [shape]
    refine inv.empty (index / 8) (by omega) fun entry member same => ?_
    exact outside entry member (by rw [same]; exact shape)
  · exact inv.rest index slot

-- A wakeup takes the lock, meets NULL within its three reads and leaves the
-- tables as they were.
theorem wakeup_quiet [Fintype τ] (state : WaitState τ) (waiting : Waiting τ) (wtchan : BitVec 32) (inv : Inv state waiting)
    (key1 : taskwaitkey1 wtchan ≠ 0) (inside : clwords * taskwaitkey0 wtchan + taskwaitkey1 wtchan < 2048)
    (ends : ∀ entry ∈ waiting, clwords * taskwaitkey0 wtchan + taskwaitkey1 wtchan = clwords * taskwaitkey0 entry.2 + 2 →
      taskwaitkey2 wtchan ≠ 0 ∧ ((taskwaitkey2 wtchan = 1 ∨ taskwaitkey2 wtchan = taskwaitkey1 entry.2) →
        taskwaitkey3 wtchan ≠ 0 ∧ taskwaitkey3 wtchan ≠ 1 ∧ taskwaitkey3 wtchan ≠ taskwaitkey2 entry.2)) :
    schedwakeup wtchan state = some (state, []) := by
  have k2 := key2_lt wtchan
  have k3 := key3_lt wtchan
  have inside0 : clwords * taskwaitkey0 wtchan < state.mem.size 0 := by rw [inv.size]; omega
  have unlocked := inv.rest (clwords * taskwaitkey0 wtchan) (by unfold clwords; omega)
  have restored : unlockl0 (taskwaitkey0 wtchan) { state with mem := state.mem.put 0 (clwords * taskwaitkey0 wtchan) (.num 1) } =
      some state := by
    rw [unlockl0_inside _ _ (by simpa using inside0), put_put, put_same _ _ _ _ unlocked]
  have first : WaitState.load { state with mem := state.mem.put 0 (clwords * taskwaitkey0 wtchan) (.num 1) }
      (l0entry (taskwaitkey0 wtchan)) (taskwaitkey1 wtchan) =
        some (state.mem.word 0 (clwords * taskwaitkey0 wtchan + taskwaitkey1 wtchan)) := by
    rw [l0entry, WaitState.load, load_inside _ _ _ (by simpa [inv.size] using inside), put_other_index _ _ _ _ _ _ (by omega)]
  unfold schedwakeup
  simp only [Option.bind_eq_bind, lockl0_free _ _ inside0 unlocked, Option.bind_some, first]
  by_cases met : ∃ entry ∈ waiting, clwords * taskwaitkey0 wtchan + taskwaitkey1 wtchan = clwords * taskwaitkey0 entry.2 + 2
  · obtain ⟨entry, member, same⟩ := met
    obtain ⟨lvl1, lvl2, lvl3, placed⟩ := inv.placed entry member
    obtain ⟨count, deeper⟩ := ends entry member same
    obtain ⟨low1, low2, low3⟩ := placed.lower
    obtain ⟨size1, size2, size3⟩ := placed.sizes
    rw [same, placed.entry]
    have second : WaitState.load { state with mem := state.mem.put 0 (clwords * taskwaitkey0 wtchan) (.num 1) } (.tab lvl1 0)
        (taskwaitkey2 wtchan) = some (lvlword (taskwaitkey1 entry.2) (.tab lvl2 0) (taskwaitkey2 wtchan)) := by
      rw [load_tab _ _ _ (by simp only [put_size, size1]; omega), put_other_table _ _ _ _ _ _ (by omega), placed.first]
    simp only [Word.null, reduceCtorEq, if_false, second, Option.bind_some]
    by_cases reached : taskwaitkey2 wtchan = 1 ∨ taskwaitkey2 wtchan = taskwaitkey1 entry.2
    · obtain ⟨three, four, five⟩ := deeper reached
      have third : WaitState.load { state with mem := state.mem.put 0 (clwords * taskwaitkey0 wtchan) (.num 1) } (.tab lvl2 0)
          (taskwaitkey3 wtchan) = some (.num 0) := by
        rw [load_tab _ _ _ (by simp only [put_size, size2]; omega), put_other_table _ _ _ _ _ _ (by omega), placed.second]
        simp [lvlword, three, four, five]
      simp [lvlword, count, reached, third, restored]
    · simp [lvlword, count, reached, restored]
  · have null := l0_word_null state waiting inv _ inside fun entry member same => met ⟨entry, member, same⟩
    simp [null, Word.null, restored]

def Sound (waiting : Waiting τ) : Op τ → Prop
  | .setwait _ wtchan =>
      (∀ entry ∈ waiting, taskwaitkey0 entry.2 ≠ taskwaitkey0 wtchan) ∧ taskwaitkey1 wtchan ≠ 0 ∧ taskwaitkey2 wtchan ≠ 0
  | .wakeup wtchan =>
      (∀ entry ∈ waiting, entry.2 ≠ wtchan) ∧ taskwaitkey1 wtchan ≠ 0 ∧
      clwords * taskwaitkey0 wtchan + taskwaitkey1 wtchan < 2048 ∧
      ∀ entry ∈ waiting, clwords * taskwaitkey0 wtchan + taskwaitkey1 wtchan = clwords * taskwaitkey0 entry.2 + 2 →
        taskwaitkey2 wtchan ≠ 0 ∧ ((taskwaitkey2 wtchan = 1 ∨ taskwaitkey2 wtchan = taskwaitkey1 entry.2) →
          taskwaitkey3 wtchan ≠ 0 ∧ taskwaitkey3 wtchan ≠ 1 ∧ taskwaitkey3 wtchan ≠ taskwaitkey2 entry.2)

theorem wait_step_inv [Fintype τ] (state : WaitState τ) (waiting : Waiting τ) (op : Op τ) (inv : Inv state waiting)
    (cond : Legal waiting op ∧ Sound waiting op) :
    ∃ next, waitStep state op = some (next, (waitSpec waiting op).2) ∧ Inv next (waitSpec waiting op).1 := by
  cases op with
  | setwait task wtchan =>
      obtain ⟨next, taken, nextInv⟩ := setwait_inv state waiting task wtchan inv cond.1 cond.2.1 cond.2.2.1 cond.2.2.2
      exact ⟨next, by simp [waitStep, waitSpec, taken], nextInv⟩
  | wakeup wtchan =>
      obtain ⟨nobody, key1, inside, ends⟩ := cond.2
      have quiet := wakeup_quiet state waiting wtchan inv key1 inside ends
      have kept : waiting.filter (·.2 ≠ wtchan) = waiting := by
        rw [List.filter_eq_self]
        exact fun entry member => by simpa using nobody entry member
      have none : waiting.filter (·.2 = wtchan) = [] := by
        rw [List.filter_eq_nil_iff]
        exact fun entry member => by simpa using nobody entry member
      refine ⟨state, ?_, ?_⟩
      · simp only [waitStep, quiet, waitSpec, none]
        rfl
      · simp only [waitSpec, kept]
        exact inv

def bootState (links : Heap τ) (tasklk : τ → Bool) : WaitState τ :=
  ⟨⟨fun _ _ => .null, fun table => if table = 0 then 2048 else 0, 1⟩, links, tasklk⟩

omit [DecidableEq τ] in
theorem boot_inv (links : Heap τ) (tasklk : τ → Bool) : Inv (bootState links tasklk) [] :=
  ⟨rfl, by simp [bootState], fun _ _ => rfl, fun _ _ _ => rfl, by simp⟩

theorem wait_refines [Fintype τ] (links : Heap τ) (tasklk : τ → Bool) (ops : List (Op τ))
    (legal : Along waitSpec Legal [] ops) (sound : Along waitSpec Sound [] ops) :
    Refines waitStep waitSpec AllFindable (bootState links tasklk) [] ops :=
  refines_of_invariant waitStep waitSpec Inv AllFindable _ inv_findable wait_step_inv _ [] ops (boot_inv links tasklk)
    (along_and waitSpec Legal Sound [] ops legal sound)

def noLinks : Heap (Fin 2) := ⟨fun _ => none, fun _ => none⟩

theorem wait_refines_two_sleepers :
    Along waitSpec Legal [] [.setwait (0 : Fin 2) 0x01010101, .setwait 1 0x02030405, .wakeup 0x05060708] ∧
      Refines waitStep waitSpec AllFindable (bootState noLinks fun _ => false) []
        [.setwait 0 0x01010101, .setwait 1 0x02030405, .wakeup 0x05060708] := by
  have legal : Along waitSpec Legal [] [.setwait (0 : Fin 2) 0x01010101, .setwait 1 0x02030405, .wakeup 0x05060708] := by
    simp [Along, waitSpec, Legal]
  refine ⟨legal, wait_refines noLinks (fun _ => false) _ legal ?_⟩
  simp [Along, waitSpec, Sound, taskwaitkey0, taskwaitkey1, taskwaitkey2, taskwaitkey3, tasknlvlwait, clwords]

-- The first read of the wakeup takes the entry's reference count for the
-- table pointer, so the one waiting task is not woken.
theorem sleeper_not_woken :
    Along waitSpec Legal [] [.setwait (0 : Fin 2) 0x01010101, .wakeup 0x01010101] ∧
      ¬ Refines waitStep waitSpec AllFindable (bootState noLinks fun _ => false) [] [.setwait 0 0x01010101, .wakeup 0x01010101] := by
  refine ⟨by simp [Along, Legal], ?_⟩
  rintro ⟨-, one, first, -, two, second, -⟩
  cases first
  have counts : (some 0 : Option Nat) = some 1 :=
    congrArg (Option.map fun result : WaitState (Fin 2) × Multiset (Fin 2) => result.2.card) second
  cases counts

end OsZero.Wait

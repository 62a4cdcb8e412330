import OsZero.Wait.Sleep

set_option autoImplicit false

namespace OsZero.Deadline

open Links Runs Tables Wait

universe u
variable {τ : Type u} [DecidableEq τ]

def schednlvl0dl : Nat := 65536
def schednlvl1dl : Nat := 256
def schednlvl2dl : Nat := 256

-- 32-bit time_t values
def taskdlkey0 (dl : BitVec 32) : Nat := (dl.toNat >>> 16) % 65536
def taskdlkey1 (dl : BitVec 32) : Nat := (dl.toNat >>> 8) % 256
def taskdlkey2 (dl : BitVec 32) : Nat := dl.toNat % 256

-- kmalloc may fail. A failure stores NULL where the table would be named.
def kmallocmaybe (words : Nat) (ok : Bool) (state : WaitState τ) : WaitState τ × Word τ :=
  if ok then state.kmalloc words else (state, .null)

-- The two lookups. ptab[0] and ptab[1] are set for a table that is new, and stay
-- NULL for one that is not.
def getdl1 (key0 : Nat) (ok : Bool) (state : WaitState τ) : Option (WaitState τ × Word τ × Word τ) := do
  let ptr ← state.load (l0entry key0) 2
  if ptr = .null then
    let made := kmallocmaybe (schednlvl1dl * tabwords) ok state
    let state ← made.1.store (l0entry key0) 2 made.2
    some (state, made.2, made.2)
  else some (state, ptr, .null)

def getdl2 (pptr : Word τ) (key1 : Nat) (ok : Bool) (state : WaitState τ) : Option (WaitState τ × Word τ × Word τ) := do
  let ptr ← state.load pptr key1
  if ptr = .null then
    let made := kmallocmaybe (schednlvl2dl * clwords) ok state
    let state ← made.1.store pptr key1 made.2
    some (state, made.2, made.2)
  else some (state, ptr, .null)

-- Table 0 is scheddeadlinetab. fail is set where the first table is missing alone.
def schedsetdeadline (task : τ) (deadline : BitVec 32) (ok1 ok2 : Bool) (state : WaitState τ) : Option (WaitState τ) := do
  let state ← lockl0 (taskdlkey0 deadline) state
  let lvl1 ← getdl1 (taskdlkey0 deadline) ok1 state
  if lvl1.2.1 = .null then unlockl0 (taskdlkey0 deadline) lvl1.1
  else
    let lvl2 ← getdl2 lvl1.2.1 (taskdlkey1 deadline) ok2 lvl1.1
    let state ← appendtask lvl2.2.1 (taskdlkey2 deadline) task lvl2.1
    let state ← addref lvl1.2.2 1 state
    let state ← settab lvl1.2.2 lvl2.2.2 state
    let state ← addref lvl2.2.2 1 state
    unlockl0 (taskdlkey0 deadline) state

structure Op (τ : Type u) where
  task : τ
  deadline : BitVec 32
  ok1 : Bool
  ok2 : Bool

-- What the tables are for: the tasks with their time limits, and the tables that
-- have been made for the keys of the first and of the first two levels.
structure Deadlines (τ : Type u) where
  queued : List (τ × BitVec 32)
  lvl1 : Nat → Bool
  lvl2 : Nat → Nat → Bool

def deadlineStep (state : WaitState τ) (op : Op τ) : Option (WaitState τ × Unit) :=
  (schedsetdeadline op.task op.deadline op.ok1 op.ok2 state).map (·, ())

def deadlineSpec (model : Deadlines τ) (op : Op τ) : Deadlines τ × Unit :=
  let key0 := taskdlkey0 op.deadline
  let key1 := taskdlkey1 op.deadline
  if ¬ model.lvl1 key0 ∧ ¬ op.ok1 then (model, ())
  else
    let model := { model with lvl1 := fun other => if other = key0 then true else model.lvl1 other }
    if ¬ model.lvl2 key0 key1 ∧ ¬ op.ok2 then (model, ())
    else
      let lvl2 other place := if other = key0 ∧ place = key1 then true else model.lvl2 other place
      ({ model with lvl2 := lvl2, queued := model.queued ++ [(op.task, op.deadline)] }, ())

def Legal (model : Deadlines τ) (op : Op τ) : Prop := ∀ entry ∈ model.queued, entry.1 ≠ op.task

def Deadlines.through1 (model : Deadlines τ) (key0 : Nat) : List (τ × BitVec 32) :=
  model.queued.filter fun entry => taskdlkey0 entry.2 = key0

def Deadlines.through2 (model : Deadlines τ) (key0 key1 : Nat) : List (τ × BitVec 32) :=
  (model.through1 key0).filter fun entry => taskdlkey1 entry.2 = key1

def Deadlines.queue (model : Deadlines τ) (key0 key1 key2 : Nat) : List τ :=
  ((model.through2 key0 key1).filter fun entry => taskdlkey2 entry.2 = key2).map (·.1)

-- Each table that was made counts the tasks that are queued through it, and no two
-- of the second level are the same; each queue in one of these holds the tasks of
-- its three keys and no others.
structure Represents (state : WaitState τ) (model : Deadlines τ) : Prop where
  unlocked : ∀ key0, key0 < schednlvl0dl → state.mem.load 0 (clwords * key0) = some .null
  tables : ∃ (tab1 : Nat → Nat) (tab2 : Nat → Nat → Nat),
    (∀ key0, key0 < schednlvl0dl → state.mem.load 0 (clwords * key0 + 2) =
      some (if model.lvl1 key0 then .tab (tab1 key0) 0 else .null)) ∧
    (∀ key0, key0 < schednlvl0dl → model.lvl1 key0 = true →
      state.mem.load (tab1 key0) 0 = some (.num (model.through1 key0).length)) ∧
    (∀ key0 key1, key0 < schednlvl0dl → key1 < schednlvl1dl → model.lvl2 key0 key1 = true →
      state.mem.load (tab1 key0) key1 = some (.tab (tab2 key0 key1) 0) ∧
      state.mem.load (tab2 key0 key1) 0 = some (.num (model.through2 key0 key1).length) ∧
      ∀ key2, key2 < schednlvl2dl → ∃ word first, state.mem.load (tab2 key0 key1) (clwords * key2 + 1) = some word ∧
        wordtask word = some first ∧ Deq.Represents ⟨state.links, first⟩ (model.queue key0 key1 key2)) ∧
    (∀ key0 key1 other0 other1, model.lvl2 key0 key1 = true → model.lvl2 other0 other1 = true →
      tab2 key0 key1 = tab2 other0 other1 → key0 = other0 ∧ key1 = other1)

theorem dlkey0_lt (dl : BitVec 32) : taskdlkey0 dl < 65536 := Nat.mod_lt _ (by decide)
theorem dlkey1_lt (dl : BitVec 32) : taskdlkey1 dl < 256 := Nat.mod_lt _ (by decide)
theorem dlkey2_lt (dl : BitVec 32) : taskdlkey2 dl < 256 := Nat.mod_lt _ (by decide)

-- The words of a second-level table with one task: the count shares word 0 with
-- the lock of the first queue.
def listword (key2 : Nat) (task : τ) (index : Nat) : Word τ :=
  if index = 0 then .num 1 else if index = clwords * key2 + 1 then .task task else .num 0

structure Placed (mem : Memory (Word τ)) (links : Heap τ) (task : τ) (deadline : BitVec 32) (lvl1 lvl2 : Nat) : Prop where
  lower : 0 < lvl1 ∧ 0 < lvl2
  upper : lvl1 < mem.fresh ∧ lvl2 < mem.fresh
  sizes : mem.size lvl1 = 512 ∧ mem.size lvl2 = 2048
  entry : mem.word 0 (clwords * taskdlkey0 deadline + 2) = .tab lvl1 0
  first : ∀ index, mem.word lvl1 index = lvlword (taskdlkey1 deadline) (.tab lvl2 0) index
  second : ∀ index, mem.word lvl2 index = listword (taskdlkey2 deadline) task index
  ring : links.next task = some task ∧ links.prev task = some task
  key1 : taskdlkey1 deadline ≠ 0

-- No two tasks share their first key, so each has both of its tables to itself.
structure Inv (state : WaitState τ) (model : Deadlines τ) : Prop where
  size : state.mem.size 0 = 524288
  fresh : 0 < state.mem.fresh
  rest : ∀ index, index % 8 ≠ 2 → state.mem.word 0 index = .num 0
  empty : ∀ key0, key0 < 65536 → model.lvl1 key0 = false → state.mem.word 0 (clwords * key0 + 2) = .num 0
  made1 : ∀ key0, model.lvl1 key0 = true ↔ ∃ entry ∈ model.queued, taskdlkey0 entry.2 = key0
  made2 : ∀ key0 key1, model.lvl2 key0 key1 = true ↔
    ∃ entry ∈ model.queued, taskdlkey0 entry.2 = key0 ∧ taskdlkey1 entry.2 = key1
  keys : (model.queued.map fun entry => taskdlkey0 entry.2).Nodup
  placed : ∃ tab1 tab2 : Nat → Nat,
    (∀ entry ∈ model.queued, Placed state.mem state.links entry.1 entry.2 (tab1 (taskdlkey0 entry.2)) (tab2 (taskdlkey0 entry.2))) ∧
    ∀ entry ∈ model.queued, ∀ other ∈ model.queued, tab2 (taskdlkey0 entry.2) = tab2 (taskdlkey0 other.2) →
      taskdlkey0 entry.2 = taskdlkey0 other.2

-- Where a key belongs to one item of a list, filtering by it leaves that item.
theorem filter_key {α : Type u} (key : α → Nat) (items : List α) (nodup : (items.map key).Nodup) (item : α) (inside : item ∈ items) :
    items.filter (fun other => key other = key item) = [item] := by
  induction items with
  | nil => contradiction
  | cons first items ih =>
      rw [List.map_cons, List.nodup_cons] at nodup
      by_cases here : key first = key item
      · have absent : ∀ other ∈ items, ¬ key other = key item := by
          intro other member same
          exact nodup.1 (List.mem_map.mpr ⟨other, member, same.trans here.symm⟩)
        have same : item = first := by
          rcases List.mem_cons.mp inside with same | later
          · exact same
          · exact absurd rfl (absent item later)
        rw [List.filter_cons_of_pos (by simpa using here), List.filter_eq_nil_iff.mpr (by simpa using absent), same]
      · have later : item ∈ items := by
          rcases List.mem_cons.mp inside with rfl | later
          · exact absurd rfl here
          · exact later
        rw [List.filter_cons_of_neg (by simpa using here), ih nodup.2 later]

section Model
variable (state : WaitState τ) (model : Deadlines τ) (inv : Inv state model) (entry : τ × BitVec 32) (inside : entry ∈ model.queued)
include inv inside

omit [DecidableEq τ] in
theorem through1_one : model.through1 (taskdlkey0 entry.2) = [entry] :=
  filter_key (fun entry : τ × BitVec 32 => taskdlkey0 entry.2) model.queued inv.keys entry inside

omit [DecidableEq τ] in
theorem through2_one : model.through2 (taskdlkey0 entry.2) (taskdlkey1 entry.2) = [entry] := by
  rw [Deadlines.through2, through1_one state model inv entry inside]
  simp

omit [DecidableEq τ] in
theorem queue_one (key2 : Nat) : model.queue (taskdlkey0 entry.2) (taskdlkey1 entry.2) key2 =
    if key2 = taskdlkey2 entry.2 then [entry.1] else [] := by
  rw [Deadlines.queue, through2_one state model inv entry inside]
  by_cases here : key2 = taskdlkey2 entry.2
  · simp [here]
  · simp [here, Ne.symm here]

end Model

omit [DecidableEq τ] in
theorem inv_represents (state : WaitState τ) (model : Deadlines τ) (inv : Inv state model) : Represents state model := by
  obtain ⟨tab1, tab2, placed, apart⟩ := inv.placed
  refine ⟨fun key0 low => ?_, tab1, fun key0 _ => tab2 key0, fun key0 low => ?_, fun key0 low made => ?_,
    fun key0 key1 low0 low1 made => ?_, fun key0 key1 other0 other1 made other same => ?_⟩
  · rw [schednlvl0dl] at low
    rw [load_inside _ _ _ (by rw [inv.size, clwords]; omega), inv.rest _ (by rw [clwords]; omega)]
    rfl
  · rw [schednlvl0dl] at low
    rw [load_inside _ _ _ (by rw [inv.size, clwords]; omega)]
    by_cases made : model.lvl1 key0 = true
    · obtain ⟨entry, inside, rfl⟩ := (inv.made1 key0).mp made
      rw [if_pos made, (placed entry inside).entry]
    · rw [if_neg made, inv.empty key0 low (Bool.not_eq_true _ ▸ made)]
      rfl
  · obtain ⟨entry, inside, rfl⟩ := (inv.made1 key0).mp made
    have here := placed entry inside
    rw [load_inside _ _ _ (by rw [here.sizes.1]; decide), here.first, through1_one state model inv entry inside]
    rfl
  · obtain ⟨entry, inside, rfl, rfl⟩ := (inv.made2 key0 key1).mp made
    have here := placed entry inside
    have k1 := dlkey1_lt entry.2
    refine ⟨?_, ?_, fun key2 low2 => ?_⟩
    · rw [load_inside _ _ _ (by rw [here.sizes.1]; omega), here.first, lvlword, if_neg here.key1, if_pos (Or.inr rfl)]
    · rw [load_inside _ _ _ (by rw [here.sizes.2]; decide), here.second, through2_one state model inv entry inside]
      rfl
    · rw [schednlvl2dl] at low2
      rw [load_inside _ _ _ (by rw [here.sizes.2, clwords]; omega), here.second, queue_one state model inv entry inside, listword,
        if_neg (by omega)]
      by_cases mine : key2 = taskdlkey2 entry.2
      · rw [if_pos (by rw [mine]), if_pos mine]
        exact ⟨_, _, rfl, rfl, rfl, List.isChain_cons_cons.mpr ⟨here.ring, .singleton _⟩, by simp⟩
      · rw [if_neg (by rw [clwords]; omega), if_neg mine]
        exact ⟨_, _, rfl, rfl, rfl, .nil, by simp⟩
  · obtain ⟨entry, inside, rfl, rfl⟩ := (inv.made2 key0 key1).mp made
    obtain ⟨second, member, rfl, rfl⟩ := (inv.made2 other0 other1).mp other
    have key := apart entry inside second member same
    have equal : entry = second := by
      have one := through1_one state model inv entry inside
      have two := through1_one state model inv second member
      rw [key, two, List.cons.injEq] at one
      exact one.1.symm
    rw [equal]
    exact ⟨rfl, rfl⟩

def deadlineMem (mem : Memory (Word τ)) (key0 key1 key2 : Nat) (task : τ) : Memory (Word τ) :=
  let locked := mem.put 0 (clwords * key0) (.num 1)
  let made1 := (locked.alloc 512 (.num 0)).put 0 (clwords * key0 + 2) (.tab mem.fresh 0)
  let made2 := (made1.alloc 2048 (.num 0)).put mem.fresh key1 (.tab (mem.fresh + 1) 0)
  let queued := made2.put (mem.fresh + 1) (clwords * key2 + 1) (.task task)
  let counted1 := (queued.put mem.fresh 0 (.num 1)).put mem.fresh 1 (.tab (mem.fresh + 1) 0)
  let counted2 := counted1.put (mem.fresh + 1) 0 (.num 1)
  counted2.put 0 (clwords * key0) (.num 0)

theorem getdl1_new (key0 : Nat) (state : WaitState τ) (inside : clwords * key0 + 2 < state.mem.size 0)
    (fresh : 0 < state.mem.fresh) (absent : state.mem.word 0 (clwords * key0 + 2) = .num 0) :
    getdl1 key0 true state = some ({ state with mem := (state.mem.alloc 512 (.num 0)).put 0 (clwords * key0 + 2) (.tab state.mem.fresh 0) },
      .tab state.mem.fresh 0, .tab state.mem.fresh 0) := by
  have kept : clwords * key0 + 2 < (state.mem.alloc 512 (.num 0)).size 0 := alloc_inside _ _ _ _ _ fresh inside
  simp [getdl1, l0entry, WaitState.load, WaitState.store, WaitState.kmalloc, load_inside _ _ _ inside, absent, Word.null,
    kmallocmaybe, schednlvl1dl, tabwords, store_inside _ _ _ _ kept]

theorem getdl2_new (lvl1 key1 : Nat) (state : WaitState τ) (inside : key1 < state.mem.size lvl1)
    (fresh : lvl1 < state.mem.fresh) (absent : state.mem.word lvl1 key1 = .num 0) :
    getdl2 (.tab lvl1 0) key1 true state = some ({ state with mem := (state.mem.alloc 2048 (.num 0)).put lvl1 key1 (.tab state.mem.fresh 0) },
      .tab state.mem.fresh 0, .tab state.mem.fresh 0) := by
  have kept : key1 < (state.mem.alloc 2048 (.num 0)).size lvl1 := alloc_inside _ _ _ _ _ fresh inside
  simp [getdl2, WaitState.load, WaitState.store, WaitState.kmalloc, load_inside _ _ _ inside, absent, Word.null,
    kmallocmaybe, schednlvl2dl, clwords, store_inside _ _ _ _ kept]

-- Where a lookup found no table and memory is short, it stores the NULL it read.
theorem getdl1_failed (key0 : Nat) (state : WaitState τ) (inside : clwords * key0 + 2 < state.mem.size 0)
    (absent : state.mem.word 0 (clwords * key0 + 2) = .num 0) : getdl1 key0 false state = some (state, .null, .null) := by
  simp [getdl1, l0entry, WaitState.load, WaitState.store, load_inside _ _ _ inside, absent, Word.null, kmallocmaybe,
    store_inside _ _ _ _ inside, put_same _ _ _ _ absent]

theorem getdl1_old (key0 : Nat) (ok : Bool) (state : WaitState τ) (lvl1 : Nat) (inside : clwords * key0 + 2 < state.mem.size 0)
    (held : state.mem.word 0 (clwords * key0 + 2) = .tab lvl1 0) : getdl1 key0 ok state = some (state, .tab lvl1 0, .null) := by
  simp [getdl1, l0entry, WaitState.load, load_inside _ _ _ inside, held, Word.null]

section Lookup
variable (op : Op τ) (state : WaitState τ) (model : Deadlines τ) (inv : Inv state model)

def locked (op : Op τ) (state : WaitState τ) : WaitState τ :=
  { state with mem := state.mem.put 0 (clwords * taskdlkey0 op.deadline) (.num 1) }

include inv

theorem lock_taken : lockl0 (taskdlkey0 op.deadline) state = some (locked op state) := by
  have k0 := dlkey0_lt op.deadline
  exact lockl0_free _ _ (by rw [inv.size, clwords]; omega) (inv.rest _ (by rw [clwords]; omega))

omit [DecidableEq τ] in
theorem entry_locked (value : Word τ) (held : state.mem.word 0 (clwords * taskdlkey0 op.deadline + 2) = value) :
    clwords * taskdlkey0 op.deadline + 2 < (locked op state).mem.size 0 ∧
      (locked op state).mem.word 0 (clwords * taskdlkey0 op.deadline + 2) = value := by
  have k0 := dlkey0_lt op.deadline
  refine ⟨?_, ?_⟩
  · rw [locked, put_size, inv.size, clwords]
    omega
  · rw [locked, put_other_index _ _ _ _ _ _ (by omega)]
    exact held

-- Without a first table and without memory for it the task is left alone.
theorem deadline_failed (absent : model.lvl1 (taskdlkey0 op.deadline) = false) (failed : op.ok1 = false) :
    schedsetdeadline op.task op.deadline op.ok1 op.ok2 state = some state := by
  have k0 := dlkey0_lt op.deadline
  obtain ⟨inside, null⟩ := entry_locked op state model inv _ (inv.empty _ k0 absent)
  have unlocked := inv.rest (clwords * taskdlkey0 op.deadline) (by rw [clwords]; omega)
  rw [schedsetdeadline, lock_taken op state model inv, failed]
  simp only [Option.bind_eq_bind, Option.bind_some]
  rw [getdl1_failed _ _ inside null, Option.bind_some, if_pos rfl, unlockl0_inside _ _ (by rw [locked, put_size, inv.size, clwords]; omega)]
  simp only [locked, put_put, put_same _ _ _ _ unlocked]

-- The first table that a call makes under the lock of its entry.
theorem getdl1_locked (absent : model.lvl1 (taskdlkey0 op.deadline) = false) :
    getdl1 (taskdlkey0 op.deadline) true (locked op state) =
      some ({ locked op state with
        mem := ((locked op state).mem.alloc 512 (.num 0)).put 0 (clwords * taskdlkey0 op.deadline + 2) (.tab state.mem.fresh 0) },
        .tab state.mem.fresh 0, .tab state.mem.fresh 0) := by
  obtain ⟨inside, null⟩ := entry_locked op state model inv _ (inv.empty _ (dlkey0_lt op.deadline) absent)
  exact getdl1_new _ _ inside (by simpa [locked] using inv.fresh) null

theorem deadline_new (absent : model.lvl1 (taskdlkey0 op.deadline) = false) (made1 : op.ok1 = true) (made2 : op.ok2 = true)
    (key1 : taskdlkey1 op.deadline ≠ 0) :
    schedsetdeadline op.task op.deadline op.ok1 op.ok2 state = some { state with
      mem := deadlineMem state.mem (taskdlkey0 op.deadline) (taskdlkey1 op.deadline) (taskdlkey2 op.deadline) op.task
      links := Deq.deqinit state.links op.task } := by
  have k0 := dlkey0_lt op.deadline
  have k1 := dlkey1_lt op.deadline
  have k2 := dlkey2_lt op.deadline
  have notZero : state.mem.fresh ≠ 0 := Nat.ne_of_gt inv.fresh
  rw [schedsetdeadline, lock_taken op state model inv, made1, made2]
  simp only [Option.bind_eq_bind, Option.bind_some]
  rw [getdl1_locked op state model inv absent, Option.bind_some, if_neg (by simp [Word.null])]
  simp only [locked]
  rw [getdl2_new _ _ _ (by simp [Memory.alloc, Memory.put]; omega) (by simp [Memory.alloc, Memory.put])
    (by simp [Memory.alloc, Memory.put, notZero]), Option.bind_some]
  simp only [put_fresh, alloc_fresh]
  rw [appendtask_first _ _ _ _ (by simp [Memory.alloc, Memory.put, clwords]; omega) (by simp [Memory.alloc, Memory.put]), Option.bind_some]
  rw [addref_num _ 0 _ _ (by simp [Memory.alloc, Memory.put]) (by simp [Memory.alloc, Memory.put, notZero, key1.symm]),
    Option.bind_some, settab, store_tab _ _ _ _ (by simp [Memory.alloc, Memory.put]), Option.bind_some]
  rw [addref_num _ 0 _ _ (by simp [Memory.alloc, Memory.put]) (by simp [Memory.alloc, Memory.put]), Option.bind_some]
  rw [unlockl0_inside _ _ (by simp [Memory.alloc, Memory.put, notZero.symm, inv.size, clwords]; omega)]
  rfl

end Lookup

section Written
variable (mem : Memory (Word τ)) (key0 key1 key2 : Nat) (task : τ)

omit [DecidableEq τ] in
theorem deadline_fresh : (deadlineMem mem key0 key1 key2 task).fresh = mem.fresh + 2 := rfl

omit [DecidableEq τ] in
theorem deadline_size (table : Nat) : (deadlineMem mem key0 key1 key2 task).size table =
    if table = mem.fresh + 1 then 2048 else if table = mem.fresh then 512 else mem.size table := rfl

omit [DecidableEq τ] in
theorem deadline_word_zero (index : Nat) (fresh : 0 < mem.fresh) : (deadlineMem mem key0 key1 key2 task).word 0 index =
    if index = clwords * key0 then .num 0
    else if index = clwords * key0 + 2 then .tab mem.fresh 0 else mem.word 0 index := by
  have notZero : 0 ≠ mem.fresh := Nat.ne_of_lt fresh
  simp [deadlineMem, Memory.alloc, Memory.put, notZero]
  split_ifs <;> rfl

omit [DecidableEq τ] in
theorem deadline_word_old (table index : Nat) (lower : 0 < table) (upper : table < mem.fresh) :
    (deadlineMem mem key0 key1 key2 task).word table index = mem.word table index := by
  have one : table ≠ 0 := by omega
  have two : table ≠ mem.fresh := by omega
  have three : table ≠ mem.fresh + 1 := by omega
  simp [deadlineMem, Memory.alloc, Memory.put, one, two, three]

omit [DecidableEq τ] in
theorem deadline_word_first (index : Nat) (fresh : 0 < mem.fresh) :
    (deadlineMem mem key0 key1 key2 task).word mem.fresh index = lvlword key1 (.tab (mem.fresh + 1) 0) index := by
  have notZero : mem.fresh ≠ 0 := Nat.ne_of_gt fresh
  simp [deadlineMem, Memory.alloc, Memory.put, notZero, lvlword]
  split_ifs <;> first | rfl | omega

omit [DecidableEq τ] in
theorem deadline_word_second (index : Nat) :
    (deadlineMem mem key0 key1 key2 task).word (mem.fresh + 1) index = listword key2 task index := by
  simp [deadlineMem, Memory.alloc, Memory.put, listword]

end Written

theorem placed_new (state : WaitState τ) (task : τ) (dl : BitVec 32) (fresh : 0 < state.mem.fresh) (key1 : taskdlkey1 dl ≠ 0) :
    Placed (deadlineMem state.mem (taskdlkey0 dl) (taskdlkey1 dl) (taskdlkey2 dl) task) (Deq.deqinit state.links task) task dl
      state.mem.fresh (state.mem.fresh + 1) := by
  refine ⟨by omega, ?_, ?_, ?_, fun index => deadline_word_first _ _ _ _ _ index fresh, fun index => deadline_word_second _ _ _ _ _ index,
    by simp [Deq.deqinit], key1⟩
  · rw [deadline_fresh]
    omega
  · simp [deadline_size]
  · rw [deadline_word_zero _ _ _ _ _ _ fresh, if_neg (by omega), if_pos rfl]

theorem placed_kept (state : WaitState τ) (task other : τ) (dl : BitVec 32) (key0 key1 key2 lvl1 lvl2 : Nat)
    (placed : Placed state.mem state.links other dl lvl1 lvl2) (different : other ≠ task) (apart : taskdlkey0 dl ≠ key0) :
    Placed (deadlineMem state.mem key0 key1 key2 task) (Deq.deqinit state.links task) other dl lvl1 lvl2 := by
  obtain ⟨low1, low2⟩ := placed.lower
  obtain ⟨up1, up2⟩ := placed.upper
  refine ⟨placed.lower, ?_, ?_, ?_, fun index => ?_, fun index => ?_, ?_, placed.key1⟩
  · rw [deadline_fresh]
    omega
  · rw [deadline_size, deadline_size, if_neg (by omega), if_neg (by omega), if_neg (by omega), if_neg (by omega)]
    exact placed.sizes
  · rw [deadline_word_zero _ _ _ _ _ _ (by omega), if_neg (by unfold clwords; omega), if_neg (by unfold clwords; omega)]
    exact placed.entry
  · rw [deadline_word_old _ _ _ _ _ _ _ low1 up1]
    exact placed.first index
  · rw [deadline_word_old _ _ _ _ _ _ _ low2 up2]
    exact placed.second index
  · rw [(deqinit_other state.links task other different).1, (deqinit_other state.links task other different).2]
    exact placed.ring

-- The calls that do what they are for: no table of the first level is there, and
-- either it cannot be made or both can and the second key is not 0.
def Sound (model : Deadlines τ) (op : Op τ) : Prop :=
  model.lvl1 (taskdlkey0 op.deadline) = false ∧
    (op.ok1 = true → op.ok2 = true ∧ taskdlkey1 op.deadline ≠ 0)

omit [DecidableEq τ] in
theorem spec_failed (model : Deadlines τ) (op : Op τ) (absent : model.lvl1 (taskdlkey0 op.deadline) = false) (failed : op.ok1 = false) :
    deadlineSpec model op = (model, ()) := by
  rw [deadlineSpec, if_pos (by simp [absent, failed])]

omit [DecidableEq τ] in
theorem spec_new (model : Deadlines τ) (op : Op τ) (made1 : op.ok1 = true) (made2 : op.ok2 = true) :
    (deadlineSpec model op).1 =
      { queued := model.queued ++ [(op.task, op.deadline)]
        lvl1 := fun other => if other = taskdlkey0 op.deadline then true else model.lvl1 other
        lvl2 := fun other place => if other = taskdlkey0 op.deadline ∧ place = taskdlkey1 op.deadline then true
          else model.lvl2 other place } := by
  rw [deadlineSpec, if_neg (by simp [made1]), if_neg (by simp [made2])]

theorem deadline_kept (state : WaitState τ) (model : Deadlines τ) (op : Op τ) (inv : Inv state model) (legal : Legal model op)
    (sound : Sound model op) :
    ∃ next, deadlineStep state op = some (next, (deadlineSpec model op).2) ∧ Inv next (deadlineSpec model op).1 := by
  obtain ⟨absent, made⟩ := sound
  by_cases failed : op.ok1 = false
  · rw [deadlineStep, deadline_failed op state model inv absent failed, spec_failed model op absent failed]
    exact ⟨state, rfl, inv⟩
  have made1 : op.ok1 = true := Bool.not_eq_false _ ▸ failed
  obtain ⟨made2, key1⟩ := made made1
  have fresh := inv.fresh
  have clear : ∀ entry ∈ model.queued, taskdlkey0 entry.2 ≠ taskdlkey0 op.deadline := by
    intro entry inside same
    rw [(inv.made1 _).mpr ⟨entry, inside, same⟩] at absent
    contradiction
  obtain ⟨tab1, tab2, placed, apart⟩ := inv.placed
  refine ⟨_, by rw [deadlineStep, deadline_new op state model inv absent made1 made2 key1]; rfl, ?_⟩
  rw [spec_new model op made1 made2]
  refine ⟨?_, ?_, fun index outside => ?_, fun key0 low none => ?_, fun key0 => ?_, fun key0 key1 => ?_, ?_, ?_⟩
  · rw [deadline_size, if_neg (by omega), if_neg (by omega)]
    exact inv.size
  · rw [deadline_fresh]
    omega
  · rw [deadline_word_zero _ _ _ _ _ _ fresh]
    by_cases lock : index = clwords * taskdlkey0 op.deadline
    · rw [if_pos lock]
    · rw [if_neg lock, if_neg (by unfold clwords; omega)]
      exact inv.rest index outside
  · by_cases here : key0 = taskdlkey0 op.deadline
    · simp [here] at none
    · simp only [if_neg here] at none
      rw [deadline_word_zero _ _ _ _ _ _ fresh, if_neg (by unfold clwords; omega), if_neg (by unfold clwords; omega)]
      exact inv.empty key0 low none
  · simp only [List.mem_append, List.mem_singleton, or_and_right, exists_or, exists_eq_left]
    by_cases here : key0 = taskdlkey0 op.deadline
    · simp [here]
    · rw [if_neg here, inv.made1 key0, or_iff_left (Ne.symm here)]
  · simp only [List.mem_append, List.mem_singleton, or_and_right, exists_or, exists_eq_left]
    by_cases here : key0 = taskdlkey0 op.deadline ∧ key1 = taskdlkey1 op.deadline
    · simp [here]
    · rw [if_neg here, inv.made2 key0 key1, or_iff_left (fun same => here ⟨same.1.symm, same.2.symm⟩)]
  · rw [List.map_append, List.nodup_append]
    refine ⟨inv.keys, by simp, fun key before other last => ?_⟩
    obtain ⟨entry, inside, rfl⟩ := List.mem_map.mp before
    rw [List.map_singleton, List.mem_singleton] at last
    rw [last]
    exact clear entry inside
  · have old1 (entry : τ × BitVec 32) (inside : entry ∈ model.queued) (tab : Nat → Nat) (table : Nat) :
        Function.update tab (taskdlkey0 op.deadline) table (taskdlkey0 entry.2) = tab (taskdlkey0 entry.2) :=
      Function.update_of_ne (clear entry inside) _ _
    refine ⟨Function.update tab1 (taskdlkey0 op.deadline) state.mem.fresh,
      Function.update tab2 (taskdlkey0 op.deadline) (state.mem.fresh + 1), ?_, ?_⟩
    · intro entry inside
      rcases List.mem_append.mp inside with old | new
      · rw [old1 entry old, old1 entry old]
        exact placed_kept state op.task entry.1 entry.2 _ _ _ _ _ (placed entry old) (legal entry old) (clear entry old)
      · rw [List.mem_singleton.mp new, Function.update_self, Function.update_self]
        exact placed_new state op.task op.deadline fresh key1
    · intro entry inside other member same
      rcases List.mem_append.mp inside with old | new
      · rcases List.mem_append.mp member with before | last
        · rw [old1 entry old, old1 other before] at same
          exact apart entry old other before same
        · rw [List.mem_singleton.mp last, Function.update_self, old1 entry old] at same
          have upper := (placed entry old).upper.2
          omega
      · rcases List.mem_append.mp member with before | last
        · rw [List.mem_singleton.mp new, Function.update_self, old1 other before] at same
          have upper := (placed other before).upper.2
          omega
        · rw [List.mem_singleton.mp new, List.mem_singleton.mp last]

omit [DecidableEq τ] in
theorem addref_null (value : Int) (state : WaitState τ) : addref .null value state = none := rfl

theorem appendtask_null (key2 : Nat) (task : τ) (state : WaitState τ) : appendtask .null key2 task state = none := rfl

omit [DecidableEq τ] in
theorem addref_spoils (table lvl2 : Nat) (value : Int) (state : WaitState τ) (inside : 0 < state.mem.size table)
    (held : state.mem.word table 0 = .tab lvl2 0) :
    addref (.tab table 0) value state = some { state with mem := state.mem.put table 0 .junk } := by
  simp [addref, load_tab state table 0 inside, held, Word.add, store_tab state table 0 _ inside]

theorem getdl2_failed (lvl1 key1 : Nat) (state : WaitState τ) (inside : key1 < state.mem.size lvl1)
    (absent : state.mem.word lvl1 key1 = .num 0) : getdl2 (.tab lvl1 0) key1 false state = some (state, .null, .null) := by
  simp [getdl2, WaitState.load, WaitState.store, load_inside _ _ _ inside, absent, Word.null, kmallocmaybe,
    store_inside _ _ _ _ inside, put_same _ _ _ _ absent]

section Broken
variable (op : Op τ) (state : WaitState τ) (model : Deadlines τ) (inv : Inv state model)
include inv

theorem deadline_again (made : model.lvl1 (taskdlkey0 op.deadline) = true) :
    schedsetdeadline op.task op.deadline op.ok1 op.ok2 state = none := by
  obtain ⟨entry, inside, same⟩ := (inv.made1 _).mp made
  obtain ⟨tab1, tab2, placed, apart⟩ := inv.placed
  have held := (placed entry inside).entry
  rw [same] at held
  obtain ⟨room, word⟩ := entry_locked op state model inv _ held
  rw [schedsetdeadline, lock_taken op state model inv]
  simp only [Option.bind_eq_bind, Option.bind_some]
  rw [getdl1_old _ _ _ _ room word, Option.bind_some, if_neg (by simp [Word.null])]
  simp only [addref_null, Option.bind_none, Option.bind_fun_none]

theorem deadline_short (absent : model.lvl1 (taskdlkey0 op.deadline) = false) (made1 : op.ok1 = true) (failed : op.ok2 = false) :
    schedsetdeadline op.task op.deadline op.ok1 op.ok2 state = none := by
  have k0 := dlkey0_lt op.deadline
  have k1 := dlkey1_lt op.deadline
  have notZero : state.mem.fresh ≠ 0 := Nat.ne_of_gt inv.fresh
  rw [schedsetdeadline, lock_taken op state model inv, made1, failed]
  simp only [Option.bind_eq_bind, Option.bind_some]
  rw [getdl1_locked op state model inv absent, Option.bind_some, if_neg (by simp [Word.null])]
  simp only [locked]
  rw [getdl2_failed _ _ _ (by simp [Memory.alloc, Memory.put]; omega) (by simp [Memory.alloc, Memory.put, notZero]), Option.bind_some,
    appendtask_null, Option.bind_none]

-- With 0 for its second key the second table is named by the word that counts.
theorem deadline_spoilt (absent : model.lvl1 (taskdlkey0 op.deadline) = false) (made1 : op.ok1 = true) (made2 : op.ok2 = true)
    (key1 : taskdlkey1 op.deadline = 0) (next : WaitState τ)
    (run : schedsetdeadline op.task op.deadline op.ok1 op.ok2 state = some next) :
    next.mem.word 0 (clwords * taskdlkey0 op.deadline + 2) = .tab state.mem.fresh 0 ∧ next.mem.word state.mem.fresh 0 = .junk := by
  have k0 := dlkey0_lt op.deadline
  have k2 := dlkey2_lt op.deadline
  have notZero : state.mem.fresh ≠ 0 := Nat.ne_of_gt inv.fresh
  rw [schedsetdeadline, lock_taken op state model inv, made1, made2, key1] at run
  simp only [Option.bind_eq_bind, Option.bind_some] at run
  rw [getdl1_locked op state model inv absent, Option.bind_some, if_neg (by simp [Word.null])] at run
  simp only [locked] at run
  rw [getdl2_new _ _ _ (by simp [Memory.alloc, Memory.put]) (by simp [Memory.alloc, Memory.put])
    (by simp [Memory.alloc, Memory.put, notZero]), Option.bind_some] at run
  simp only [put_fresh, alloc_fresh] at run
  rw [appendtask_first _ _ _ _ (by simp [Memory.alloc, Memory.put, clwords]; omega) (by simp [Memory.alloc, Memory.put]),
    Option.bind_some] at run
  rw [addref_spoils _ (state.mem.fresh + 1) 1 _ (by simp [Memory.alloc, Memory.put]) (by simp [Memory.alloc, Memory.put]),
    Option.bind_some, settab, store_tab _ _ _ _ (by simp [Memory.alloc, Memory.put]), Option.bind_some] at run
  rw [addref_num _ 0 _ _ (by simp [Memory.alloc, Memory.put]) (by simp [Memory.alloc, Memory.put]), Option.bind_some] at run
  rw [unlockl0_inside _ _ (by simp [Memory.alloc, Memory.put, notZero.symm, inv.size, clwords]; omega), Option.some.injEq] at run
  rw [← run]
  simp [Memory.alloc, Memory.put, notZero, notZero.symm]

end Broken

-- Any other call dereferences NULL, or counts in the word that names the second table.
theorem deadline_only (state : WaitState τ) (model : Deadlines τ) (op : Op τ) (next : WaitState τ) (inv : Inv state model)
    (taken : deadlineStep state op = some (next, (deadlineSpec model op).2)) (represents : Represents next (deadlineSpec model op).1) :
    Sound model op := by
  obtain ⟨final, run, same⟩ := Option.map_eq_some_iff.mp taken
  rw [Prod.mk.injEq] at same
  obtain ⟨rfl, -⟩ := same
  by_cases made : model.lvl1 (taskdlkey0 op.deadline) = true
  · rw [deadline_again op state model inv made] at run
    contradiction
  have absent : model.lvl1 (taskdlkey0 op.deadline) = false := Bool.not_eq_true _ ▸ made
  refine ⟨absent, fun made1 => ?_⟩
  by_cases failed : op.ok2 = false
  · rw [deadline_short op state model inv absent made1 failed] at run
    contradiction
  have made2 : op.ok2 = true := Bool.not_eq_false _ ▸ failed
  refine ⟨made2, fun key1 => ?_⟩
  have k0 := dlkey0_lt op.deadline
  obtain ⟨entry, count⟩ := deadline_spoilt op state model inv absent made1 made2 key1 final run
  obtain ⟨tab1, tab2, level0, level1, level2, apart⟩ := represents.tables
  rw [spec_new model op made1 made2] at level0 level1
  have named := word_of_load _ _ _ _ (level0 _ k0)
  have counted := word_of_load _ _ _ _ (level1 _ k0 (if_pos rfl))
  simp only [if_true] at named
  rw [entry, Word.tab.injEq] at named
  rw [← named.1, count] at counted
  contradiction

def deadlineBoot (links : Heap τ) : WaitState τ :=
  { mem := ⟨fun _ _ => .num 0, fun table => if table = 0 then 524288 else 0, 1⟩, links := links, tasklk := fun _ => false }

def noDeadlines : Deadlines τ := ⟨[], fun _ => false, fun _ _ => false⟩

omit [DecidableEq τ] in
theorem boot_inv (links : Heap τ) : Inv (deadlineBoot links) (noDeadlines : Deadlines τ) := by
  refine ⟨rfl, Nat.zero_lt_one, fun _ _ => rfl, fun _ _ _ => rfl, fun _ => ?_, fun _ _ => ?_, List.nodup_nil, id, id, ?_, ?_⟩
  · simp [noDeadlines]
  · simp [noDeadlines]
  · exact fun _ none => absurd none List.not_mem_nil
  · exact fun _ none => absurd none List.not_mem_nil

-- The calls keep the tables, their counts and the lock as they should be in exactly
-- the runs where each finds no table of its first key.
theorem deadline_refines_iff (links : Heap τ) (ops : List (Op τ)) (legal : Along deadlineSpec Legal (noDeadlines : Deadlines τ) ops) :
    Refines deadlineStep deadlineSpec Represents (deadlineBoot links) noDeadlines ops ↔ Along deadlineSpec Sound noDeadlines ops :=
  refines_iff_invariant deadlineStep deadlineSpec Inv Represents Legal Sound inv_represents
    (fun state model op inv legal sound => deadline_kept state model op inv legal sound)
    (fun state model op next inv _ taken represents => deadline_only state model op next inv taken represents)
    (deadlineBoot links) noDeadlines ops (boot_inv links) legal

def noTasks : Heap (Fin 2) := ⟨fun _ => none, fun _ => none⟩

theorem deadline_refines_iff_at_two :
    Refines deadlineStep deadlineSpec Represents (deadlineBoot noTasks) noDeadlines
      [⟨0, 0x00010203, true, true⟩, ⟨1, 0x00020203, true, true⟩] :=
  (deadline_refines_iff noTasks _ (by simp [Along, Legal, deadlineSpec, noDeadlines])).mpr
    (by simp [Along, Sound, deadlineSpec, noDeadlines, taskdlkey0, taskdlkey1])

theorem second_deadline_faults :
    Along deadlineSpec Legal (noDeadlines : Deadlines (Fin 2)) [⟨0, 0x00010203, true, true⟩, ⟨1, 0x00010305, true, true⟩] ∧
      ¬ Refines deadlineStep deadlineSpec Represents (deadlineBoot noTasks) noDeadlines
        [⟨0, 0x00010203, true, true⟩, ⟨1, 0x00010305, true, true⟩] := by
  have legal : Along deadlineSpec Legal (noDeadlines : Deadlines (Fin 2)) [⟨0, 0x00010203, true, true⟩, ⟨1, 0x00010305, true, true⟩] := by
    simp [Along, Legal, deadlineSpec, noDeadlines]
  refine ⟨legal, fun refines => ?_⟩
  obtain ⟨_, next, first, _, last, second, _⟩ := refines
  have inv := boot_inv noTasks
  obtain ⟨kept, same, after⟩ := deadline_kept (deadlineBoot noTasks) noDeadlines ⟨0, 0x00010203, true, true⟩ inv legal.1
    (by simp [Sound, noDeadlines, taskdlkey1])
  rw [first] at same
  cases same
  rw [deadlineStep, deadline_again _ next _ after (by simp [deadlineSpec, noDeadlines, taskdlkey0])] at second
  contradiction

end OsZero.Deadline

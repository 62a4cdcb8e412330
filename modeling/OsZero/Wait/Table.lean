import OsZero.Deq.Single
import OsZero.Lib.Tables
import Mathlib.Data.Fintype.Card
import Mathlib.Data.Multiset.Basic

set_option autoImplicit false

namespace OsZero.Wait

open Links Runs Tables

universe u
variable {τ : Type u} [DecidableEq τ]

-- A word of a wait table: a count or a lock, the address of a word in a
-- table, the address of a task, or a pointer spoiled by arithmetic. NULL is
-- the number 0.
inductive Word (τ : Type u) where
  | num (value : Int)
  | tab (table index : Nat)
  | task (task : τ)
  | junk
deriving DecidableEq

def Word.null : Word τ := .num 0

-- Table 0 is taskwaittab; an entry there and a taskqueue have eight words, a
-- tasktab two.
structure WaitState (τ : Type u) where
  mem : Memory (Word τ)
  links : Heap τ
  tasklk : τ → Bool

def tasknlvlwait : Nat := 256
def clwords : Nat := 8
def tabwords : Nat := 2

def taskwaitkey0 (wtchan : BitVec 32) : Nat := (wtchan.toNat >>> 24) % tasknlvlwait
def taskwaitkey1 (wtchan : BitVec 32) : Nat := (wtchan.toNat >>> 16) % tasknlvlwait
def taskwaitkey2 (wtchan : BitVec 32) : Nat := (wtchan.toNat >>> 8) % tasknlvlwait
def taskwaitkey3 (wtchan : BitVec 32) : Nat := wtchan.toNat % tasknlvlwait

def WaitState.load (state : WaitState τ) (ptr : Word τ) (index : Nat) : Option (Word τ) :=
  match ptr with
  | .tab table start => state.mem.load table (start + index)
  | _ => none

def WaitState.store (state : WaitState τ) (ptr : Word τ) (index : Nat) (value : Word τ) : Option (WaitState τ) :=
  match ptr with
  | .tab table start => do
      let mem ← state.mem.store table (start + index) value
      some { state with mem := mem }
  | _ => none

-- kmalloc followed by kbzero, given that kmalloc succeeds.
def WaitState.kmalloc (state : WaitState τ) (words : Nat) : WaitState τ × Word τ :=
  ({ state with mem := state.mem.alloc words .null }, .tab state.mem.fresh 0)

def Word.add (word : Word τ) (value : Int) : Word τ :=
  match word with
  | .num count => .num (count + value)
  | _ => .junk

def l0entry (key0 : Nat) : Word τ := .tab 0 (clwords * key0)

def lockl0 (key0 : Nat) (state : WaitState τ) : Option (WaitState τ) := do
  let lk ← state.load (l0entry key0) 0
  if lk = .null then state.store (l0entry key0) 0 (.num 1) else none

def unlockl0 (key0 : Nat) (state : WaitState τ) : Option (WaitState τ) := state.store (l0entry key0) 0 .null

-- The three lookups of schedsetwait. The first returns the table twice when it
-- is new; ptab[0] stays NULL when it is not.
def getlvl1 (key0 : Nat) (state : WaitState τ) : Option (WaitState τ × Word τ × Word τ) := do
  let ptr ← state.load (l0entry key0) 2
  if ptr = .null then
    let made := state.kmalloc (tasknlvlwait * tabwords)
    let state ← made.1.store (l0entry key0) 2 made.2
    some (state, made.2, made.2)
  else some (state, ptr, .null)

def getlvl2 (pptr : Word τ) (key1 : Nat) (state : WaitState τ) : Option (WaitState τ × Word τ) := do
  let ptr ← state.load pptr key1
  if ptr = .null then
    let made := state.kmalloc (tasknlvlwait * tabwords)
    let state ← made.1.store pptr key1 made.2
    some (state, made.2)
  else
    let state ← state.store pptr key1 ptr
    some (state, ptr)

def getlvl3 (pptr : Word τ) (key2 : Nat) (state : WaitState τ) : Option (WaitState τ × Word τ × Word τ) := do
  let ptr ← state.load pptr key2
  if ptr = .null then
    let made := state.kmalloc (tasknlvlwait * clwords)
    let state ← made.1.store pptr key2 made.2
    some (state, made.2, made.2)
  else some (state, ptr, .null)

def clearprev (links : Heap τ) : Option τ → Heap τ
  | some after => links.setPrev after none
  | none => links

def taskword : Option τ → Word τ
  | some task => .task task
  | none => .null

-- A list word holds NULL or a task.
def wordtask : Word τ → Option (Option τ)
  | .num 0 => some none
  | .task task => some (some task)
  | _ => none

-- deqappend(task, &queue[key3].list)
def appendtask (queue : Word τ) (key3 : Nat) (task : τ) (state : WaitState τ) : Option (WaitState τ) := do
  let list ← state.load queue (clwords * key3 + 1)
  let deq ← wordtask list
  let after ← Deq.deqappend task ⟨state.links, deq⟩
  let first ← after.deq
  WaitState.store { state with links := after.links } queue (clwords * key3 + 1) (.task first)

-- tab->nref++ and tab->tab = value on the two words of a struct tasktab.
def addref (tab : Word τ) (value : Int) (state : WaitState τ) : Option (WaitState τ) := do
  let nref ← state.load tab 0
  state.store tab 0 (nref.add value)

def settab (tab value : Word τ) (state : WaitState τ) : Option (WaitState τ) := state.store tab 1 value

def schedsetwait (task : τ) (wtchan : BitVec 32) (state : WaitState τ) : Option (WaitState τ) := do
  let state ← lockl0 (taskwaitkey0 wtchan) state
  let lvl1 ← getlvl1 (taskwaitkey0 wtchan) state
  let lvl2 ← getlvl2 lvl1.2.1 (taskwaitkey1 wtchan) lvl1.1
  let lvl3 ← getlvl3 lvl2.2 (taskwaitkey2 wtchan) lvl2.1
  let state ← appendtask lvl3.2.1 (taskwaitkey3 wtchan) task lvl3.1
  let state ← addref lvl1.2.2 1 state
  let state ← settab lvl1.2.2 lvl2.2 state
  let state ← addref lvl2.2 1 state
  let state ← settab lvl2.2 lvl3.2.2 state
  let state ← addref lvl3.2.2 1 state
  unlockl0 (taskwaitkey0 wtchan) state

-- The loop over queue->list. taskwakeup is recorded as an event; every
-- iteration takes the task's lock and none gives it back, so a walk that
-- comes round to a task again never returns.
def wakeloop (queue : Word τ) : Nat → Option τ → List τ → WaitState τ → Option (WaitState τ × List τ)
  | _, none, woken, state => some (state, woken)
  | 0, some _, _, _ => none
  | fuel + 1, some task, woken, state =>
      if state.tasklk task then none
      else do
        let next := state.links.next task
        let state := { state with
          links := clearprev state.links next
          tasklk := fun other => if other = task then true else state.tasklk other }
        let state ← state.store queue 1 (taskword next)
        wakeloop queue fuel next (woken ++ [task]) state

-- Only the start of an allocated table can be freed; taskwaittab is static.
def kfree (tab : Word τ) (state : WaitState τ) : Option (WaitState τ) :=
  match tab with
  | .tab (table + 1) 0 => some { state with mem := state.mem.free (table + 1) }
  | _ => none

-- --tab->nref, and at zero kfree(tab) and *pptr = NULL.
def dropref (tab pptr : Word τ) (state : WaitState τ) : Option (WaitState τ) := do
  let nref ← state.load tab 0
  let state ← state.store tab 0 (nref.add (-1))
  if nref.add (-1) = .null then
    let state ← kfree tab state
    state.store pptr 0 .null
  else some state

def Word.offset (word : Word τ) (index : Nat) : Word τ :=
  match word with
  | .tab table start => .tab table (start + index)
  | _ => .junk

-- The queue that the three reads of schedwakeup have reached.
def wakequeue [Fintype τ] (key0 key1 key2 : Nat) (tab1 tab2 queue : Word τ) (state : WaitState τ) :
    Option (WaitState τ × List τ) := do
  let list ← state.load queue 1
  let first ← wordtask list
  let woken ← wakeloop queue (Fintype.card τ + 1) first [] state
  let state ← dropref tab2 (tab2.offset (tabwords * key2)) woken.1
  let state ← dropref tab1 (tab1.offset (tabwords * key1)) state
  let state ← dropref (l0entry key0) (l0entry key0) state
  some (state, woken.2)

def schedwakeup [Fintype τ] (wtchan : BitVec 32) (state : WaitState τ) : Option (WaitState τ × List τ) := do
  let key0 := taskwaitkey0 wtchan
  let state ← lockl0 key0 state
  let tab1 ← state.load (l0entry key0) (taskwaitkey1 wtchan)
  if tab1 = .null then (unlockl0 key0 state).map (·, [])
  else
    let tab2 ← state.load tab1 (taskwaitkey2 wtchan)
    if tab2 = .null then (unlockl0 key0 state).map (·, [])
    else
      let queue ← state.load tab2 (taskwaitkey3 wtchan)
      if queue = .null then (unlockl0 key0 state).map (·, [])
      else do
        let woken ← wakequeue key0 (taskwaitkey1 wtchan) (taskwaitkey2 wtchan) tab1 tab2 queue state
        (unlockl0 key0 woken.1).map (·, woken.2)

end OsZero.Wait

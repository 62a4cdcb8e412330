import OsZero.Deq.Double

set_option autoImplicit false

namespace OsZero.Buf

open Links Runs

def bufnblk : Nat := 32768
def bufnhash : Nat := 65536

-- A block is named by its index in bufhdrtab.
abbrev Blk := Fin bufnblk

def tmhash32 (u : BitVec 32) : BitVec 32 :=
  let u := ((u >>> 16) ^^^ u) * 0x45d9f3b
  let u := ((u >>> 16) ^^^ u) * 0x45d9f3b
  (u >>> 16) ^^^ u

def bufmkhashkey (dev num : Int) : BitVec 32 := (BitVec.ofInt 32 dev <<< 24) ||| (BitVec.ofInt 32 num &&& 0xffffff)

def bufhash (val : BitVec 32) : Fin bufnhash := ⟨(tmhash32 val).toNat % bufnhash, Nat.mod_lt _ (by decide)⟩

structure Chain where
  lk : Bool
  list : Option Blk

-- tab holds the links of the hash chains, free the free list with the head
-- that ioinitbuf gives it.
structure Cache where
  dev : Blk → BitVec 16
  num : Blk → BitVec 32
  tab : Heap Blk
  chain : Fin bufnhash → Chain
  free : Deq.HeadDeq Blk

def Cache.setChain (cache : Cache) (key : Fin bufnhash) (chain : Chain) : Cache :=
  { cache with chain := fun other => if other = key then chain else cache.chain other }

-- fmtxlk spins on a lock that is held; with one thread nobody releases it.
def fmtxlk (cache : Cache) (key : Fin bufnhash) : Option Cache :=
  if (cache.chain key).lk then none else some (cache.setChain key { cache.chain key with lk := true })

def fmtxunlk (cache : Cache) (key : Fin bufnhash) : Cache :=
  cache.setChain key { cache.chain key with lk := false }

-- The first store goes through the chain's list pointer before it is tested.
-- lowmem says whether a store next to address 0 goes through; it reaches no
-- object of the cache then, and faults otherwise.
def chainstores (lowmem : Bool) (blk : Blk) (cache : Cache) : Option Blk → Option Cache
  | none => if lowmem then some cache else none
  | some buf => some { cache with tab := (cache.tab.setPrev buf none).setPrev buf (some blk) }

def bufaddblk (lowmem : Bool) (blk : Blk) (cache : Cache) : Option Cache := do
  let key := bufhash (bufmkhashkey (cache.dev blk).toInt (cache.num blk).toInt)
  let cache ← fmtxlk cache key
  let buf := (cache.chain key).list
  let cache ← chainstores lowmem blk cache buf
  let cache := { cache with tab := cache.tab.setNext blk buf }
  let cache := cache.setChain key { cache.chain key with list := buf }
  some (fmtxunlk cache key)

-- The chain walk; a walk that outlasts the number of blocks goes round.
def chainwalk (cache : Cache) (num : Int) : Nat → Option Blk → Option (Option Blk)
  | _, none => some none
  | 0, some _ => none
  | fuel + 1, some blk =>
      if (cache.num blk).toInt ≠ num then chainwalk cache num fuel (cache.tab.next blk) else some (some blk)

def chainskip (key : Fin bufnhash) (blk : Blk) (cache : Cache) : Cache :=
  match cache.tab.prev blk with
  | some before => { cache with tab := cache.tab.setNext before (cache.tab.next blk) }
  | none => cache.setChain key { cache.chain key with list := cache.tab.next blk }

def chainremove (key : Fin bufnhash) (blk : Blk) (cache : Cache) : Cache :=
  match (chainskip key blk cache).tab.next blk with
  | some after =>
      { chainskip key blk cache with
        tab := (chainskip key blk cache).tab.setPrev after ((chainskip key blk cache).tab.prev blk) }
  | none => chainskip key blk cache

-- Returns with the chain still locked.
def buffindblk (dev num : Int) (rel : Bool) (cache : Cache) : Option (Cache × Option Blk) := do
  let key := bufhash (bufmkhashkey dev num)
  let cache ← fmtxlk cache key
  let found ← chainwalk cache num bufnblk (cache.chain key).list
  match found with
  | some blk => if rel then some (chainremove key blk cache, found) else some (cache, found)
  | none => some (cache, none)

-- num is narrowed to the 32-bit bufval_t of the parameter.
def bufrel (dev : Int) (num : BitVec 32) (cache : Cache) : Option Cache := do
  let found ← buffindblk dev num.toInt true cache
  match found.2 with
  | some blk => do
      let free ← found.1.free.deqpush blk
      some { found.1 with free := free }
  | none => some found.1

-- The caller fills in the block's device and number and then adds it.
inductive Op where
  | add (blk : Blk) (dev : BitVec 16) (num : BitVec 32)
  | find (dev num : Int) (rel : Bool)
  | rel (dev : Int) (num : BitVec 32)

def bufStep (lowmem : Bool) (cache : Cache) : Op → Option (Cache × Option Blk)
  | .add blk dev num =>
      let cache := { cache with
        dev := fun other => if other = blk then dev else cache.dev other
        num := fun other => if other = blk then num else cache.num other }
      (bufaddblk lowmem blk cache).map (·, none)
  | .find dev num rel => buffindblk dev num rel cache
  | .rel dev num => (bufrel dev num cache).map (·, none)

-- What the cache stands for: the added blocks, newest first.
structure Entry where
  dev : BitVec 16
  num : BitVec 32
  blk : Blk
deriving DecidableEq

def Entry.names (entry : Entry) (dev num : Int) : Bool := entry.dev.toInt = dev ∧ entry.num.toInt = num

def Entry.key (entry : Entry) : Fin bufnhash := bufhash (bufmkhashkey entry.dev.toInt entry.num.toInt)

def listFind (entries : List Entry) (dev num : Int) (rel : Bool) : List Entry × Option Blk :=
  (if rel then entries.eraseP (·.names dev num) else entries, (entries.find? (·.names dev num)).map (·.blk))

def bufSpec (entries : List Entry) : Op → List Entry × Option Blk
  | .add blk dev num => (⟨dev, num, blk⟩ :: entries, none)
  | .find dev num rel => listFind entries dev num rel
  | .rel dev num => ((listFind entries dev num.toInt true).1, none)

def chainBlocks (entries : List Entry) (key : Fin bufnhash) : List Blk :=
  (entries.filter (·.key = key)).map (·.blk)

structure Represents (cache : Cache) (entries : List Entry) : Prop where
  fields : ∀ entry ∈ entries, cache.dev entry.blk = entry.dev ∧ cache.num entry.blk = entry.num
  unlocked : ∀ key, (cache.chain key).lk = false
  first : ∀ key, (cache.chain key).list = (chainBlocks entries key).head?
  ended : ∀ key, Ended cache.tab (chainBlocks entries key)

theorem fmtxlk_list (cache next : Cache) (key : Fin bufnhash) (locked : fmtxlk cache key = some next) :
    (next.chain key).list = (cache.chain key).list ∧ (next.chain key).lk = true := by
  unfold fmtxlk at locked
  split at locked
  · cases locked
  · cases locked
    simp [Cache.setChain]

theorem bufaddblk_keeps_list (lowmem : Bool) (blk : Blk) (cache next : Cache) (added : bufaddblk lowmem blk cache = some next) :
    (next.chain (bufhash (bufmkhashkey (cache.dev blk).toInt (cache.num blk).toInt))).list =
      (cache.chain (bufhash (bufmkhashkey (cache.dev blk).toInt (cache.num blk).toInt))).list := by
  unfold bufaddblk at added
  obtain ⟨locked, lock, added⟩ := Option.bind_eq_some_iff.mp added
  obtain ⟨list, -⟩ := fmtxlk_list cache locked _ lock
  obtain ⟨stored, -, added⟩ := Option.bind_eq_some_iff.mp added
  cases added
  simpa [fmtxunlk, Cache.setChain] using list

theorem chainremove_locked (key : Fin bufnhash) (blk : Blk) (cache : Cache) :
    ((chainremove key blk cache).chain key).lk = (cache.chain key).lk := by
  have skipped : ((chainskip key blk cache).chain key).lk = (cache.chain key).lk := by
    unfold chainskip
    split <;> simp [Cache.setChain]
  unfold chainremove
  split <;> exact skipped

theorem buffindblk_locked (dev num : Int) (rel : Bool) (cache next : Cache) (out : Option Blk)
    (found : buffindblk dev num rel cache = some (next, out)) :
    (next.chain (bufhash (bufmkhashkey dev num))).lk = true := by
  unfold buffindblk at found
  obtain ⟨locked, lock, found⟩ := Option.bind_eq_some_iff.mp found
  obtain ⟨-, held⟩ := fmtxlk_list cache locked _ lock
  obtain ⟨hit, -, found⟩ := Option.bind_eq_some_iff.mp found
  split at found
  · split at found
    · cases found
      rw [chainremove_locked]
      exact held
    · cases found
      exact held
  · cases found
    exact held

theorem bufrel_locked (dev : Int) (num : BitVec 32) (cache next : Cache) (released : bufrel dev num cache = some next) :
    (next.chain (bufhash (bufmkhashkey dev num.toInt))).lk = true := by
  unfold bufrel at released
  obtain ⟨⟨after, hit⟩, found, released⟩ := Option.bind_eq_some_iff.mp released
  have held := buffindblk_locked dev num.toInt true cache after hit found
  split at released
  · obtain ⟨free, -, released⟩ := Option.bind_eq_some_iff.mp released
    cases released
    exact held
  · cases released
    exact held

theorem add_not_represented (lowmem : Bool) (cache next : Cache) (entries : List Entry) (blk : Blk) (dev : BitVec 16)
    (num : BitVec 32) (out : Option Blk) (rep : Represents cache entries)
    (taken : bufStep lowmem cache (.add blk dev num) = some (next, out)) : ¬ Represents next (⟨dev, num, blk⟩ :: entries) := by
  intro nextRep
  obtain ⟨after, added, pair⟩ := Option.map_eq_some_iff.mp taken
  cases pair
  have kept : (next.chain (Entry.key ⟨dev, num, blk⟩)).list = (cache.chain (Entry.key ⟨dev, num, blk⟩)).list := by
    simpa only [if_true, Entry.key] using bufaddblk_keeps_list lowmem blk _ next added
  have first := nextRep.first (Entry.key ⟨dev, num, blk⟩)
  have before := rep.first (Entry.key ⟨dev, num, blk⟩)
  have nodup := (nextRep.ended (Entry.key ⟨dev, num, blk⟩)).nodup
  have head : chainBlocks (⟨dev, num, blk⟩ :: entries) (Entry.key ⟨dev, num, blk⟩) =
      blk :: chainBlocks entries (Entry.key ⟨dev, num, blk⟩) := by simp [chainBlocks]
  rw [head] at first nodup
  have inside : blk ∈ chainBlocks entries (Entry.key ⟨dev, num, blk⟩) := by
    apply List.mem_of_mem_head?
    rw [← before, ← kept]
    exact first
  exact (List.nodup_cons.mp nodup).1 inside

-- No call keeps the cache in step with the list: an added block is on no
-- chain, and a lookup or release leaves its chain locked.
theorem buf_step_exact (lowmem : Bool) (cache : Cache) (entries : List Entry) (op : Op) (rep : Represents cache entries)
    (_ : True) :
    (∃ next, bufStep lowmem cache op = some (next, (bufSpec entries op).2) ∧ Represents next (bufSpec entries op).1) ↔
      False := by
  refine ⟨?_, False.elim⟩
  rintro ⟨next, taken, nextRep⟩
  cases op with
  | add blk dev num => exact add_not_represented lowmem cache next entries blk dev num _ rep taken nextRep
  | find dev num rel =>
      have held := buffindblk_locked dev num rel cache next _ taken
      rw [nextRep.unlocked] at held
      cases held
  | rel dev num =>
      obtain ⟨after, released, pair⟩ := Option.map_eq_some_iff.mp taken
      cases pair
      have held := bufrel_locked dev num cache next released
      rw [nextRep.unlocked] at held
      cases held

def emptyCache (dev : Blk → BitVec 16) (num : Blk → BitVec 32) (tab : Heap Blk) (free : Deq.HeadDeq Blk) : Cache :=
  ⟨dev, num, tab, fun _ => ⟨false, none⟩, free⟩

theorem empty_cache_represents (dev : Blk → BitVec 16) (num : Blk → BitVec 32) (tab : Heap Blk) (free : Deq.HeadDeq Blk) :
    Represents (emptyCache dev num tab free) [] := by
  refine ⟨by simp, fun _ => rfl, fun _ => rfl, fun _ => ⟨.nil, ?_, ?_, .nil⟩⟩ <;> simp [chainBlocks]

theorem along_legal (entries : List Entry) (ops : List Op) : Along bufSpec (fun _ _ => True) entries ops := by
  induction ops generalizing entries with
  | nil => trivial
  | cons op ops ih => exact ⟨trivial, ih _⟩

theorem buf_cache_refines_iff (lowmem : Bool) (dev : Blk → BitVec 16) (num : Blk → BitVec 32) (tab : Heap Blk)
    (free : Deq.HeadDeq Blk) (ops : List Op) :
    Refines (bufStep lowmem) bufSpec Represents (emptyCache dev num tab free) [] ops ↔ ops = [] := by
  rw [refines_iff_along (bufStep lowmem) bufSpec Represents (fun _ _ => True) (fun _ _ => False)
    (buf_step_exact lowmem) _ [] ops (empty_cache_represents dev num tab free) (along_legal [] ops)]
  cases ops with
  | nil => exact ⟨fun _ => rfl, fun _ => trivial⟩
  | cons op ops => exact ⟨fun along => along.1.elim, fun same => by cases same⟩

def blank : Cache := emptyCache (fun _ => 0) (fun _ => 0) ⟨fun _ => none, fun _ => none⟩ ⟨⟨fun _ => none, fun _ => none⟩, none, none⟩

-- Block 3 is added as number 7 of device 1: the store through the empty
-- chain faults, or it returns and the lookup does not find the block.
theorem added_block_not_found :
    ¬ Refines (bufStep false) bufSpec Represents blank [] [.add ⟨3, by decide⟩ 1 7, .find 1 7 false] ∧
      ¬ Refines (bufStep true) bufSpec Represents blank [] [.add ⟨3, by decide⟩ 1 7, .find 1 7 false] := by
  constructor
  · rintro ⟨-, one, first, -⟩
    cases first
  · rintro ⟨-, one, first, -, two, second, -⟩
    cases first
    cases second

end OsZero.Buf

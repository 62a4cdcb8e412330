import OsZero.Libc.Move
import OsZero.UserMem.Arena

set_option autoImplicit false

namespace OsZero.UserMem

open Blocks Runs

-- What membufop answers for a pointer, and the class that the words at an
-- address hold which is no buffer's.
variable (sites : Sites) (find : Mem → Nat → BitVec 64) (stray : BitVec 64 → Memtype × Nat)

-- The descriptor is taken for the buffer with the number of its block in it.
def descclass (mem : Mem) (desc : BitVec 64) : Memtype × Nat :=
  if descid desc = 0 then ((mem.buf (descbuf desc)).geo.type, (mem.buf (descbuf desc)).geo.slot) else stray desc

def mallocUsableSize (mem : Mem) (ptr : Nat) : Nat :=
  let desc := if ptr ≠ 0 then find mem ptr else 0
  if desc ≠ 0 then membufblksize (descclass stray mem desc).1 (descclass stray mem desc).2 else 0

-- A result of 0 is NULL. _free drops the item that membufop finds then.
def realloc (mem : Mem) (bytes : Memory) (ptr size : Nat) (map : Option Nat) : Option (Mem × Memory × Nat) :=
  if ptr = 0 then (memalloc sites mem size memminalign map).map fun got => (got.1, bytes, got.2)
  else if size = 0 then (membufdel mem ptr (find mem ptr)).map fun mem => (mem, bytes, 0)
  else
    let desc := find mem ptr
    let buf := mem.buf (descbuf desc)
    if desc = 0 then some (mem, bytes, 0)
    else
      let sz := membufblksize buf.geo.type buf.geo.slot
      if size ≤ sz then some (mem, bytes, ptr)
      else
        (memalloc sites mem size memminalign map).bind fun got =>
          if got.2 = 0 then some (got.1, bytes, 0)
          else (membufdel got.1 ptr (find got.1 ptr)).map fun mem => (mem, Libc.memcpy 3 got.2 ptr (min sz size) bytes, got.2)

def callocsize (n size : Nat) : Nat :=
  let sz := n * size % 18446744073709551616
  if sz = 0 then sz + 1 else sz

def calloc (mem : Mem) (bytes : Memory) (n size : Nat) (map : Option Nat) : Option (Mem × Memory × Nat) :=
  let sz := n * size % 18446744073709551616
  if sz ≠ 0 ∧ sz < n * size % 18446744073709551616 then some (mem, bytes, 0)
  else (memalloc sites mem (callocsize n size) memminalign map).map fun got =>
    (got.1, if got.2 = 0 then bytes else filled got.2 (callocsize n size) 0 bytes, got.2)

-- The heap and the bytes that the program sees.
structure Space where
  arena : Arena
  bytes : Memory

inductive Apicall where
  | heap (call : Call)
  | calloc (n size : Nat) (map : Option Nat)
  | realloc (ptr size : Nat) (map : Option Nat)
  | usable (ptr : Nat)
  | store (adr : Nat) (byte : UInt8)

def resized (ptr size : Nat) (block : Block) : Block := if block.ptr = ptr then ⟨ptr, size, block.align⟩ else block

-- The blocks that the program holds when realloc has answered.
def reheld (live : List Block) (ptr size new : Nat) : List Block :=
  if new = 0 then if size = 0 then live.filter fun block => block.ptr ≠ ptr else live
  else if new = ptr then live.map (resized ptr size)
  else (⟨new, size, memminalign⟩ :: live).filter fun block => block.ptr ≠ ptr

def apicall (space : Space) : Apicall → Option Space
  | .heap call => (memcall sites space.arena call).map fun arena => ⟨arena, space.bytes⟩
  | .calloc n size map => (calloc sites space.arena.mem space.bytes n size map).map fun got =>
      ⟨handout space.arena (callocsize n size) memminalign (got.1, got.2.2), got.2.1⟩
  | .realloc ptr size map => (realloc sites find space.arena.mem space.bytes ptr size map).map fun got =>
      ⟨⟨got.1, reheld space.arena.live ptr size got.2.2⟩, got.2.1⟩
  | .usable _ => some space
  | .store adr byte => some ⟨space.arena, Function.update space.bytes adr byte⟩

-- The block is off the stack before, and its number stands on it once after.
def Freed (mem after : Mem) (adr id : Nat) : Prop :=
  ¬ Idle (mem.buf adr) id ∧ ∃! cur, ((after.buf adr).stktop ≤ cur ∧ cur < (after.buf adr).geo.nblk) ∧ (after.buf adr).stk cur = id

-- What realloc may do with block id of a buffer for size bytes.
inductive Reallocated (mem : Mem) (bytes : Memory) (block : Block) (adr id size : Nat) : Mem → Memory → Nat → Prop where
  | same (within : Within (mem.buf adr).geo id block.ptr size) (some_bytes : size ≠ 0) : Reallocated mem bytes block adr id size mem bytes block.ptr
  | moved (after : Mem) (copied : Memory) (new : Nat) (nonzero : new ≠ 0) (different : new ≠ block.ptr) (freed : Freed mem after adr id) (some_bytes : size ≠ 0)
      (held : ∃ other place, Held after ⟨new, size, memminalign⟩ other place ∧ (other ∈ mem.maps → Idle (mem.buf other) place))
      (content : ∀ i < min block.size size, copied (new + i) = bytes (block.ptr + i))
      (rest : ∀ a, a < new ∨ new + size ≤ a → copied a = bytes a) : Reallocated mem bytes block adr id size after copied new
  | failed (some_bytes : size ≠ 0) : Reallocated mem bytes block adr id size mem bytes 0
  | released (after : Mem) (none : size = 0) (freed : Freed mem after adr id) : Reallocated mem bytes block adr id size after bytes 0

-- What each call gives for a block of the program, in the slot it was carved from.
def Obeys (space : Space) : Apicall → Prop
  | .realloc ptr size map => ∀ block ∈ space.arena.live, block.ptr = ptr → ∃ adr id, Held space.arena.mem block adr id ∧
      ∃ after bytes new, realloc sites find space.arena.mem space.bytes ptr size map = some (after, bytes, new) ∧
        Reallocated space.arena.mem space.bytes block adr id size after bytes new
  | .usable ptr => ∀ block ∈ space.arena.live, block.ptr = ptr → ∃ adr id, Held space.arena.mem block adr id ∧
      Within (space.arena.mem.buf adr).geo id ptr (mallocUsableSize find stray space.arena.mem ptr)
  | _ => True

def Answers (mem : Mem) (ptr : Nat) (desc : BitVec 64) : Prop :=
  ∃ blk i, i < mem.hash.ntab blk ∧ mem.hash.adr blk i = memptrpage (BitVec.ofNat 64 ptr) ∧ mem.hash.val blk i = desc

-- What the program keeps to, what mapanon promises and what membufop is taken to
-- answer.
def Allowed (space : Space) : Apicall → Prop
  | .heap call => Legal space.arena call
  | .calloc n size map => ∀ adr, map = some adr → Fresh space.arena.mem adr (mapsize (callocsize n size) memminalign)
  | .realloc ptr size map => (∃ block ∈ space.arena.live, block.ptr = ptr) ∧ Answers space.arena.mem ptr (find space.arena.mem ptr) ∧
      (∀ adr, map = some adr → Fresh space.arena.mem adr (mapsize size memminalign)) ∧
      ∀ after new, memalloc sites space.arena.mem size memminalign map = some (after, new) → new ≠ 0 → Answers after ptr (find after ptr)
  | .usable ptr => (∃ block ∈ space.arena.live, block.ptr = ptr) ∧ Answers space.arena.mem ptr (find space.arena.mem ptr)
  | .store adr _ => ∃ block ∈ space.arena.live, block.ptr ≤ adr ∧ adr < block.ptr + block.size

-- No request is for more than 2^63 bytes, the blocks asked about are not aligned
-- beyond a page, and the descriptor that malloc_usable_size takes is the buffer.
def Plain (space : Space) : Apicall → Prop
  | .heap call => Bounded sites space.arena call
  | .calloc n size _ => n * size ≤ 9223372036854775808 ∧ Roomy sites space.arena.mem.hash
  | .realloc ptr size _ => (∀ block ∈ space.arena.live, block.ptr = ptr → block.align ≤ 4096) ∧ size ≤ 9223372036854775808 ∧
      Roomy sites space.arena.mem.hash
  | .usable ptr => (∀ block ∈ space.arena.live, block.ptr = ptr → block.align ≤ 4096) ∧ descid (find space.arena.mem ptr) = 0
  | .store _ _ => True

-- A block that is aligned to a page at most starts where its slot does.
def Started (mem : Mem) (block : Block) : Prop :=
  ∃ adr id, Held mem block adr id ∧ block.ptr = (mem.buf adr).geo.base + id * blksize (mem.buf adr).geo

structure Ready (arena : Arena) : Prop where
  kept : Kept arena
  started : ∀ block ∈ arena.live, block.align ≤ 4096 → Started arena.mem block

-- A request is served as one for all the bytes of the block that it gets, which
-- leave the block nowhere else to be.
theorem alloc_started (mem : Mem) (shelf : Membin → List Nat) (size align : Nat) (map : Option Nat) (laid : Laid mem) (binned : Binned mem shelf)
    (request : Request size align) (roomy : Roomy sites mem.hash) (fresh : ∀ adr, map = some adr → Fresh mem adr (mapsize size align)) :
    memalloc sites mem size align map = some (mem, 0) ∨
    ∃ after ptr adr id, memalloc sites mem size align map = some (after, ptr) ∧ ptr ≠ 0 ∧ Laid after ∧ (∃ others, Binned after others) ∧
      Handed size align mem after adr id ptr ∧ (align ≤ 4096 → ptr = (after.buf adr).geo.base + id * blksize (after.buf adr).geo) := by
  by_cases low : align ≤ 4096
  · obtain ⟨slots, holds⟩ := request_slots size align request
    obtain ⟨type, slot, least, most⟩ := slots_class _ _ slots
    have needed : memasz size align = max (max align memminalign) (max size memminblk) := if_pos (by unfold memminalign; omega)
    have blocksize : ∃ blk, blk = membufblksize (memtype (memasz size align)) (memslot (memasz size align)) := ⟨_, rfl⟩
    obtain ⟨blk, same⟩ := blocksize
    rw [← same] at holds type slot least most
    have whole : memasz blk align = blk := by
      unfold memasz memminalign memminblk
      dsimp only
      rw [if_pos (by omega)]
      omega
    have larger : Request blk align := ⟨request.power, by omega, by rw [whole]; exact most⟩
    have call : memalloc sites mem blk align map = memalloc sites mem size align map := by simp only [memalloc, whole, type, slot]
    rcases alloc_served sites mem shelf blk align map laid binned larger roomy (by rw [whole, type, slot]; exact fresh) with
      failed | ⟨after, ptr, answer, served, -⟩
    · exact Or.inl (call ▸ failed)
    · have nonzero := served_nonzero blk align mem after ptr served
      obtain ⟨laidAfter, binnedAfter, adr, id, handed⟩ := served
      have room := handed.room
      rw [whole, type, slot, ← same] at room
      obtain ⟨start, stop⟩ := handed.within
      have order : (id + 1) * blksize (after.buf adr).geo = id * blksize (after.buf adr).geo + blk := by rw [Nat.succ_mul, room]
      refine Or.inr ⟨after, ptr, adr, id, call ▸ answer, nonzero, laidAfter, binnedAfter, ?_, fun _ => by omega⟩
      exact ⟨handed.known, handed.member, handed.below, handed.idle, handed.gone, handed.others, ⟨start, by omega⟩, handed.aligned,
        room.trans same⟩
  · rcases alloc_served sites mem shelf size align map laid binned request roomy fresh with failed | ⟨after, ptr, answer, served, -⟩
    · exact Or.inl failed
    · have nonzero := served_nonzero size align mem after ptr served
      obtain ⟨laidAfter, binnedAfter, adr, id, handed⟩ := served
      exact Or.inr ⟨after, ptr, adr, id, answer, nonzero, laidAfter, binnedAfter, handed, fun page => absurd page low⟩

theorem handed_ready (arena : Arena) (after : Mem) (size align adr id new : Nat) (ready : Ready arena) (laid : Laid after)
    (binned : ∃ others, Binned after others) (handed : Handed size align arena.mem after adr id new)
    (start : align ≤ 4096 → new = (after.buf adr).geo.base + id * blksize (after.buf adr).geo) :
    Ready ⟨after, ⟨new, size, align⟩ :: arena.live⟩ := by
  refine ⟨⟨laid, binned, handed_housed size align arena.mem after arena.live adr id new laid ready.kept.housed handed⟩, ?_⟩
  intro block member low
  rcases List.mem_cons.mp member with rfl | old
  · exact ⟨adr, id, ⟨handed.member, handed.below, handed.gone, handed.within⟩, start low⟩
  · obtain ⟨other, place, held, first⟩ := ready.started block old low
    refine ⟨other, place, handed_stays size align arena.mem after adr id new handed block other place held, ?_⟩
    rw [(handed.known other held.member).2]
    exact first

theorem alloc_ready (arena : Arena) (size align : Nat) (map : Option Nat) (ready : Ready arena) (request : Request size align)
    (roomy : Roomy sites arena.mem.hash) (fresh : ∀ adr, map = some adr → Fresh arena.mem adr (mapsize size align)) :
    memalloc sites arena.mem size align map = some (arena.mem, 0) ∨
      ∃ after new adr id, memalloc sites arena.mem size align map = some (after, new) ∧ new ≠ 0 ∧
        Handed size align arena.mem after adr id new ∧ Ready ⟨after, ⟨new, size, align⟩ :: arena.live⟩ := by
  obtain ⟨shelf, binned⟩ := ready.kept.binned
  rcases alloc_started sites arena.mem shelf size align map ready.kept.laid binned request roomy fresh with
    failed | ⟨after, new, adr, id, call, nonzero, laid, others, handed, start⟩
  · exact Or.inl failed
  · exact Or.inr ⟨after, new, adr, id, call, nonzero, handed, handed_ready arena after size align adr id new ready laid others handed start⟩

theorem handout_ready (arena : Arena) (size align : Nat) (map : Option Nat) (ready : Ready arena) (request : Request size align)
    (roomy : Roomy sites arena.mem.hash) (fresh : ∀ adr, map = some adr → Fresh arena.mem adr (mapsize size align)) :
    ∃ got, memalloc sites arena.mem size align map = some got ∧ Ready (handout arena size align got) := by
  rcases alloc_ready sites arena size align map ready request roomy fresh with failed | ⟨after, new, adr, id, call, nonzero, -, readyAfter⟩
  · exact ⟨_, failed, ready⟩
  · refine ⟨_, call, ?_⟩
    rw [handout, if_neg nonzero]
    exact readyAfter

theorem returned_ready (arena : Arena) (after : Mem) (block : Block) (adr id : Nat) (member : block ∈ arena.live) (ready : Ready arena)
    (held : Held arena.mem block adr id) (returned : Returned arena.mem after adr id) :
    Ready ⟨after, arena.live.filter fun other => other.ptr ≠ block.ptr⟩ := by
  refine ⟨⟨returned.laid, returned.binned, returned_housed arena.mem after arena.live block adr id member ready.kept.housed held returned⟩, ?_⟩
  intro other inside low
  obtain ⟨old, different⟩ := List.mem_filter.mp inside
  obtain ⟨place, number, there, first⟩ := ready.started other old low
  have apart : block ≠ other := by
    rintro rfl
    simp at different
  refine ⟨place, number, returned_stays arena.mem after arena.live block other adr id place number member old apart ready.kept.housed held
    returned there, ?_⟩
  rw [returned.geo]
  exact first

theorem memcall_ready (arena : Arena) (call : Call) (ready : Ready arena) (legal : Legal arena call) (bounded : Bounded sites arena call) :
    ∃ next, memcall sites arena call = some next ∧ Ready next := by
  cases call with
  | malloc size map =>
      obtain ⟨got, answer, readyAfter⟩ := handout_ready sites arena size memminalign map ready (malloc_request size bounded.1) bounded.2 legal.2
      exact ⟨_, by rw [memcall, answer, Option.map_some], readyAfter⟩
  | memalign align size map =>
      rw [memcall]
      split
      · obtain ⟨got, answer, readyAfter⟩ := handout_ready sites arena size align map ready
          (memalign_request align size legal.1 legal.2.1 bounded.1) bounded.2 legal.2.2
        exact ⟨_, by rw [answer, Option.map_some], readyAfter⟩
      · exact ⟨arena, rfl, ready⟩
  | free ptr =>
      obtain ⟨block, member, rfl⟩ := legal
      obtain ⟨adr, id, held⟩ := ready.kept.housed.held block member
      obtain ⟨shelf, binned⟩ := ready.kept.binned
      have nonzero : block.ptr ≠ 0 := by
        have inside := held_inside arena.mem block adr id ready.kept.laid held
        omega
      obtain ⟨after, release, returned⟩ := free_returned arena.mem shelf adr id block.ptr _ ready.kept.laid binned held.member held.below
        held.within (least_size block.size).1 held.busy
      exact ⟨_, by rw [memcall, if_neg nonzero, release, Option.map_some], returned_ready arena after block adr id member ready held returned⟩

theorem answers_describes (mem : Mem) (ptr : Nat) (desc : BitVec 64) (laid : Laid mem) (answers : Answers mem ptr desc) :
    Describes mem (memptrpage (BitVec.ofNat 64 ptr)) desc := by
  obtain ⟨blk, i, inside, page, value⟩ := answers
  rw [← page, ← value]
  exact laid.records.items blk i inside

-- What the descriptor of a live block says about the block.
theorem answers_block (mem : Mem) (block : Block) (adr id : Nat) (desc : BitVec 64) (laid : Laid mem) (held : Held mem block adr id)
    (answers : Answers mem block.ptr desc) : descbuf desc = adr ∧ desc ≠ 0 ∧
      (if (mem.buf adr).geo.type ≠ .page then membufblkid (mem.buf adr).geo block.ptr else descid desc) = id := by
  obtain ⟨same, number⟩ := describes_block mem adr id block.ptr _ desc laid held.member held.below held.within (least_size block.size).1
    (answers_describes mem block.ptr desc laid answers)
  refine ⟨same, ?_, number⟩
  rintro rfl
  have positive := (laid.made adr held.member).positive
  have zero : descbuf 0 = 0 := by decide
  omega

theorem del_freed (arena : Arena) (block : Block) (adr id : Nat) (desc : BitVec 64) (kept : Kept arena) (held : Held arena.mem block adr id)
    (answers : Answers arena.mem block.ptr desc) :
    ∃ after, membufdel arena.mem block.ptr desc = some after ∧ Returned arena.mem after adr id ∧ Freed arena.mem after adr id := by
  obtain ⟨shelf, binned⟩ := kept.binned
  obtain ⟨same, -, number⟩ := answers_block arena.mem block adr id desc kept.laid held answers
  obtain ⟨after, others, buf, release, pushed, idle, still, moved, -⟩ := relblk_returned arena.mem shelf adr id binned held.member
    (kept.laid.stacked adr held.member) held.below held.busy
  have returned := pushed_returned arena.mem after adr id buf kept.laid pushed still ⟨others, moved⟩
  refine ⟨after, by rw [del_release arena.mem block.ptr desc adr id same number, release], returned, held.busy, ?_⟩
  have free : Idle (after.buf adr) id := by
    rw [idle_still _ _ still, taken_here]
    exact idle
  obtain ⟨cur, low, high, there⟩ := free
  refine ⟨cur, ⟨⟨low, high⟩, there⟩, ?_⟩
  rintro other ⟨⟨otherLow, otherHigh⟩, otherThere⟩
  have stacked := returned.laid.stacked adr (by rw [returned.maps]; exact held.member)
  exact stacked.distinct other cur otherLow otherHigh low high (otherThere.trans there.symm)

theorem held_same (mem : Mem) (one two : Block) (adr other id place : Nat) (laid : Laid mem) (left : Held mem one adr id)
    (right : Held mem two other place) (same : one.ptr = two.ptr) : adr = other ∧ id = place := by
  have shrunk : ∀ block : Block, ∀ a i, Held mem block a i → Held mem ⟨block.ptr, 0, 0⟩ a i := by
    intro block a i held
    obtain ⟨low, high⟩ := held.within
    exact ⟨held.member, held.below, held.busy, low, by dsimp only; omega⟩
  have first := shrunk one adr id left
  rw [same] at first
  exact held_unique mem _ adr other id place laid first (shrunk two other place right)

theorem resized_kept (ptr size : Nat) (block : Block) : (resized ptr size block).ptr = block.ptr ∧ (resized ptr size block).align = block.align := by
  unfold resized
  split
  next same => exact ⟨same.symm, rfl⟩
  next => exact ⟨rfl, rfl⟩

theorem resized_ready (arena : Arena) (block : Block) (size adr id : Nat) (ready : Ready arena) (held : Held arena.mem block adr id)
    (start : block.ptr = (arena.mem.buf adr).geo.base + id * blksize (arena.mem.buf adr).geo)
    (fits : size ≤ blksize (arena.mem.buf adr).geo) : Ready ⟨arena.mem, arena.live.map (resized block.ptr size)⟩ := by
  obtain ⟨⟨laid, binned, housed, aligned, apart⟩, started⟩ := ready
  have there : ∀ other, ∀ a i, Held arena.mem other a i → Held arena.mem (resized block.ptr size other) a i := by
    intro other a i now
    unfold resized
    split
    next same =>
      obtain ⟨rfl, rfl⟩ := held_same arena.mem other block a adr i id laid now held same
      obtain ⟨low, high⟩ := held.within
      rw [Nat.succ_mul] at high
      refine ⟨held.member, held.below, held.busy, low, ?_⟩
      rw [Nat.succ_mul]
      dsimp only
      omega
    next => exact now
  have back : ∀ other ∈ arena.live, ∀ a i, Held arena.mem (resized block.ptr size other) a i → Held arena.mem other a i := by
    intro other member a i now
    obtain ⟨b, j, before⟩ := housed other member
    obtain ⟨rfl, rfl⟩ := held_same arena.mem _ _ a b i j laid now before (resized_kept block.ptr size other).1
    exact before
  refine ⟨⟨laid, binned, ?_, ?_, ?_⟩, ?_⟩
  · intro now member
    obtain ⟨other, inside, rfl⟩ := List.mem_map.mp member
    obtain ⟨a, i, before⟩ := housed other inside
    exact ⟨a, i, there other a i before⟩
  · intro now member
    obtain ⟨other, inside, rfl⟩ := List.mem_map.mp member
    obtain ⟨ptr, align⟩ := resized_kept block.ptr size other
    rw [ptr, align]
    exact aligned other inside
  · apply List.pairwise_map.mpr
    apply apart.imp_of_mem
    intro one two first second different a i left right
    exact different a i (back one first a i left) (back two second a i right)
  · intro now member low
    obtain ⟨other, inside, rfl⟩ := List.mem_map.mp member
    obtain ⟨ptr, align⟩ := resized_kept block.ptr size other
    rw [align] at low
    obtain ⟨a, i, before, first⟩ := started other inside low
    exact ⟨a, i, there other a i before, ptr.trans first⟩

section Live

variable (arena : Arena) (bytes : Memory) (block : Block) (adr id size : Nat) (map : Option Nat)
variable (ready : Ready arena) (held : Held arena.mem block adr id)
variable (answers : Answers arena.mem block.ptr (find arena.mem block.ptr))
variable (start : block.ptr = (arena.mem.buf adr).geo.base + id * blksize (arena.mem.buf adr).geo)
include ready held

theorem live_nonzero : block.ptr ≠ 0 := by
  have inside := held_inside arena.mem block adr id ready.kept.laid held
  omega

include answers

theorem realloc_released (member : block ∈ arena.live) : ∃ after, realloc sites find arena.mem bytes block.ptr 0 map = some (after, bytes, 0) ∧
    Reallocated arena.mem bytes block adr id 0 after bytes 0 ∧ Ready ⟨after, reheld arena.live block.ptr 0 0⟩ := by
  obtain ⟨after, release, returned, freed⟩ := del_freed arena block adr id _ ready.kept held answers
  refine ⟨after, ?_, .released after rfl freed, returned_ready arena after block adr id member ready held returned⟩
  rw [realloc, if_neg (live_nonzero arena block adr id ready held), if_pos rfl, release, Option.map_some]

-- The tests before the first one of the size.
theorem realloc_sized (nonempty : size ≠ 0) : realloc sites find arena.mem bytes block.ptr size map =
    if size ≤ blksize (arena.mem.buf adr).geo then some (arena.mem, bytes, block.ptr)
    else (memalloc sites arena.mem size memminalign map).bind fun got =>
      if got.2 = 0 then some (got.1, bytes, 0)
      else (membufdel got.1 block.ptr (find got.1 block.ptr)).map fun mem =>
        (mem, Libc.memcpy 3 got.2 block.ptr (min (blksize (arena.mem.buf adr).geo) size) bytes, got.2) := by
  obtain ⟨same, nonzero, -⟩ := answers_block arena.mem block adr id _ ready.kept.laid held answers
  rw [realloc, if_neg (live_nonzero arena block adr id ready held), if_neg nonempty]
  dsimp only
  rw [if_neg nonzero, same]
  rfl

include start

theorem realloc_same (nonempty : size ≠ 0) (fits : size ≤ blksize (arena.mem.buf adr).geo) :
    realloc sites find arena.mem bytes block.ptr size map = some (arena.mem, bytes, block.ptr) ∧
      Reallocated arena.mem bytes block adr id size arena.mem bytes block.ptr ∧ Ready ⟨arena.mem, reheld arena.live block.ptr size block.ptr⟩ := by
  have nonzero := live_nonzero arena block adr id ready held
  refine ⟨?_, .same ⟨by omega, by rw [Nat.succ_mul]; omega⟩ nonempty, ?_⟩
  · rw [realloc_sized sites find arena bytes block adr id size map ready held answers nonempty, if_pos fits]
  · rw [reheld, if_neg nonzero, if_pos rfl]
    exact resized_ready arena block size adr id ready held start fits

omit ready answers in
-- The new block is none of those that the program held, and the whole of the old one
-- lies beside it.
theorem new_beside (after : Mem) (new other place : Nat) (laid : Laid after) (handed : Handed size memminalign arena.mem after other place new) :
    new ≠ block.ptr ∧ (block.ptr + blksize (arena.mem.buf adr).geo ≤ new ∨ new + size ≤ block.ptr) := by
  have old := handed_stays size memminalign arena.mem after other place new handed block adr id held
  have fresh : Held after ⟨new, size, memminalign⟩ other place := ⟨handed.member, handed.below, handed.gone, handed.within⟩
  have least := (least_size block.size).1
  obtain ⟨low, high⟩ := held.within
  rw [Nat.succ_mul] at high
  have whole : Held after ⟨block.ptr, blksize (arena.mem.buf adr).geo, block.align⟩ adr id := by
    refine ⟨old.member, old.below, old.busy, ?_⟩
    rw [(handed.known adr held.member).2]
    refine ⟨low, ?_⟩
    rw [Nat.succ_mul]
    unfold memminblk at high ⊢
    dsimp only
    omega
  have apart : ¬ (adr = other ∧ id = place) := by
    rintro ⟨rfl, rfl⟩
    exact held.busy (handed.idle held.member)
  constructor
  · intro same
    exact apart (held_same after _ _ adr other id place laid old fresh same.symm)
  · apply held_disjoint after _ _ laid ⟨adr, id, whole⟩ ⟨other, place, fresh⟩
    intro a i left right
    obtain ⟨rfl, rfl⟩ := held_same after _ _ a adr i id laid left whole rfl
    obtain ⟨rfl, rfl⟩ := held_same after _ _ a other i place laid right fresh rfl
    exact apart ⟨rfl, rfl⟩

theorem realloc_moved (member : block ∈ arena.live) (nonempty : size ≠ 0) (bound : size ≤ 9223372036854775808)
    (roomy : Roomy sites arena.mem.hash) (fresh : ∀ adr, map = some adr → Fresh arena.mem adr (mapsize size memminalign))
    (later : ∀ after new, memalloc sites arena.mem size memminalign map = some (after, new) → new ≠ 0 →
      Answers after block.ptr (find after block.ptr)) (large : ¬ size ≤ blksize (arena.mem.buf adr).geo) :
    ∃ after copied new, realloc sites find arena.mem bytes block.ptr size map = some (after, copied, new) ∧
      Reallocated arena.mem bytes block adr id size after copied new ∧ Ready ⟨after, reheld arena.live block.ptr size new⟩ := by
  have call := realloc_sized sites find arena bytes block adr id size map ready held answers nonempty
  rw [if_neg large] at call
  have asz : memasz size memminalign ≤ 9223372036854775808 := by
    unfold memasz memminalign memminblk
    dsimp only
    rw [if_pos (by decide)]
    omega
  rcases alloc_ready sites arena size memminalign map ready (malloc_request size asz) roomy fresh with
    failed | ⟨middle, new, other, place, answer, nonzero, handed, between⟩
  · rw [failed, Option.bind_some, if_pos rfl] at call
    refine ⟨_, _, _, call, .failed nonempty, ?_⟩
    rw [reheld, if_pos rfl, if_neg nonempty]
    exact ready
  · obtain ⟨different, beside⟩ := new_beside arena block adr id size held start middle new other place between.kept.laid handed
    have old := handed_stays size memminalign arena.mem middle other place new handed block adr id held
    obtain ⟨after, release, returned, freed⟩ := del_freed _ block adr id _ between.kept old (later middle new answer nonzero)
    rw [answer, Option.bind_some, if_neg nonzero, release, Option.map_some, Libc.memcpy_moved 3 _ _ _ _ (by omega)] at call
    have inside : (⟨new, size, memminalign⟩ : Block) ∈ (⟨new, size, memminalign⟩ :: arena.live : List Block) := List.mem_cons_self
    have now : Held middle ⟨new, size, memminalign⟩ other place := ⟨handed.member, handed.below, handed.gone, handed.within⟩
    have moved := returned_stays middle after _ block ⟨new, size, memminalign⟩ adr id other place (List.mem_cons_of_mem _ member) inside
      (fun same => different (congrArg Block.ptr same).symm) between.kept.housed old returned now
    have wide := held.within.2
    rw [Nat.succ_mul] at wide
    refine ⟨_, _, _, call, .moved after _ new nonzero different ⟨held.busy, freed.2⟩ nonempty ⟨other, place, moved, handed.idle⟩ ?_ ?_, ?_⟩
    · intro i low
      rw [Blocks.moved, if_pos (by omega), Nat.add_sub_cancel_left]
    · intro a outside
      rw [Blocks.moved, if_neg (by omega)]
    · rw [reheld, if_neg nonzero, if_neg different]
      exact returned_ready _ after block adr id (List.mem_cons_of_mem _ member) between old returned

theorem usable_within (number : descid (find arena.mem block.ptr) = 0) :
    Within (arena.mem.buf adr).geo id block.ptr (mallocUsableSize find stray arena.mem block.ptr) := by
  obtain ⟨same, nonzero, -⟩ := answers_block arena.mem block adr id _ ready.kept.laid held answers
  have value : mallocUsableSize find stray arena.mem block.ptr = blksize (arena.mem.buf adr).geo := by
    rw [mallocUsableSize, if_pos (live_nonzero arena block adr id ready held), if_pos nonzero, descclass, if_pos number, same]
    rfl
  rw [value]
  exact ⟨by omega, by rw [Nat.succ_mul]; omega⟩

end Live

theorem calloc_size (n size : Nat) (bound : n * size ≤ 9223372036854775808) : memasz (callocsize n size) memminalign ≤ 9223372036854775808 := by
  have least : callocsize n size ≤ 9223372036854775808 := by
    unfold callocsize
    dsimp only
    split <;> omega
  unfold memasz memminalign memminblk
  dsimp only
  rw [if_pos (by decide)]
  omega

theorem apicall_ready (space : Space) (call : Apicall) (ready : Ready space.arena)
    (meets : Allowed sites find space call ∧ Plain sites find space call) :
    Obeys sites find stray space call ∧ ∃ next, apicall sites find space call = some next ∧ Ready next.arena := by
  obtain ⟨allowed, plain⟩ := meets
  cases call with
  | heap call =>
      obtain ⟨next, answer, readyAfter⟩ := memcall_ready sites space.arena call ready allowed plain
      exact ⟨trivial, ⟨next, space.bytes⟩, by rw [apicall, answer, Option.map_some], readyAfter⟩
  | calloc n size map =>
      obtain ⟨got, answer, readyAfter⟩ := handout_ready sites space.arena (callocsize n size) memminalign map ready
        (malloc_request _ (calloc_size n size plain.1)) plain.2 allowed
      refine ⟨trivial, ⟨handout space.arena (callocsize n size) memminalign got,
        if got.2 = 0 then space.bytes else filled got.2 (callocsize n size) 0 space.bytes⟩, ?_, readyAfter⟩
      rw [apicall, calloc, if_neg (fun wraps => Nat.lt_irrefl _ wraps.2), answer]
      rfl
  | realloc ptr size map =>
      obtain ⟨live, answers, fresh, later⟩ := allowed
      obtain ⟨low, bound, roomy⟩ := plain
      have serves : ∀ block ∈ space.arena.live, block.ptr = ptr → ∃ adr id, Held space.arena.mem block adr id ∧ ∃ after bytes new,
          realloc sites find space.arena.mem space.bytes ptr size map = some (after, bytes, new) ∧
            Reallocated space.arena.mem space.bytes block adr id size after bytes new ∧ Ready ⟨after, reheld space.arena.live ptr size new⟩ := by
        rintro block member rfl
        obtain ⟨adr, id, held, start⟩ := ready.started block member (low block member rfl)
        refine ⟨adr, id, held, ?_⟩
        by_cases none : size = 0
        · subst none
          obtain ⟨after, answer⟩ := realloc_released sites find space.arena space.bytes block adr id map ready held answers member
          exact ⟨after, _, _, answer⟩
        · by_cases fits : size ≤ blksize (space.arena.mem.buf adr).geo
          · exact ⟨_, _, _, realloc_same sites find space.arena space.bytes block adr id size map ready held answers start none fits⟩
          · exact realloc_moved sites find space.arena space.bytes block adr id size map ready held answers start member none bound roomy
              fresh later fits
      constructor
      · intro block member same
        obtain ⟨adr, id, held, after, bytes, new, answer, does, -⟩ := serves block member same
        exact ⟨adr, id, held, after, bytes, new, answer, does⟩
      · obtain ⟨block, member, same⟩ := live
        obtain ⟨adr, id, held, after, bytes, new, answer, -, readyAfter⟩ := serves block member same
        exact ⟨_, by rw [apicall, answer, Option.map_some], readyAfter⟩
  | usable ptr =>
      obtain ⟨-, answers⟩ := allowed
      obtain ⟨low, number⟩ := plain
      refine ⟨?_, space, rfl, ready⟩
      rintro block member rfl
      obtain ⟨adr, id, held, start⟩ := ready.started block member (low block member rfl)
      exact ⟨adr, id, held, usable_within find stray space.arena block adr id ready held answers start number⟩
  | store adr byte => exact ⟨trivial, _, rfl, ready⟩

theorem realloc_keeps_blocks (bytes : Memory) (calls : List Apicall) (allowed : Meets (apicall sites find) (Allowed sites find) ⟨emptyarena, bytes⟩ calls)
    (plain : Meets (apicall sites find) (Plain sites find) ⟨emptyarena, bytes⟩ calls) :
    Holds (apicall sites find) (fun space => Good space.arena) (Obeys sites find stray) ⟨emptyarena, bytes⟩ calls :=
  holds_mono (apicall sites find) (fun space => Ready space.arena) (fun space => Good space.arena) _ (fun space ready => kept_good space.arena ready.kept)
    ⟨emptyarena, bytes⟩ calls
    (invariant_holds (apicall sites find) (fun space => Ready space.arena) _ _ (apicall_ready sites find stray) ⟨emptyarena, bytes⟩ calls
      ⟨emptyarena_kept, fun _ member => absurd member List.not_mem_nil⟩
      (meets_and (apicall sites find) (Allowed sites find) (Plain sites find) ⟨emptyarena, bytes⟩ calls allowed plain))

-- What membufop has for the addresses from each of two mappings on.
def lookOf (_ : Mem) (ptr : Nat) : BitVec 64 := if ptr < 0x200000 then 0x100000#64 else 0x200000#64

def nostray (_ : BitVec 64) : Memtype × Nat := (.small, 0)

theorem first_roomy (got : Mem × Nat) (call : memalloc lowSites emptymem 100 16 (some 0x100000) = some got) : Roomy lowSites got.1.hash := by
  have filed : (memalloc lowSites emptymem 100 16 (some 0x100000)).map (fun got => got.1.hash) = memsetbuf lowSites emptyhash 0x101000 0x100000 0 := rfl
  rw [call, Option.map_some] at filed
  obtain ⟨added, add, same⟩ := Option.map_eq_some_iff.mp filed.symm
  intro blk _
  apply early_inside
  by_cases empty : got.1.hash.ntab blk = 0
  · omega
  · rw [← same] at empty ⊢
    have single := (first_add_alone lowSites _ _ _ added.1 added.2 add blk 0 (by omega)).2
    omega

theorem first_block (space next : Space) (start : space.arena = emptyarena)
    (call : apicall lowSites lookOf space (.heap (.malloc 100 (some 0x100000))) = some next) :
    next.arena.live = [⟨0x101000, 100, 16⟩] ∧ next.arena.mem.maps = [0x100000] ∧ (next.arena.mem.buf 0x100000).geo.size = 135168 ∧
      Answers next.arena.mem 0x101000 0x100000#64 ∧ Roomy lowSites next.arena.mem.hash := by
  obtain ⟨arena, answer, rfl⟩ := Option.map_eq_some_iff.mp call
  rw [start] at answer
  have value : (memcall lowSites emptyarena (.malloc 100 (some 0x100000))).map (fun arena =>
      (arena.live, arena.mem.maps, (arena.mem.buf 0x100000).geo.size, arena.mem.hash.ntab 0, arena.mem.hash.adr 0 0, arena.mem.hash.val 0 0)) =
        some ([⟨0x101000, 100, 16⟩], [0x100000], 135168, 1, 0x101#64, 0x100000#64) := by decide +kernel
  simp only [answer, Option.map_some, Option.some.injEq, Prod.mk.injEq] at value
  obtain ⟨live, maps, size, ntab, page, desc⟩ := value
  refine ⟨live, maps, size, ⟨0, 0, by rw [ntab]; decide, page, desc⟩, ?_⟩
  rw [memcall] at answer
  obtain ⟨got, served, rfl⟩ := Option.map_eq_some_iff.mp answer
  exact first_roomy got served

theorem first_meets (bytes : Memory) : Allowed lowSites lookOf ⟨emptyarena, bytes⟩ (.heap (.malloc 100 (some 0x100000))) ∧
    Plain lowSites lookOf ⟨emptyarena, bytes⟩ (.heap (.malloc 100 (some 0x100000))) := by
  refine ⟨⟨by decide, fun adr same => ?_⟩, by decide, empty_roomy lowSites⟩
  cases same
  exact fresh_alone _ _ _ rfl (by decide) (by decide) (by decide +kernel)

-- A size of 0 leaves the program without the block, and an alignment beyond a page
-- moves the block from the start of its slot but not the end that is told.
theorem realloc_zero_releases :
    (∃ space, apicall lowSites lookOf ⟨emptyarena, fun _ => 0⟩ (.heap (.malloc 100 (some 0x100000))) = some space ∧
      space.arena.live = [⟨0x101000, 100, 16⟩] ∧ ∃ adr id, Held space.arena.mem ⟨0x101000, 100, 16⟩ adr id ∧
        ∃ after, realloc lowSites lookOf space.arena.mem space.bytes 0x101000 0 none = some (after, space.bytes, 0) ∧ Freed space.arena.mem after adr id) ∧
      ∃ arena, memcall lowSites emptyarena (.memalign 8192 100 (some 0x100000)) = some arena ∧ arena.live = [⟨0x102000, 100, 8192⟩] ∧
        Answers arena.mem 0x102000 (lookOf arena.mem 0x102000) ∧
          ∀ id, ¬ Within (arena.mem.buf 0x100000).geo id 0x102000 (mallocUsableSize lookOf nostray arena.mem 0x102000) := by
  constructor
  · obtain ⟨-, space, call, ready⟩ := apicall_ready lowSites lookOf nostray ⟨emptyarena, fun _ => 0⟩ _
      ⟨emptyarena_kept, fun _ member => absurd member List.not_mem_nil⟩ (first_meets fun _ => 0)
    obtain ⟨live, -, -, answers, -⟩ := first_block _ space rfl call
    have member : (⟨0x101000, 100, 16⟩ : Block) ∈ space.arena.live := by rw [live]; exact List.mem_cons_self
    obtain ⟨adr, id, held⟩ := ready.kept.housed.held _ member
    obtain ⟨after, release, -, freed⟩ := del_freed space.arena _ adr id _ ready.kept held answers
    refine ⟨space, call, live, adr, id, held, after, ?_, freed⟩
    rw [realloc, if_neg (by decide), if_pos rfl]
    exact (congrArg (Option.map _) release).trans rfl
  · have value : (memcall lowSites emptyarena (.memalign 8192 100 (some 0x100000))).map (fun arena =>
        ((arena.live, arena.mem.hash.ntab 0, arena.mem.hash.adr 0 0, arena.mem.hash.val 0 0), (arena.mem.buf 0x100000).geo.base,
          blksize (arena.mem.buf 0x100000).geo, mallocUsableSize lookOf nostray arena.mem 0x102000)) =
          some (([⟨0x102000, 100, 8192⟩], 1, 0x102#64, 0x100000#64), 0x101000, 12288, 12288) := by decide +kernel
    obtain ⟨arena, call, same⟩ := Option.map_eq_some_iff.mp value
    simp only [Prod.mk.injEq] at same
    obtain ⟨⟨live, ntab, page, desc⟩, base, block, usable⟩ := same
    refine ⟨arena, call, live, ⟨0, 0, by rw [ntab]; decide, page, desc⟩, ?_⟩
    rintro id ⟨low, high⟩
    rw [base, block] at low high
    rw [usable] at high
    omega

theorem realloc_keeps_blocks_moved :
    Meets (apicall lowSites lookOf) (Allowed lowSites lookOf) ⟨emptyarena, fun _ => 0⟩
        [.heap (.malloc 100 (some 0x100000)), .realloc 0x101000 200 (some 0x200000)] ∧
      Holds (apicall lowSites lookOf) (fun space => Good space.arena) (Obeys lowSites lookOf nostray) ⟨emptyarena, fun _ => 0⟩
        [.heap (.malloc 100 (some 0x100000)), .realloc 0x101000 200 (some 0x200000)] := by
  have allowed : Meets (apicall lowSites lookOf) (Allowed lowSites lookOf) ⟨emptyarena, fun _ => 0⟩
      [.heap (.malloc 100 (some 0x100000)), .realloc 0x101000 200 (some 0x200000)] := by
    refine ⟨(first_meets fun _ => 0).1, fun one call => ⟨?_, fun _ _ => trivial⟩⟩
    obtain ⟨live, maps, size, answers, -⟩ := first_block _ one rfl call
    refine ⟨⟨_, by rw [live]; exact List.mem_cons_self, rfl⟩, answers, ?_, ?_⟩
    · intro adr same
      cases same
      refine ⟨by decide, by decide, by decide +kernel, fun other member => Or.inr ?_⟩
      rw [maps] at member
      cases List.mem_singleton.mp member
      rw [size]
      decide
    · intro after new answer _
      have value : ((apicall lowSites lookOf ⟨emptyarena, fun _ => 0⟩ (.heap (.malloc 100 (some 0x100000)))).bind fun one =>
          memalloc lowSites one.arena.mem 200 memminalign (some 0x200000)).map
            (fun got => (got.1.hash.ntab 0, got.1.hash.adr 0 0, got.1.hash.val 0 0)) = some (1, 0x101#64, 0x100000#64) := by decide +kernel
      simp only [call, Option.bind_some, answer, Option.map_some, Option.some.injEq, Prod.mk.injEq] at value
      obtain ⟨ntab, page, desc⟩ := value
      exact ⟨0, 0, by rw [ntab]; decide, page, desc⟩
  refine ⟨allowed, realloc_keeps_blocks lowSites lookOf nostray _ _ allowed ?_⟩
  refine ⟨(first_meets fun _ => 0).2, fun one call => ⟨?_, fun _ _ => trivial⟩⟩
  obtain ⟨live, -, -, -, roomy⟩ := first_block _ one rfl call
  refine ⟨fun block member _ => ?_, by decide, roomy⟩
  rw [live] at member
  cases List.mem_singleton.mp member
  decide

end OsZero.UserMem

import OsZero.UserMem.PageMap
import OsZero.UserMem.Release

set_option autoImplicit false

namespace OsZero.UserMem

open Runs

-- The block has id of a buffer to itself: no other block can get it before it
-- is back on the stack.
structure Held (mem : Mem) (block : Block) (adr id : Nat) : Prop where
  member : adr ∈ mem.maps
  below : id < (mem.buf adr).geo.nblk
  busy : ¬ Idle (mem.buf adr) id
  within : Within (mem.buf adr).geo id block.ptr (max block.size memminblk)

structure Housed (mem : Mem) (live : List Block) : Prop where
  held : ∀ block ∈ live, ∃ adr id, Held mem block adr id
  aligned : ∀ block ∈ live, block.ptr % block.align = 0
  apart : live.Pairwise fun one two => ∀ adr id, Held mem one adr id → ¬ Held mem two adr id

structure Kept (arena : Arena) : Prop where
  laid : Laid arena.mem
  binned : ∃ shelf, Binned arena.mem shelf
  housed : Housed arena.mem arena.live

structure Good (arena : Arena) : Prop where
  disjoint : arena.live.Pairwise fun one two => one.ptr + one.size ≤ two.ptr ∨ two.ptr + two.size ≤ one.ptr
  aligned : ∀ block ∈ arena.live, block.ptr % block.align = 0
  placed : ∀ block ∈ arena.live, ∃ adr ∈ arena.mem.maps, ∃ id < (arena.mem.buf adr).geo.nblk,
    Within (arena.mem.buf adr).geo id block.ptr block.size ∧
      block.ptr + block.size ≤ (arena.mem.buf adr).geo.base + (arena.mem.buf adr).geo.nblk * blksize (arena.mem.buf adr).geo

theorem held_inside (mem : Mem) (block : Block) (adr id : Nat) (laid : Laid mem) (held : Held mem block adr id) :
    adr + 4096 ≤ block.ptr ∧ block.ptr + max block.size memminblk ≤ adr + (mem.buf adr).geo.size := by
  have made := laid.made adr held.member
  have inside := (cell_inside adr _ made id held.below).2
  have base := made.base
  have start := Nat.zero_le (id * blksize (mem.buf adr).geo)
  obtain ⟨low, high⟩ := held.within
  omega

theorem least_size (size : Nat) : 0 < max size memminblk ∧ size ≤ max size memminblk := by
  unfold memminblk
  omega

theorem held_unique (mem : Mem) (block : Block) (one two first second : Nat) (laid : Laid mem) (left : Held mem block one first)
    (right : Held mem block two second) : one = two ∧ first = second := by
  have nonempty := (least_size block.size).1
  have same : one = two := by
    by_contra different
    have here := held_inside mem block one first laid left
    have there := held_inside mem block two second laid right
    have apart := laid.apart one left.member two right.member different
    omega
  subst same
  exact ⟨rfl, within_unique _ first second block.ptr _ _ nonempty nonempty left.within right.within⟩

theorem held_disjoint (mem : Mem) (one two : Block) (laid : Laid mem) (left : ∃ adr id, Held mem one adr id)
    (right : ∃ adr id, Held mem two adr id) (apart : ∀ adr id, Held mem one adr id → ¬ Held mem two adr id) :
    one.ptr + one.size ≤ two.ptr ∨ two.ptr + two.size ≤ one.ptr := by
  obtain ⟨adr, id, left⟩ := left
  obtain ⟨other, place, right⟩ := right
  have leftSize := (least_size one.size).2
  have rightSize := (least_size two.size).2
  by_cases same : adr = other
  · subst same
    obtain ⟨leftLow, leftHigh⟩ := left.within
    obtain ⟨rightLow, rightHigh⟩ := right.within
    rcases Nat.lt_trichotomy id place with before | equal | behind
    · have order : (id + 1) * blksize (mem.buf adr).geo ≤ place * blksize (mem.buf adr).geo := Nat.mul_le_mul_right _ before
      omega
    · subst equal
      exact absurd right (apart adr id left)
    · have order : (place + 1) * blksize (mem.buf adr).geo ≤ id * blksize (mem.buf adr).geo := Nat.mul_le_mul_right _ behind
      omega
  · have here := held_inside mem one adr id laid left
    have there := held_inside mem two other place laid right
    have regions := laid.apart adr left.member other right.member same
    omega

theorem kept_good (arena : Arena) (kept : Kept arena) : Good arena := by
  obtain ⟨laid, -, held, aligned, apart⟩ := kept
  refine ⟨?_, aligned, ?_⟩
  · apply apart.imp_of_mem
    intro one two first second different
    exact held_disjoint arena.mem one two laid (held one first) (held two second) different
  · intro block member
    obtain ⟨adr, id, inside, below, -, low, high⟩ := held block member
    have whole := (cell_inside adr _ (laid.made adr inside) id below).1
    have size := (least_size block.size).2
    exact ⟨adr, inside, id, below, ⟨low, by omega⟩, by omega⟩

theorem housed_kept (mem after : Mem) (live : List Block) (laid : Laid after) (housed : Housed mem live)
    (stays : ∀ block ∈ live, ∀ adr id, Held mem block adr id → Held after block adr id) : Housed after live := by
  refine ⟨?_, housed.aligned, ?_⟩
  · intro block member
    obtain ⟨adr, id, held⟩ := housed.held block member
    exact ⟨adr, id, stays block member adr id held⟩
  · apply housed.apart.imp_of_mem
    intro one two first second different adr id left right
    have back : ∀ block ∈ live, Held after block adr id → Held mem block adr id := by
      intro block member now
      obtain ⟨other, place, held⟩ := housed.held block member
      obtain ⟨rfl, rfl⟩ := held_unique after block _ _ _ _ laid now (stays block member other place held)
      exact held
    exact different adr id (back one first left) (back two second right)

theorem handed_stays (size align : Nat) (mem after : Mem) (adr id ptr : Nat) (handed : Handed size align mem after adr id ptr)
    (block : Block) (other place : Nat) (held : Held mem block other place) : Held after block other place := by
  obtain ⟨still, geo⟩ := handed.known other held.member
  refine ⟨still, ?_, fun idle => held.busy (handed.others other held.member place idle), ?_⟩
  · rw [geo]
    exact held.below
  · rw [geo]
    exact held.within

theorem handed_housed (size align : Nat) (mem after : Mem) (live : List Block) (adr id ptr : Nat) (laid : Laid after)
    (housed : Housed mem live) (handed : Handed size align mem after adr id ptr) : Housed after (⟨ptr, size, align⟩ :: live) := by
  have stays := handed_stays size align mem after adr id ptr handed
  have kept := housed_kept mem after live laid housed fun block _ => stays block
  have new : Held after ⟨ptr, size, align⟩ adr id := ⟨handed.member, handed.below, handed.gone, handed.within⟩
  refine ⟨?_, ?_, List.pairwise_cons.mpr ⟨?_, kept.apart⟩⟩
  · intro block member
    rcases List.mem_cons.mp member with rfl | old
    · exact ⟨adr, id, new⟩
    · exact kept.held block old
  · intro block member
    rcases List.mem_cons.mp member with rfl | old
    · exact handed.aligned
    · exact kept.aligned block old
  · -- the new block was on the stack, or in no buffer
    intro block member other place here there
    obtain ⟨first, second, held⟩ := housed.held block member
    obtain ⟨rfl, rfl⟩ := held_unique after block _ _ _ _ laid there (stays block first second held)
    obtain ⟨rfl, rfl⟩ := held_unique after ⟨ptr, size, align⟩ _ _ _ _ laid here new
    exact held.busy (handed.idle held.member)

theorem returned_stays (mem after : Mem) (live : List Block) (block other : Block) (adr id place number : Nat) (member : block ∈ live)
    (inside : other ∈ live) (different : block ≠ other) (housed : Housed mem live) (held : Held mem block adr id)
    (returned : Returned mem after adr id) (there : Held mem other place number) : Held after other place number := by
  refine ⟨returned.maps ▸ there.member, ?_, ?_, ?_⟩
  · rw [returned.geo]
    exact there.below
  · intro idle
    rcases returned.idle place number idle with before | ⟨rfl, rfl⟩
    · exact there.busy before
    · have symmetric : Std.Symm fun one two : Block => ∀ adr id, Held mem one adr id → ¬ Held mem two adr id :=
        ⟨fun one two apart adr id right left => apart adr id left right⟩
      exact housed.apart.forall member inside different place number held there
  · rw [returned.geo]
    exact there.within

theorem returned_housed (mem after : Mem) (live : List Block) (block : Block) (adr id : Nat) (member : block ∈ live)
    (housed : Housed mem live) (held : Held mem block adr id) (returned : Returned mem after adr id) :
    Housed after (live.filter fun other => other.ptr ≠ block.ptr) := by
  have sublist : (live.filter fun other => other.ptr ≠ block.ptr).Sublist live := List.filter_sublist
  have rest : Housed mem (live.filter fun other => other.ptr ≠ block.ptr) :=
    ⟨fun other inside => housed.held other (sublist.subset inside), fun other inside => housed.aligned other (sublist.subset inside),
      housed.apart.sublist sublist⟩
  apply housed_kept mem after _ returned.laid rest
  intro other inside place number there
  have different : block ≠ other := by
    rintro rfl
    simp at inside
  exact returned_stays mem after live block other adr id place number member (sublist.subset inside) different housed held returned there

def mapsize (size align : Nat) : Nat :=
  membufsize (memtype (memasz size align)) (memslot (memasz size align)) (memnbufblk (memtype (memasz size align)) (memslot (memasz size align)))

-- What the program keeps to and mapanon promises.
def Legal (arena : Arena) : Call → Prop
  | .malloc size map => size < 18446744073709551616 ∧ ∀ adr, map = some adr → Fresh arena.mem adr (mapsize size memminalign)
  | .memalign align size map => (∃ k, align = 2 ^ k) ∧ size + align < 18446744073709551616 ∧
      ∀ adr, map = some adr → Fresh arena.mem adr (mapsize size align)
  | .free ptr => ∃ block ∈ arena.live, block.ptr = ptr

-- No request is brought up to more than 2^63 bytes, and none is made while a
-- hash block has come to its end before it is full.
def Bounded (sites : Sites) (arena : Arena) : Call → Prop
  | .malloc size _ => memasz size memminalign ≤ 9223372036854775808 ∧ Roomy sites arena.mem.hash
  | .memalign align size _ => memasz size align ≤ 9223372036854775808 ∧ Roomy sites arena.mem.hash
  | .free _ => True

theorem malloc_request (size : Nat) (bound : memasz size memminalign ≤ 9223372036854775808) : Request size memminalign := by
  refine ⟨⟨4, by decide, rfl⟩, ?_, bound⟩
  have value : memasz size memminalign = max (max memminalign memminalign) (max size memminblk) := by
    unfold memasz
    exact if_pos (by decide)
  rw [value] at bound
  unfold memminalign memminblk at *
  omega

theorem memalign_request (align size : Nat) (power : ∃ k, align = 2 ^ k) (fits : size + align < 18446744073709551616)
    (bound : memasz size align ≤ 9223372036854775808) : Request size align := by
  obtain ⟨k, rfl⟩ := power
  refine ⟨⟨k, ?_, rfl⟩, fits, bound⟩
  by_contra high
  have large : 2 ^ 64 ≤ 2 ^ k := Nat.pow_le_pow_right (by decide) (by omega)
  omega

theorem alloc_kept (sites : Sites) (arena : Arena) (size align : Nat) (map : Option Nat) (kept : Kept arena) (request : Request size align)
    (roomy : Roomy sites arena.mem.hash) (fresh : ∀ adr, map = some adr → Fresh arena.mem adr (mapsize size align)) :
    ∃ next, (memalloc sites arena.mem size align map).map (handout arena size align) = some next ∧ Kept next := by
  obtain ⟨laid, ⟨shelf, binned⟩, housed⟩ := kept
  rcases alloc_served sites arena.mem shelf size align map laid binned request roomy fresh with failed | ⟨after, ptr, call, served, -⟩
  · exact ⟨arena, by rw [failed]; rfl, laid, ⟨shelf, binned⟩, housed⟩
  · have nonzero := served_nonzero size align arena.mem after ptr served
    obtain ⟨laidAfter, binnedAfter, adr, id, handed⟩ := served
    refine ⟨⟨after, ⟨ptr, size, align⟩ :: arena.live⟩, ?_, laidAfter, binnedAfter, ?_⟩
    · rw [call, Option.map_some, handout, if_neg nonzero]
    · exact handed_housed size align arena.mem after arena.live adr id ptr laidAfter housed handed

theorem memcall_kept (sites : Sites) (arena : Arena) (call : Call) (kept : Kept arena)
    (meets : Legal arena call ∧ Bounded sites arena call) : True ∧ ∃ next, memcall sites arena call = some next ∧ Kept next := by
  obtain ⟨legal, bounded⟩ := meets
  refine ⟨trivial, ?_⟩
  cases call with
  | malloc size map =>
      exact alloc_kept sites arena size memminalign map kept (malloc_request size bounded.1) bounded.2 legal.2
  | memalign align size map =>
      rw [memcall]
      split
      · exact alloc_kept sites arena size align map kept (memalign_request align size legal.1 legal.2.1 bounded.1) bounded.2 legal.2.2
      · exact ⟨arena, rfl, kept⟩
  | free ptr =>
      obtain ⟨block, member, rfl⟩ := legal
      obtain ⟨laid, ⟨shelf, binned⟩, housed⟩ := kept
      obtain ⟨adr, id, held⟩ := housed.held block member
      have nonzero : block.ptr ≠ 0 := by
        have inside := held_inside arena.mem block adr id laid held
        omega
      obtain ⟨after, release, returned⟩ := free_returned arena.mem shelf adr id block.ptr _ laid binned held.member held.below held.within
        (least_size block.size).1 held.busy
      refine ⟨⟨after, arena.live.filter fun other => other.ptr ≠ block.ptr⟩, ?_, returned.laid, returned.binned,
        returned_housed arena.mem after arena.live block adr id member housed held returned⟩
      rw [memcall, if_neg nonzero, release, Option.map_some]

def emptyarena : Arena := ⟨emptymem, []⟩

theorem emptymem_laid : Laid emptymem := by
  refine ⟨fun adr member => absurd member List.not_mem_nil, fun adr member => absurd member List.not_mem_nil,
    fun adr member => absurd member List.not_mem_nil, ⟨rfl, rfl, ⟨fun _ => [], [], ?_, ?_⟩, ?_⟩⟩
  · constructor <;> simp [emptymem, emptyhash, Chains.Seg]
  · exact fun blk used => absurd rfl used
  · exact fun blk i inside => absurd inside (Nat.not_lt_zero i)

theorem emptymem_binned : Binned emptymem fun _ => [] := by
  refine ⟨⟨fun _ => Links.ended_nil _, fun _ => rfl, ?_, fun _ _ => rfl⟩, fun _ => rfl, ?_, ?_⟩
  · exact fun _ _ _ member => absurd member List.not_mem_nil
  · intro bin adr
    simp [emptymem]
  · exact fun adr member => absurd member List.not_mem_nil

theorem emptyarena_kept : Kept emptyarena := by
  refine ⟨emptymem_laid, ⟨fun _ => [], emptymem_binned⟩, ?_⟩
  exact ⟨fun block member => absurd member List.not_mem_nil, fun block member => absurd member List.not_mem_nil, List.Pairwise.nil⟩

theorem user_heap_sound (sites : Sites) (calls : List Call) (legal : Meets (memcall sites) Legal emptyarena calls)
    (bounded : Meets (memcall sites) (Bounded sites) emptyarena calls) :
    Holds (memcall sites) Good (fun _ _ => True) emptyarena calls :=
  holds_mono (memcall sites) Kept Good _ kept_good emptyarena calls
    (invariant_holds (memcall sites) Kept _ _ (memcall_kept sites) emptyarena calls emptyarena_kept
      (meets_and (memcall sites) Legal (Bounded sites) emptyarena calls legal bounded))

theorem fresh_alone (mem : Mem) (adr size : Nat) (none : mem.maps = []) (page : adr % 4096 = 0) (positive : 0 < adr)
    (top : adr + size ≤ 18446744073709551616) : Fresh mem adr size := by
  refine ⟨page, positive, top, fun other member => ?_⟩
  rw [none] at member
  cases member

theorem empty_roomy (sites : Sites) : Roomy sites emptyhash := fun blk _ => first_inside sites blk

instance (mem : Mem) (adr size : Nat) : Decidable (Fresh mem adr size) :=
  decidable_of_iff (adr % 4096 = 0 ∧ 0 < adr ∧ adr + size ≤ 18446744073709551616 ∧
      ∀ other ∈ mem.maps, adr + size ≤ other ∨ other + (mem.buf other).geo.size ≤ adr)
    ⟨fun ⟨page, positive, top, apart⟩ => ⟨page, positive, top, apart⟩,
      fun fresh => ⟨fresh.page, fresh.positive, fresh.top, fresh.apart⟩⟩

-- Whether a call is legal and meets the condition.
def callfits (arena : Arena) : Call → Bool
  | .malloc size map => size < 18446744073709551616 && map.all (fun adr => Fresh arena.mem adr (mapsize size memminalign)) &&
      (memasz size memminalign ≤ 9223372036854775808 && hasroom arena.mem.hash)
  | .memalign align size map => align == 2 ^ align.log2 && size + align < 18446744073709551616 &&
      map.all (fun adr => Fresh arena.mem adr (mapsize size align)) && (memasz size align ≤ 9223372036854775808 && hasroom arena.mem.hash)
  | .free ptr => arena.live.any (·.ptr == ptr)

theorem callfits_meets (sites : Sites) (arena : Arena) (call : Call) (kept : Kept arena) (passed : callfits arena call = true) :
    Legal arena call ∧ Bounded sites arena call := by
  have roomy := records_roomy sites arena.mem.hash _ kept.laid.records
  cases call with
  | malloc size map =>
      simp only [callfits, Bool.and_eq_true, decide_eq_true_eq, Option.all_eq_true] at passed
      exact ⟨passed.1, passed.2.1, roomy passed.2.2⟩
  | memalign align size map =>
      simp only [callfits, Bool.and_eq_true, decide_eq_true_eq, beq_iff_eq, Option.all_eq_true] at passed
      exact ⟨⟨⟨_, passed.1.1.1⟩, passed.1.1.2, passed.1.2⟩, passed.2.1, roomy passed.2.2⟩
  | free ptr =>
      simp only [callfits, List.any_eq_true, beq_iff_eq] at passed
      exact ⟨passed, trivial⟩

-- Two blocks of one buffer and a page-aligned one of another class; the first is given
-- back and its slot handed out again.
def threeBlocks : List Call :=
  [.malloc 100 (some 0x100000), .malloc 100 none, .memalign 4096 5000 (some 0x200000), .free 0x101000, .malloc 120 none]

theorem user_heap_sound_three_blocks :
    Meets (memcall lowSites) Legal emptyarena threeBlocks ∧ Holds (memcall lowSites) Good (fun _ _ => True) emptyarena threeBlocks := by
  obtain ⟨legal, bounded⟩ := meets_both_of_passes _ Kept _ _ _ callfits (memcall_kept lowSites) (callfits_meets lowSites) _ threeBlocks
    emptyarena_kept (by decide +kernel)
  exact ⟨legal, user_heap_sound lowSites threeBlocks legal bounded⟩

-- Above 2^63 the next power of two is 0 in a word and the slot 64, for which
-- the shift maps two pages.
theorem huge_block_outside_slot :
    Meets (memcall lowSites) Legal emptyarena [.malloc 9223372036854775809 (some 0x100000)] ∧
      ¬ Holds (memcall lowSites) Good (fun _ _ => True) emptyarena [.malloc 9223372036854775809 (some 0x100000)] := by
  constructor
  · refine ⟨⟨by decide, fun adr same => ?_⟩, fun _ _ => trivial⟩
    cases same
    exact fresh_alone _ _ _ rfl (by decide) (by decide) (by decide +kernel)
  · rintro ⟨-, -, one, first, good⟩
    have value : (memcall lowSites emptyarena (.malloc 9223372036854775809 (some 0x100000))).map (fun arena =>
        (arena.live, arena.mem.maps, (arena.mem.buf 0x100000).geo.base,
          (arena.mem.buf 0x100000).geo.nblk * blksize (arena.mem.buf 0x100000).geo)) =
          some ([⟨0x101000, 9223372036854775809, 16⟩], [0x100000], 0x101000, 1) := by decide +kernel
    simp only [first, Option.map_some, Option.some.injEq, Prod.mk.injEq] at value
    obtain ⟨live, maps, base, blocks⟩ := value
    obtain ⟨adr, member, id, -, -, below⟩ := good.placed ⟨0x101000, 9223372036854775809, 16⟩ (by rw [live]; exact List.mem_cons_self)
    rw [maps] at member
    cases List.mem_singleton.mp member
    rw [base, blocks] at below
    exact absurd below (by decide)

end OsZero.UserMem

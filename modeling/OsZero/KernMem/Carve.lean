import OsZero.KernMem.Pool

set_option autoImplicit false

namespace OsZero.KernMem

open Chains

-- What memalloc makes of a block: below 64 kilobytes it takes a whole slab and
-- carves it, above it hands the block on.
def pieces (bktid : Nat) : Nat := if bktid < memslabshift then 1 <<< (memslabshift - bktid) else 1

def used (bktid : Nat) : Nat := if bktid < memslabshift then memslabsize else 1 <<< bktid

def piece (slab : Nat × Nat) (i : Nat) : Nat := slab.1 + i * (1 <<< slab.2)

structure Kept (pool : Mempool) (live : List (Nat × Nat)) (slab : Nat × Nat) : Prop where
  small : memminshift ≤ slab.2
  large : slab.2 < ptrbits
  low : pool.base ≤ slab.1
  high : slab.1 + used slab.2 ≤ 4294967296
  positive : 0 < slab.1
  aligned : slab.2 < memslabshift → (slab.1 - pool.base) % memslabsize = 0
  bkt : memmaggetbkt (pool.hdrtab (memgetmag slab.1 pool)) = slab.2
  n : (pool.hdrtab (memgetmag slab.1 pool)).n = pieces slab.2
  out : 1 ≤ (pool.hdrtab (memgetmag slab.1 pool)).ndx
  most : (pool.hdrtab (memgetmag slab.1 pool)).ndx ≤ pieces slab.2
  free : ∀ j, (pool.hdrtab (memgetmag slab.1 pool)).ndx ≤ j → j < pieces slab.2 →
    ∃ i < pieces slab.2, (pool.hdrtab (memgetmag slab.1 pool)).ptab j = piece slab i
  once : ∀ j k, (pool.hdrtab (memgetmag slab.1 pool)).ndx ≤ j → j < pieces slab.2 →
    (pool.hdrtab (memgetmag slab.1 pool)).ndx ≤ k → k < pieces slab.2 →
    (pool.hdrtab (memgetmag slab.1 pool)).ptab j = (pool.hdrtab (memgetmag slab.1 pool)).ptab k → j = k
  idle : ∀ j, (pool.hdrtab (memgetmag slab.1 pool)).ndx ≤ j → j < pieces slab.2 →
    ∀ nb, ((pool.hdrtab (memgetmag slab.1 pool)).ptab j, nb) ∉ live

-- The magazines of a bucket's list, all with pointers left.
structure Listed (heap : Heap) (mags : Nat → List Nat) : Prop where
  seg : ∀ bktid, Seg (fun mag => (heap.pool.hdrtab mag).next) (heap.pool.tab bktid).list (mags bktid) none
  nodup : ∀ bktid, (mags bktid).Nodup
  left : ∀ bktid, ∀ mag ∈ mags bktid, ∃ start, (start, bktid) ∈ heap.slabs ∧ memgetmag start heap.pool = mag ∧
    (heap.pool.hdrtab mag).ndx < pieces bktid

structure Working (heap : Heap) : Prop where
  unlocked : ∀ bktid, (heap.pool.tab bktid).lk = false
  kept : ∀ slab ∈ heap.slabs, Kept heap.pool heap.live slab
  apart : ∀ one ∈ heap.slabs, ∀ two ∈ heap.slabs, one ≠ two → Apart one.1 (used one.2) two.1 (used two.2)
  placed : ∀ entry ∈ heap.live, ∃ slab ∈ heap.slabs, ∃ i < pieces slab.2,
    entry.1 = piece slab i ∧ region entry.2 ≤ 1 <<< slab.2
  nodup : (heap.live.map Prod.fst).Nodup
  lists : ∃ mags, Listed heap mags

theorem piece_end (bktid i : Nat) (inside : i < pieces bktid) : i * (1 <<< bktid) + (1 <<< bktid) ≤ used bktid := by
  unfold pieces at inside
  unfold used
  by_cases carved : bktid < memslabshift
  · rw [if_pos carved] at inside ⊢
    have whole : (1 <<< (memslabshift - bktid)) * (1 <<< bktid) = memslabsize := by
      unfold memslabshift at carved
      rw [Nat.one_shiftLeft, Nat.one_shiftLeft, ← Nat.pow_add, memslabshift, Nat.sub_add_cancel (by omega)]
      rfl
    calc i * (1 <<< bktid) + (1 <<< bktid) = (i + 1) * (1 <<< bktid) := by rw [Nat.add_mul, Nat.one_mul]
      _ ≤ (1 <<< (memslabshift - bktid)) * (1 <<< bktid) := Nat.mul_le_mul_right _ inside
      _ = memslabsize := whole
  · rw [if_neg carved] at inside ⊢
    have first : i = 0 := by omega
    rw [first, Nat.zero_mul, Nat.zero_add]

theorem used_large (bktid : Nat) : memslabsize ≤ used bktid := by
  unfold used
  by_cases carved : bktid < memslabshift
  · rw [if_pos carved]
  · rw [if_neg carved, Nat.one_shiftLeft]
    exact Nat.pow_le_pow_right (by decide : 0 < 2) (Nat.le_of_not_lt carved)

theorem pieces_pos (bktid : Nat) : 0 < pieces bktid := by
  unfold pieces
  split
  · exact shift_pos _
  · exact Nat.one_pos

theorem pieces_le (bktid : Nat) (small : memminshift ≤ bktid) : pieces bktid ≤ 256 := by
  unfold pieces
  split
  · rw [Nat.one_shiftLeft]
    exact Nat.pow_le_pow_right (by decide : 0 < 2) (show memslabshift - bktid ≤ 8 by unfold memslabshift memminshift at *; omega)
  · decide

theorem memgetmag_base (ptr : Nat) (pool after : Mempool) (base : after.base = pool.base) :
    memgetmag ptr after = memgetmag ptr pool := by
  unfold memgetmag memgetblknum
  rw [base]

theorem piece_mag (pool : Mempool) (live : List (Nat × Nat)) (slab : Nat × Nat) (kept : Kept pool live slab) (i : Nat)
    (inside : i < pieces slab.2) : memgetmag (piece slab i) pool = memgetmag slab.1 pool := by
  by_cases carved : slab.2 < memslabshift
  · have ends := piece_end slab.2 i inside
    have positive := shift_pos slab.2
    have aligned := kept.aligned carved
    have low := kept.low
    rw [used, if_pos carved] at ends
    have high := kept.high
    rw [used, if_pos carved] at high
    rw [memgetmag_eq _ _ (by unfold piece; omega) (by unfold piece; omega), memgetmag_eq _ _ low (by omega), piece]
    unfold memslabsize at ends aligned
    omega
  · have first : i = 0 := by
      rw [pieces, if_neg carved] at inside
      omega
    rw [first, piece, Nat.zero_mul, Nat.add_zero]

theorem same_mag (pool : Mempool) (one two : Nat × Nat) (left : pool.base ≤ one.1) (right : pool.base ≤ two.1)
    (leftEnd : one.1 + used one.2 ≤ 4294967296) (rightEnd : two.1 + used two.2 ≤ 4294967296)
    (same : memgetmag one.1 pool = memgetmag two.1 pool) : ¬ Apart one.1 (used one.2) two.1 (used two.2) := by
  have large := used_large one.2
  have larger := used_large two.2
  unfold memslabsize at large larger
  rw [memgetmag_eq _ _ left (by omega), memgetmag_eq _ _ right (by omega)] at same
  unfold Apart
  omega

theorem working_mag (heap : Heap) (working : Working heap) (one two : Nat × Nat) (left : one ∈ heap.slabs) (right : two ∈ heap.slabs)
    (same : memgetmag one.1 heap.pool = memgetmag two.1 heap.pool) : one = two := by
  by_contra different
  exact same_mag heap.pool one two (working.kept one left).low (working.kept two right).low
    (working.kept one left).high (working.kept two right).high same
    (working.apart one left two right different)

theorem piece_apart (one two : Nat × Nat) (i j size count : Nat) (left : i < pieces one.2) (right : j < pieces two.2)
    (apart : Apart one.1 (used one.2) two.1 (used two.2)) (fits : size ≤ 1 <<< one.2) (holds : count ≤ 1 <<< two.2) :
    Apart (piece one i) size (piece two j) count := by
  have ends := piece_end one.2 i left
  have final := piece_end two.2 j right
  unfold Apart at *
  unfold piece
  omega

theorem piece_ne (one two : Nat × Nat) (i j : Nat) (left : i < pieces one.2) (right : j < pieces two.2)
    (apart : Apart one.1 (used one.2) two.1 (used two.2)) : piece one i ≠ piece two j := by
  intro same
  have away := piece_apart one two i j 1 1 left right apart (shift_pos _) (shift_pos _)
  unfold Apart at away
  omega

theorem piece_injective (slab : Nat × Nat) (i j : Nat) (same : piece slab i = piece slab j) : i = j := by
  have equal : i * (1 <<< slab.2) = j * (1 <<< slab.2) := by
    unfold piece at same
    omega
  exact Nat.eq_of_mul_eq_mul_right (shift_pos slab.2) equal

theorem pieces_apart (slab : Nat × Nat) (i j size count : Nat) (different : i ≠ j) (fits : size ≤ 1 <<< slab.2)
    (holds : count ≤ 1 <<< slab.2) : Apart (piece slab i) size (piece slab j) count := by
  unfold Apart piece
  rcases Nat.lt_or_gt_of_ne different with before | behind
  · have step : (i + 1) * (1 <<< slab.2) ≤ j * (1 <<< slab.2) := Nat.mul_le_mul_right _ before
    rw [Nat.add_mul, Nat.one_mul] at step
    omega
  · have step : (j + 1) * (1 <<< slab.2) ≤ i * (1 <<< slab.2) := Nat.mul_le_mul_right _ behind
    rw [Nat.add_mul, Nat.one_mul] at step
    omega

theorem working_apart (heap : Heap) (working : Working heap) : LiveApart heap := by
  have distinct : heap.live.Pairwise fun one two => one.1 ≠ two.1 := List.pairwise_map.mp working.nodup
  apply distinct.imp_of_mem
  intro one two left right different
  obtain ⟨slab, member, i, inside, start, fits⟩ := working.placed one left
  obtain ⟨other, otherMember, j, otherInside, otherStart, otherFits⟩ := working.placed two right
  rw [start, otherStart] at different ⊢
  by_cases same : slab = other
  · subst same
    exact pieces_apart slab i j _ _ (fun equal => different (by rw [equal])) fits otherFits
  · exact piece_apart slab other i j _ _ inside otherInside (working.apart slab member other otherMember same) fits otherFits

-- The fields of a header that say what the magazine holds.
structure Same (hdr other : Memmag) : Prop where
  info : hdr.info = other.info
  n : hdr.n = other.n
  ndx : hdr.ndx = other.ndx
  ptab : hdr.ptab = other.ptab

theorem kept_changed (pool after : Mempool) (live others : List (Nat × Nat)) (slab : Nat × Nat) (hdr : Memmag) (kept : Kept pool live slab)
    (base : after.base = pool.base) (same : Same (after.hdrtab (memgetmag slab.1 pool)) hdr)
    (info : hdr.info = (pool.hdrtab (memgetmag slab.1 pool)).info) (n : hdr.n = (pool.hdrtab (memgetmag slab.1 pool)).n)
    (out : 1 ≤ hdr.ndx) (most : hdr.ndx ≤ pieces slab.2)
    (free : ∀ j, hdr.ndx ≤ j → j < pieces slab.2 → ∃ i < pieces slab.2, hdr.ptab j = piece slab i)
    (once : ∀ j k, hdr.ndx ≤ j → j < pieces slab.2 → hdr.ndx ≤ k → k < pieces slab.2 → hdr.ptab j = hdr.ptab k → j = k)
    (idle : ∀ j, hdr.ndx ≤ j → j < pieces slab.2 → ∀ nb, (hdr.ptab j, nb) ∉ others) : Kept after others slab := by
  have mag : memgetmag slab.1 after = memgetmag slab.1 pool := memgetmag_base _ _ _ base
  constructor
  · exact kept.small
  · exact kept.large
  · rw [base]
    exact kept.low
  · exact kept.high
  · exact kept.positive
  · rw [base]
    exact kept.aligned
  · have bkt := kept.bkt
    unfold memmaggetbkt at bkt ⊢
    rw [mag, same.info, info, bkt]
  · rw [mag, same.n, n, kept.n]
  · rw [mag, same.ndx]
    exact out
  · rw [mag, same.ndx]
    exact most
  · rw [mag, same.ndx, same.ptab]
    exact free
  · rw [mag, same.ndx, same.ptab]
    exact once
  · rw [mag, same.ndx, same.ptab]
    exact idle

theorem kept_frame (pool after : Mempool) (live others : List (Nat × Nat)) (slab : Nat × Nat) (kept : Kept pool live slab)
    (base : after.base = pool.base) (same : Same (after.hdrtab (memgetmag slab.1 pool)) (pool.hdrtab (memgetmag slab.1 pool)))
    (idle : ∀ j, (pool.hdrtab (memgetmag slab.1 pool)).ndx ≤ j → j < pieces slab.2 →
      ∀ nb, ((pool.hdrtab (memgetmag slab.1 pool)).ptab j, nb) ∉ others) : Kept after others slab :=
  kept_changed pool after live others slab _ kept base same rfl rfl kept.out kept.most kept.free kept.once idle

def Stocked (heap : Heap) (bktid mag : Nat) : Prop :=
  ∃ start, (start, bktid) ∈ heap.slabs ∧ memgetmag start heap.pool = mag ∧ (heap.pool.hdrtab mag).ndx < pieces bktid

theorem listed_stacked (heap : Heap) (mags : Nat → List Nat) : Listed heap mags ↔
    Stacked (fun mag => (heap.pool.hdrtab mag).next) (fun bktid => (heap.pool.tab bktid).list) mags (Stocked heap) :=
  ⟨fun listed => ⟨listed.seg, listed.nodup, listed.left⟩, fun stacked => ⟨stacked.seg, stacked.nodup, stacked.good⟩⟩

def lockedPool (pool : Mempool) (bktid : Nat) : Mempool :=
  { pool with tab := Function.update pool.tab bktid { pool.tab bktid with lk := true } }

@[simp] theorem lockedPool_hdrtab (pool : Mempool) (bktid : Nat) : (lockedPool pool bktid).hdrtab = pool.hdrtab := rfl

@[simp] theorem lockedPool_list (pool : Mempool) (bktid other : Nat) :
    ((lockedPool pool bktid).tab other).list = (pool.tab other).list := by
  by_cases here : other = bktid
  · subst here
    simp [lockedPool]
  · simp [lockedPool, here]

theorem lock_taken (pool : Mempool) (bktid : Nat) (inside : bktid < ptrbits) (free : (pool.tab bktid).lk = false) :
    fmtxlk pool bktid = some (lockedPool pool bktid) := by
  unfold fmtxlk
  rw [if_pos ⟨inside, free⟩]
  rfl

theorem unlocked_after (pool after : Mempool) (bktid : Nat) (free : ∀ other, (pool.tab other).lk = false)
    (rest : ∀ other, other ≠ bktid → after.tab other = pool.tab other) (other : Nat) :
    ((fmtxunlk after bktid).tab other).lk = false := by
  unfold fmtxunlk
  by_cases here : other = bktid
  · subst here
    simp
  · simp only [Function.update_of_ne here, rest other here]
    exact free other

-- A block given by the slab layer, with its magazine filled in.
structure Filled (pool after : Mempool) (bktid ptr : Nat) : Prop where
  base : after.base = pool.base
  others : ∀ mag, mag ≠ memgetmag ptr pool → after.hdrtab mag = pool.hdrtab mag
  bkt : memmaggetbkt (after.hdrtab (memgetmag ptr pool)) = bktid
  n : (after.hdrtab (memgetmag ptr pool)).n = pieces bktid
  ndx : (after.hdrtab (memgetmag ptr pool)).ndx = 1
  ptab : ∀ j, 1 ≤ j → j < pieces bktid → (after.hdrtab (memgetmag ptr pool)).ptab j = piece (ptr, bktid) j
  unlocked : ∀ other, (after.tab other).lk = false
  rest : ∀ other, other ≠ bktid → (after.tab other).list = (pool.tab other).list
  list : ((after.tab bktid).list = (pool.tab bktid).list) ∨
    ((after.tab bktid).list = some (memgetmag ptr pool) ∧ 1 < pieces bktid ∧
      (after.hdrtab (memgetmag ptr pool)).next = (pool.tab bktid).list)

theorem filled_fresh (heap : Heap) (after : Mempool) (bktid ptr nb : Nat) (working : Working heap)
    (filled : Filled heap.pool after bktid ptr) (small : memminshift ≤ bktid) (large : bktid < ptrbits)
    (low : heap.pool.base ≤ ptr) (ends : ptr + used bktid ≤ 4294967296) (positive : 0 < ptr)
    (aligned : bktid < memslabshift → (ptr - heap.pool.base) % memslabsize = 0)
    (apart : ∀ slab ∈ heap.slabs, Apart ptr (used bktid) slab.1 (used slab.2)) :
    Kept after ((ptr, nb) :: heap.live) (ptr, bktid) := by
  have mag : memgetmag ptr after = memgetmag ptr heap.pool := memgetmag_base _ _ _ filled.base
  constructor
  · exact small
  · exact large
  · rw [filled.base]
    exact low
  · exact ends
  · exact positive
  · rw [filled.base]
    exact aligned
  · rw [mag, filled.bkt]
  · rw [mag, filled.n]
  · rw [mag, filled.ndx]
  · rw [mag, filled.ndx]
    exact pieces_pos bktid
  · intro j first below
    rw [mag, filled.ndx] at first
    rw [mag, filled.ptab j first below]
    exact ⟨j, below, rfl⟩
  · intro j k first below second above equal
    rw [mag, filled.ndx] at first second
    rw [mag, filled.ptab j first below, filled.ptab k second above] at equal
    exact piece_injective _ j k equal
  · intro j first below size entry
    rw [mag, filled.ndx] at first
    rw [mag, filled.ptab j first below] at entry
    rcases List.mem_cons.mp entry with here | live
    · have start : piece (ptr, bktid) j = piece (ptr, bktid) 0 := by
        rw [(Prod.mk.inj here).1]
        simp [piece]
      have zero := piece_injective _ j 0 start
      omega
    · obtain ⟨other, member, i, inside, start, -⟩ := working.placed _ live
      exact piece_ne (ptr, bktid) other j i below inside (apart other member) start

theorem filled_old (heap : Heap) (after : Mempool) (bktid ptr nb : Nat) (working : Working heap)
    (filled : Filled heap.pool after bktid ptr) (low : heap.pool.base ≤ ptr) (ends : ptr + used bktid ≤ 4294967296)
    (slab : Nat × Nat) (member : slab ∈ heap.slabs) (apart : Apart ptr (used bktid) slab.1 (used slab.2)) :
    Kept after ((ptr, nb) :: heap.live) slab := by
  have kept := working.kept slab member
  have different : memgetmag slab.1 heap.pool ≠ memgetmag ptr heap.pool := fun same =>
    same_mag heap.pool (ptr, bktid) slab low kept.low ends kept.high same.symm apart
  apply kept_frame heap.pool after heap.live _ slab kept filled.base
  · rw [filled.others _ different]
    exact ⟨rfl, rfl, rfl, rfl⟩
  · intro j first below size entry
    obtain ⟨i, inside, place⟩ := kept.free j first below
    rcases List.mem_cons.mp entry with here | live
    · have start : piece (ptr, bktid) 0 = piece slab i := by
        rw [← place, (Prod.mk.inj here).1]
        simp [piece]
      exact piece_ne (ptr, bktid) slab 0 i (pieces_pos bktid) inside apart start
    · exact kept.idle j first below size live

theorem filled_lists (heap : Heap) (after : Mempool) (bktid ptr nb : Nat) (working : Working heap)
    (filled : Filled heap.pool after bktid ptr) (low : heap.pool.base ≤ ptr) (ends : ptr + used bktid ≤ 4294967296)
    (apart : ∀ slab ∈ heap.slabs, Apart ptr (used bktid) slab.1 (used slab.2)) :
    ∃ mags, Listed ⟨after, false, (ptr, bktid) :: heap.slabs, (ptr, nb) :: heap.live⟩ mags := by
  obtain ⟨mags, listed⟩ := working.lists
  have mag : memgetmag ptr after = memgetmag ptr heap.pool := memgetmag_base _ _ _ filled.base
  have outside : ∀ other, memgetmag ptr heap.pool ∉ mags other := by
    intro other member
    obtain ⟨start, slab, same, -⟩ := listed.left other _ member
    exact same_mag heap.pool (ptr, bktid) (start, other) low (working.kept _ slab).low ends (working.kept _ slab).high same.symm
      (apart _ slab)
  have others : ∀ bin, ∀ item ∈ mags bin, after.hdrtab item = heap.pool.hdrtab item :=
    fun bin item member => filled.others item fun same => outside bin (same ▸ member)
  have left : ∀ bin, ∀ item ∈ mags bin, Stocked ⟨after, false, (ptr, bktid) :: heap.slabs, (ptr, nb) :: heap.live⟩ bin item := by
    intro bin item member
    obtain ⟨start, slab, same, some⟩ := listed.left bin item member
    refine ⟨start, List.mem_cons_of_mem _ slab, (memgetmag_base _ _ _ filled.base).trans same, ?_⟩
    rw [others bin item member]
    exact some
  rcases filled.list with kept | ⟨front, more, link⟩
  · refine ⟨mags, (listed_stacked _ _).mpr (stacked_frame _ _ _ _ _ _ _ ((listed_stacked _ _).mp listed) (fun bin => ?_) (fun bin item member => ?_) left)⟩
    · by_cases here : bin = bktid
      · rw [here]
        exact kept
      · exact filled.rest bin here
    · dsimp only
      rw [others bin item member]
  · refine ⟨_, (listed_stacked _ _).mpr (stacked_push _ _ _ _ _ _ _ ((listed_stacked _ _).mp listed) bktid (memgetmag ptr heap.pool)
      outside front link filled.rest (fun item different => ?_) left ⟨ptr, List.mem_cons_self, mag, ?_⟩)⟩
    · rw [filled.others item different]
    · rw [filled.ndx]
      exact more

theorem filled_working (heap : Heap) (after : Mempool) (bktid ptr nb : Nat) (working : Working heap)
    (filled : Filled heap.pool after bktid ptr) (small : memminshift ≤ bktid) (large : bktid < ptrbits)
    (low : heap.pool.base ≤ ptr) (ends : ptr + used bktid ≤ 4294967296) (positive : 0 < ptr) (fits : region nb ≤ 1 <<< bktid)
    (aligned : bktid < memslabshift → (ptr - heap.pool.base) % memslabsize = 0)
    (apart : ∀ slab ∈ heap.slabs, Apart ptr (used bktid) slab.1 (used slab.2)) :
    Working ⟨after, false, (ptr, bktid) :: heap.slabs, (ptr, nb) :: heap.live⟩ := by
  have start : ptr = piece (ptr, bktid) 0 := by simp [piece]
  constructor
  · exact filled.unlocked
  · intro slab member
    rcases List.mem_cons.mp member with rfl | old
    · exact filled_fresh heap after bktid ptr nb working filled small large low ends positive aligned apart
    · exact filled_old heap after bktid ptr nb working filled low ends slab old (apart slab old)
  · intro one left two right different
    rcases List.mem_cons.mp left with rfl | oldLeft
    · rcases List.mem_cons.mp right with rfl | oldRight
      · exact absurd rfl different
      · exact apart two oldRight
    · rcases List.mem_cons.mp right with rfl | oldRight
      · exact (apart one oldLeft).symm
      · exact working.apart one oldLeft two oldRight different
  · intro entry member
    rcases List.mem_cons.mp member with rfl | old
    · exact ⟨(ptr, bktid), List.mem_cons_self, 0, pieces_pos bktid, start, fits⟩
    · obtain ⟨slab, slabMember, place⟩ := working.placed entry old
      exact ⟨slab, List.mem_cons_of_mem _ slabMember, place⟩
  · rw [List.map_cons, List.nodup_cons]
    refine ⟨?_, working.nodup⟩
    intro member
    obtain ⟨entry, live, same⟩ := List.mem_map.mp member
    obtain ⟨slab, slabMember, i, inside, place, -⟩ := working.placed entry live
    apply piece_ne (ptr, bktid) slab 0 i (pieces_pos bktid) inside (apart slab slabMember)
    rw [← start, ← place, same]
  · exact filled_lists heap after bktid ptr nb working filled low ends apart

theorem setbkt_getbkt (hdr : Memmag) (bktid : Nat) (large : bktid < ptrbits) : memmaggetbkt (memmagsetbkt hdr bktid) = bktid := by
  have table : ∀ small : Fin 32, (BitVec.ofNat 32 small.val &&& membktmask).toNat = small.val := by decide
  have masked : (hdr.info &&& ~~~membktmask ||| BitVec.ofNat 32 bktid) &&& membktmask = BitVec.ofNat 32 bktid &&& membktmask := by
    ext k
    simp only [BitVec.getElem_and, BitVec.getElem_or, BitVec.getElem_not]
    cases hdr.info[k] <;> cases membktmask[k] <;> simp
  rw [memmaggetbkt, memmagsetbkt, masked]
  exact table ⟨bktid, large⟩

theorem carve_spec (bsz left ndx u8ptr : Nat) (ptab : Nat → Nat) (fits : u8ptr + left * bsz < 4294967296) (j : Nat) :
    memcarve bsz left ndx u8ptr ptab j = if ndx ≤ j ∧ j < ndx + left then u8ptr + (j - ndx + 1) * bsz else ptab j := by
  induction left generalizing ndx u8ptr ptab with
  | zero => rw [memcarve, if_neg (by omega)]
  | succ left ih =>
      rw [Nat.add_mul, Nat.one_mul] at fits
      have exact : (u8ptr + bsz) % 4294967296 = u8ptr + bsz := by
        apply Nat.mod_eq_of_lt
        have part : 0 ≤ left * bsz := Nat.zero_le _
        omega
      rw [memcarve]
      simp only [exact]
      rw [ih (ndx + 1) (u8ptr + bsz) _ (by omega)]
      by_cases later : ndx + 1 ≤ j ∧ j < ndx + 1 + left
      · have index : j - ndx = j - (ndx + 1) + 1 := by omega
        rw [if_pos later, if_pos (by omega), index, Nat.add_mul (j - (ndx + 1) + 1) 1, Nat.one_mul]
        omega
      · rw [if_neg later]
        by_cases here : j = ndx
        · subst here
          rw [Function.update_self, if_pos (by omega), Nat.sub_self, Nat.zero_add, Nat.one_mul]
        · rw [Function.update_of_ne here, if_neg (by omega)]

theorem slab_filled (pool : Mempool) (bktid ptr : Nat) (free : ∀ other, (pool.tab other).lk = false) (large : bktid < ptrbits)
    (whole : memslabshift ≤ bktid) : Filled pool (fmtxunlk (memallocslab (lockedPool pool bktid) bktid ptr).1 bktid) bktid ptr := by
  have one : pieces bktid = 1 := by
    rw [pieces, if_neg (Nat.not_lt.mpr whole)]
  have mag : memgetmag ptr (lockedPool pool bktid) = memgetmag ptr pool := rfl
  constructor
  · rfl
  · intro other different
    simp only [fmtxunlk, memallocslab, Mempool.setMag, mag, Function.update_of_ne different]
    rfl
  · simp only [fmtxunlk, memallocslab, Mempool.setMag, mag, Function.update_self]
    exact setbkt_getbkt _ bktid large
  · simp only [fmtxunlk, memallocslab, Mempool.setMag, mag, Function.update_self, one]
    rfl
  · simp only [fmtxunlk, memallocslab, Mempool.setMag, mag, Function.update_self]
    rfl
  · intro j first below
    omega
  · apply unlocked_after pool _ bktid free
    intro other different
    simp only [memallocslab, Mempool.setMag, lockedPool, Function.update_of_ne different]
  · intro other different
    simp only [fmtxunlk, memallocslab, Mempool.setMag, lockedPool, Function.update_of_ne different]
  · left
    simp only [fmtxunlk, memallocslab, Mempool.setMag, lockedPool, Function.update_self]

theorem mag_filled (pool : Mempool) (bktid ptr : Nat) (free : ∀ other, (pool.tab other).lk = false) (large : bktid < ptrbits)
    (carved : bktid < memslabshift) (fits : ptr + used bktid ≤ 4294967296) :
    Filled pool (fmtxunlk (memallocmag (lockedPool pool bktid) bktid ptr).1 bktid) bktid ptr := by
  have count : pieces bktid = 1 <<< (memslabshift - bktid) := by rw [pieces, if_pos carved]
  have many : 1 < 1 <<< (memslabshift - bktid) := by
    rw [Nat.one_shiftLeft]
    exact Nat.one_lt_two_pow (by omega)
  have mag : memgetmag ptr (lockedPool pool bktid) = memgetmag ptr pool := rfl
  have room : ptr + ((1 <<< (memslabshift - bktid)) - 1) * (1 <<< bktid) < 4294967296 := by
    have ends := piece_end bktid ((1 <<< (memslabshift - bktid)) - 1) (by omega)
    have positive := shift_pos bktid
    omega
  constructor
  · simp only [memallocmag, if_pos many]
    rfl
  · intro other different
    simp only [fmtxunlk, memallocmag, if_pos many, Mempool.setMag, Mempool.setList, mag, Function.update_of_ne different]
    rfl
  · simp only [fmtxunlk, memallocmag, if_pos many, Mempool.setMag, Mempool.setList, mag, Function.update_self]
    exact setbkt_getbkt _ bktid large
  · simp only [fmtxunlk, memallocmag, if_pos many, Mempool.setMag, Mempool.setList, mag, Function.update_self, count]
    rfl
  · simp only [fmtxunlk, memallocmag, if_pos many, Mempool.setMag, Mempool.setList, mag, Function.update_self]
    rfl
  · intro j first below
    simp only [fmtxunlk, memallocmag, if_pos many, Mempool.setMag, Mempool.setList, mag, Function.update_self]
    rw [carve_spec _ _ _ _ _ room, if_pos (by omega), Nat.sub_add_cancel first]
    rfl
  · apply unlocked_after pool _ bktid free
    intro other different
    simp only [memallocmag, if_pos many, Mempool.setMag, Mempool.setList, lockedPool, Function.update_of_ne different]
  · intro other different
    simp only [fmtxunlk, memallocmag, if_pos many, Mempool.setMag, Mempool.setList, lockedPool, Function.update_of_ne different]
  · refine Or.inr ⟨?_, by rw [count]; exact many, ?_⟩
    · simp only [fmtxunlk, memallocmag, if_pos many, Mempool.setMag, Mempool.setList, mag, Function.update_self]
    · simp only [fmtxunlk, memallocmag, if_pos many, Mempool.setMag, Mempool.setList, mag, Function.update_self]
      simp only [lockedPool, Function.update_self]

end OsZero.KernMem

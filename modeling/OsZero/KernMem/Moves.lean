import OsZero.KernMem.Carve

set_option autoImplicit false

namespace OsZero.KernMem

open Chains

theorem unlinkhead_hdr (pool : Mempool) (bktid mag other : Nat) :
    Same ((memunlinkhead pool bktid mag).hdrtab other) (pool.hdrtab other) ∧
      ((memunlinkhead pool bktid mag).hdrtab other).next = (pool.hdrtab other).next := by
  unfold memunlinkhead
  cases link : (pool.hdrtab mag).next with
  | none => exact ⟨⟨rfl, rfl, rfl, rfl⟩, rfl⟩
  | some next =>
      by_cases here : other = next
      · subst here
        simp only [Mempool.setList, Mempool.setMag, Function.update_self]
        exact ⟨⟨rfl, rfl, rfl, rfl⟩, trivial⟩
      · simp only [Mempool.setList, Mempool.setMag, Function.update_of_ne here]
        exact ⟨⟨rfl, rfl, rfl, rfl⟩, trivial⟩

theorem unlinkhead_tab (pool : Mempool) (bktid mag : Nat) :
    (memunlinkhead pool bktid mag).tab = Function.update pool.tab bktid { pool.tab bktid with list := (pool.hdrtab mag).next } := by
  unfold memunlinkhead
  cases link : (pool.hdrtab mag).next <;> rfl

-- A pointer taken from a magazine or put back into one.
structure Moved (pool after : Mempool) (mag ndx : Nat) (ptab : Nat → Nat) : Prop where
  base : after.base = pool.base
  others : ∀ other, other ≠ mag → Same (after.hdrtab other) (pool.hdrtab other)
  info : (after.hdrtab mag).info = (pool.hdrtab mag).info
  n : (after.hdrtab mag).n = (pool.hdrtab mag).n
  ndx : (after.hdrtab mag).ndx = ndx
  ptab : (after.hdrtab mag).ptab = ptab

theorem popmag_moved (pool : Mempool) (bktid mag : Nat) (inside : (pool.hdrtab mag).ndx < 256) :
    ∃ after, mempopmag pool bktid mag = some (after, some ((pool.hdrtab mag).ptab (pool.hdrtab mag).ndx)) ∧
      Moved pool after mag ((pool.hdrtab mag).ndx + 1) (pool.hdrtab mag).ptab ∧
      (∀ other, (after.hdrtab other).next = (pool.hdrtab other).next) ∧
      after.tab = (if (pool.hdrtab mag).ndx + 1 = (pool.hdrtab mag).n then
        Function.update pool.tab bktid { pool.tab bktid with list := (pool.hdrtab mag).next } else pool.tab) := by
  have next : ∀ other, ((pool.setMag mag { pool.hdrtab mag with ndx := (pool.hdrtab mag).ndx + 1 }).hdrtab other).next =
      (pool.hdrtab other).next := by
    intro other
    by_cases here : other = mag
    · subst here
      simp [Mempool.setMag]
    · simp [Mempool.setMag, here]
  have others : ∀ other, other ≠ mag →
      Same ((pool.setMag mag { pool.hdrtab mag with ndx := (pool.hdrtab mag).ndx + 1 }).hdrtab other) (pool.hdrtab other) := by
    intro other different
    simp only [Mempool.setMag, Function.update_of_ne different]
    exact ⟨rfl, rfl, rfl, rfl⟩
  simp only [mempopmag, mempop, if_pos inside, Option.bind_eq_bind, Option.bind_some, memmagempty]
  by_cases empty : (pool.hdrtab mag).ndx + 1 = (pool.hdrtab mag).n
  · have unlink := unlinkhead_hdr (pool.setMag mag { pool.hdrtab mag with ndx := (pool.hdrtab mag).ndx + 1 }) bktid mag
    simp only [empty, beq_self_eq_true, if_true]
    simp only [empty] at unlink others next
    refine ⟨_, rfl, ⟨?_, ?_, ?_, ?_, ?_, ?_⟩, ?_, ?_⟩
    · unfold memunlinkhead
      split <;> rfl
    · intro other different
      obtain ⟨⟨info, n, ndx, ptab⟩, -⟩ := unlink other
      obtain ⟨info', n', ndx', ptab'⟩ := others other different
      exact ⟨info.trans info', n.trans n', ndx.trans ndx', ptab.trans ptab'⟩
    · rw [(unlink mag).1.info]
      simp [Mempool.setMag]
    · rw [(unlink mag).1.n]
      simp [Mempool.setMag]
    · rw [(unlink mag).1.ndx]
      simp [Mempool.setMag]
    · rw [(unlink mag).1.ptab]
      simp [Mempool.setMag]
    · intro other
      rw [(unlink other).2, next]
    · rw [unlinkhead_tab, next]
      rfl
  · have more : ((pool.hdrtab mag).ndx + 1 == (pool.hdrtab mag).n) = false := beq_eq_false_iff_ne.mpr empty
    simp only [more, if_neg empty, Bool.false_eq_true, if_false]
    refine ⟨_, rfl, ⟨rfl, others, ?_, ?_, ?_, ?_⟩, next, rfl⟩ <;> simp [Mempool.setMag]

theorem popmag_unlocked (pool : Mempool) (bktid mag : Nat) (free : ∀ other, (pool.tab other).lk = false)
    (inside : (pool.hdrtab mag).ndx < 256) :
    ∃ after, mempopmag (lockedPool pool bktid) bktid mag = some (after, some ((pool.hdrtab mag).ptab (pool.hdrtab mag).ndx)) ∧
      Moved pool (fmtxunlk after bktid) mag ((pool.hdrtab mag).ndx + 1) (pool.hdrtab mag).ptab ∧
      (∀ other, ((fmtxunlk after bktid).hdrtab other).next = (pool.hdrtab other).next) ∧
      (∀ other, ((fmtxunlk after bktid).tab other).lk = false) ∧
      (∀ other, other ≠ bktid → ((fmtxunlk after bktid).tab other).list = (pool.tab other).list) ∧
      ((fmtxunlk after bktid).tab bktid).list =
        if (pool.hdrtab mag).ndx + 1 = (pool.hdrtab mag).n then (pool.hdrtab mag).next else (pool.tab bktid).list := by
  obtain ⟨after, call, moved, next, tab⟩ := popmag_moved (lockedPool pool bktid) bktid mag inside
  change after.tab = if (pool.hdrtab mag).ndx + 1 = (pool.hdrtab mag).n then _ else _ at tab
  have others : ∀ other, other ≠ bktid → after.tab other = pool.tab other := by
    intro other different
    rw [tab]
    split <;> simp only [Function.update_of_ne different, lockedPool]
  refine ⟨after, call, ⟨moved.base, moved.others, moved.info, moved.n, moved.ndx, moved.ptab⟩, next,
    unlocked_after pool after bktid free others, ?_, ?_⟩
  · intro other different
    simp only [fmtxunlk, Function.update_of_ne different, others other different]
  · simp only [fmtxunlk, Function.update_self, tab]
    split
    · simp only [Function.update_self, lockedPool_hdrtab]
    · exact lockedPool_list pool bktid bktid

theorem moved_here (pool after : Mempool) (live others : List (Nat × Nat)) (ndx : Nat) (ptab : Nat → Nat) (slab : Nat × Nat)
    (kept : Kept pool live slab) (moved : Moved pool after (memgetmag slab.1 pool) ndx ptab) (out : 1 ≤ ndx) (most : ndx ≤ pieces slab.2)
    (free : ∀ j, ndx ≤ j → j < pieces slab.2 → ∃ i < pieces slab.2, ptab j = piece slab i)
    (once : ∀ j k, ndx ≤ j → j < pieces slab.2 → ndx ≤ k → k < pieces slab.2 → ptab j = ptab k → j = k)
    (idle : ∀ j, ndx ≤ j → j < pieces slab.2 → ∀ nb, (ptab j, nb) ∉ others) : Kept after others slab :=
  kept_changed pool after live others slab { pool.hdrtab (memgetmag slab.1 pool) with ndx := ndx, ptab := ptab } kept moved.base
    ⟨moved.info, moved.n, moved.ndx, moved.ptab⟩ rfl rfl out most free once idle

-- The other blocks keep theirs where no pointer they have left comes into use.
theorem moved_kept (heap : Heap) (after : Mempool) (others : List (Nat × Nat)) (ndx : Nat) (ptab : Nat → Nat) (slab : Nat × Nat)
    (working : Working heap) (member : slab ∈ heap.slabs) (moved : Moved heap.pool after (memgetmag slab.1 heap.pool) ndx ptab)
    (here : Kept after others slab)
    (idle : ∀ other ∈ heap.slabs, other ≠ slab → ∀ j, (heap.pool.hdrtab (memgetmag other.1 heap.pool)).ndx ≤ j →
      j < pieces other.2 → ∀ nb, ((heap.pool.hdrtab (memgetmag other.1 heap.pool)).ptab j, nb) ∉ others) :
    ∀ other ∈ heap.slabs, Kept after others other := by
  intro other otherMember
  by_cases same : other = slab
  · rw [same]
    exact here
  · have different : memgetmag other.1 heap.pool ≠ memgetmag slab.1 heap.pool :=
      fun equal => same (working_mag heap working other slab otherMember member equal)
    exact kept_frame heap.pool after heap.live others other (working.kept other otherMember) moved.base (moved.others _ different)
      (idle other otherMember same)

theorem moved_stocked (heap : Heap) (after : Mempool) (live : List (Nat × Nat)) (mag ndx : Nat) (ptab : Nat → Nat)
    (moved : Moved heap.pool after mag ndx ptab) (bktid item : Nat) (stocked : Stocked heap bktid item) (different : item ≠ mag) :
    Stocked ⟨after, false, heap.slabs, live⟩ bktid item := by
  obtain ⟨start, owner, same, some⟩ := stocked
  refine ⟨start, owner, (memgetmag_base _ _ _ moved.base).trans same, ?_⟩
  rw [(moved.others item different).ndx]
  exact some

theorem moved_stocked_here (heap : Heap) (after : Mempool) (live : List (Nat × Nat)) (ndx : Nat) (ptab : Nat → Nat) (slab : Nat × Nat)
    (member : slab ∈ heap.slabs) (moved : Moved heap.pool after (memgetmag slab.1 heap.pool) ndx ptab) (some : ndx < pieces slab.2) :
    Stocked ⟨after, false, heap.slabs, live⟩ slab.2 (memgetmag slab.1 heap.pool) := by
  refine ⟨slab.1, member, memgetmag_base _ _ _ moved.base, ?_⟩
  rw [moved.ndx]
  exact some

theorem listed_home (heap : Heap) (mags : Nat → List Nat) (working : Working heap) (listed : Listed heap mags) (slab : Nat × Nat)
    (member : slab ∈ heap.slabs) (bktid : Nat) (inList : memgetmag slab.1 heap.pool ∈ mags bktid) : bktid = slab.2 := by
  obtain ⟨start, owner, same, -⟩ := listed.left bktid _ inList
  exact (Prod.mk.inj (working_mag heap working (start, bktid) slab owner member same)).2

theorem listed_kept (heap : Heap) (after : Mempool) (live : List (Nat × Nat)) (ndx : Nat) (ptab : Nat → Nat) (mags : Nat → List Nat)
    (slab : Nat × Nat) (working : Working heap) (listed : Listed heap mags) (member : slab ∈ heap.slabs)
    (moved : Moved heap.pool after (memgetmag slab.1 heap.pool) ndx ptab) (some : ndx < pieces slab.2)
    (next : ∀ mag, (after.hdrtab mag).next = (heap.pool.hdrtab mag).next)
    (lists : ∀ bktid, (after.tab bktid).list = (heap.pool.tab bktid).list) : Listed ⟨after, false, heap.slabs, live⟩ mags := by
  refine (listed_stacked _ _).mpr (stacked_frame _ _ _ _ _ _ _ ((listed_stacked _ _).mp listed) lists (fun _ mag _ => next mag) ?_)
  intro bktid mag inList
  by_cases here : mag = memgetmag slab.1 heap.pool
  · rw [here] at inList ⊢
    rw [listed_home heap mags working listed slab member bktid inList]
    exact moved_stocked_here heap after live ndx ptab slab member moved some
  · exact moved_stocked heap after live _ ndx ptab moved bktid mag (listed.left bktid mag inList) here

theorem popped_kept (heap : Heap) (after : Mempool) (slab : Nat × Nat) (nb : Nat) (working : Working heap) (member : slab ∈ heap.slabs)
    (left : (heap.pool.hdrtab (memgetmag slab.1 heap.pool)).ndx < pieces slab.2)
    (moved : Moved heap.pool after (memgetmag slab.1 heap.pool) ((heap.pool.hdrtab (memgetmag slab.1 heap.pool)).ndx + 1)
      (heap.pool.hdrtab (memgetmag slab.1 heap.pool)).ptab) :
    ∀ other ∈ heap.slabs, Kept after (((heap.pool.hdrtab (memgetmag slab.1 heap.pool)).ptab
      (heap.pool.hdrtab (memgetmag slab.1 heap.pool)).ndx, nb) :: heap.live) other := by
  have kept := working.kept slab member
  apply moved_kept heap after _ _ _ slab working member moved
  · apply moved_here heap.pool after heap.live _ _ _ _ kept moved (by omega) left
    · exact fun j first below => kept.free j (Nat.le_of_succ_le first) below
    · exact fun j k first below second above equal =>
        kept.once j k (Nat.le_of_succ_le first) below (Nat.le_of_succ_le second) above equal
    · intro j first below size entry
      rcases List.mem_cons.mp entry with same | live
      · have equal := kept.once j _ (Nat.le_of_succ_le first) below (Nat.le_refl _) left (Prod.mk.inj same).1
        exact absurd equal (Nat.ne_of_gt first)
      · exact kept.idle j (Nat.le_of_succ_le first) below size live
  · intro other otherMember different j first below size entry
    obtain ⟨i, inside, place⟩ := kept.free _ (Nat.le_refl _) left
    obtain ⟨k, otherInside, otherPlace⟩ := (working.kept other otherMember).free j first below
    rcases List.mem_cons.mp entry with same | live
    · apply piece_ne other slab k i otherInside inside (working.apart other otherMember slab member different)
      rw [← otherPlace, ← place]
      exact (Prod.mk.inj same).1
    · exact (working.kept other otherMember).idle j first below size live

theorem popped_lists (heap : Heap) (after : Mempool) (live : List (Nat × Nat)) (mags : Nat → List Nat) (slab : Nat × Nat) (rest : List Nat)
    (working : Working heap) (listed : Listed heap mags) (member : slab ∈ heap.slabs)
    (front : mags slab.2 = memgetmag slab.1 heap.pool :: rest)
    (left : (heap.pool.hdrtab (memgetmag slab.1 heap.pool)).ndx < pieces slab.2)
    (moved : Moved heap.pool after (memgetmag slab.1 heap.pool) ((heap.pool.hdrtab (memgetmag slab.1 heap.pool)).ndx + 1)
      (heap.pool.hdrtab (memgetmag slab.1 heap.pool)).ptab)
    (next : ∀ other, (after.hdrtab other).next = (heap.pool.hdrtab other).next)
    (others : ∀ other, other ≠ slab.2 → (after.tab other).list = (heap.pool.tab other).list)
    (list : (after.tab slab.2).list = if (heap.pool.hdrtab (memgetmag slab.1 heap.pool)).ndx + 1 = pieces slab.2 then
      (heap.pool.hdrtab (memgetmag slab.1 heap.pool)).next else (heap.pool.tab slab.2).list) :
    ∃ after', Listed ⟨after, false, heap.slabs, live⟩ after' := by
  by_cases empty : (heap.pool.hdrtab (memgetmag slab.1 heap.pool)).ndx + 1 = pieces slab.2
  · rw [if_pos empty] at list
    refine ⟨Function.update mags slab.2 rest, (listed_stacked _ _).mpr ?_⟩
    refine stacked_pop _ _ _ _ _ _ _ ((listed_stacked _ _).mp listed) slab.2 _ rest front list others next
      (listed_home heap mags working listed slab member) ?_
    exact fun bktid mag inList different =>
      moved_stocked heap after live _ _ _ moved bktid mag (listed.left bktid mag inList) different
  · rw [if_neg empty] at list
    refine ⟨mags, listed_kept heap after live _ _ mags slab working listed member moved (by omega) next fun bktid => ?_⟩
    by_cases here : bktid = slab.2
    · rw [here]
      exact list
    · exact others bktid here

theorem popped_working (heap : Heap) (after : Mempool) (mags : Nat → List Nat) (start bktid nb : Nat) (rest : List Nat)
    (working : Working heap) (listed : Listed heap mags) (slab : (start, bktid) ∈ heap.slabs)
    (front : mags bktid = memgetmag start heap.pool :: rest) (fits : region nb ≤ 1 <<< bktid)
    (moved : Moved heap.pool after (memgetmag start heap.pool) ((heap.pool.hdrtab (memgetmag start heap.pool)).ndx + 1)
      (heap.pool.hdrtab (memgetmag start heap.pool)).ptab)
    (next : ∀ other, (after.hdrtab other).next = (heap.pool.hdrtab other).next)
    (unlocked : ∀ other, (after.tab other).lk = false)
    (others : ∀ other, other ≠ bktid → (after.tab other).list = (heap.pool.tab other).list)
    (list : (after.tab bktid).list = if (heap.pool.hdrtab (memgetmag start heap.pool)).ndx + 1 = pieces bktid then
      (heap.pool.hdrtab (memgetmag start heap.pool)).next else (heap.pool.tab bktid).list) :
    Working ⟨after, false, heap.slabs,
      ((heap.pool.hdrtab (memgetmag start heap.pool)).ptab (heap.pool.hdrtab (memgetmag start heap.pool)).ndx, nb) :: heap.live⟩ := by
  have kept := working.kept (start, bktid) slab
  obtain ⟨-, -, -, left⟩ := listed.left bktid (memgetmag start heap.pool) (by rw [front]; exact List.mem_cons_self)
  obtain ⟨i, inside, place⟩ := kept.free _ (Nat.le_refl _) left
  constructor
  · exact unlocked
  · exact popped_kept heap after (start, bktid) nb working slab left moved
  · exact working.apart
  · intro entry member
    rcases List.mem_cons.mp member with rfl | old
    · exact ⟨(start, bktid), slab, i, inside, place, fits⟩
    · exact working.placed entry old
  · rw [List.map_cons, List.nodup_cons]
    refine ⟨?_, working.nodup⟩
    intro member
    obtain ⟨entry, live, same⟩ := List.mem_map.mp member
    have idle := kept.idle _ (Nat.le_refl _) left entry.2
    dsimp only at idle same
    rw [← same] at idle
    exact idle live
  · exact popped_lists heap after _ mags (start, bktid) rest working listed slab front left moved next others list

theorem linkhead_spec (pool : Mempool) (bktid mag : Nat) :
    (∀ other, Same ((memlinkhead pool bktid mag).hdrtab other) (pool.hdrtab other)) ∧
      (∀ other, other ≠ mag → ((memlinkhead pool bktid mag).hdrtab other).next = (pool.hdrtab other).next) ∧
      ((memlinkhead pool bktid mag).hdrtab mag).next = (pool.tab bktid).list ∧
      (memlinkhead pool bktid mag).tab = Function.update pool.tab bktid { pool.tab bktid with list := some mag } ∧
      (memlinkhead pool bktid mag).base = pool.base := by
  unfold memlinkhead
  cases head : (pool.tab bktid).list with
  | none =>
      refine ⟨fun other => ?_, fun other different => ?_, ?_, ?_, rfl⟩
      · by_cases here : other = mag
        · subst here
          simp only [Mempool.setList, Mempool.setMag, Function.update_self]
          exact ⟨rfl, rfl, rfl, rfl⟩
        · simp only [Mempool.setList, Mempool.setMag, Function.update_of_ne here]
          exact ⟨rfl, rfl, rfl, rfl⟩
      · simp only [Mempool.setList, Mempool.setMag, Function.update_of_ne different]
      · simp only [Mempool.setList, Mempool.setMag, Function.update_self]
      · rfl
  | some first =>
      refine ⟨fun other => ?_, fun other different => ?_, ?_, ?_, rfl⟩
      · by_cases here : other = mag
        · subst here
          simp only [Mempool.setList, Mempool.setMag, Function.update_self]
          by_cases same : other = first
          · subst same
            simp only [Function.update_self]
            exact ⟨rfl, rfl, rfl, rfl⟩
          · simp only [Function.update_of_ne same, Function.update_self]
            exact ⟨rfl, rfl, rfl, rfl⟩
        · simp only [Mempool.setList, Mempool.setMag, Function.update_of_ne here]
          by_cases same : other = first
          · subst same
            simp only [Function.update_self, Function.update_of_ne here]
            exact ⟨rfl, rfl, rfl, rfl⟩
          · simp only [Function.update_of_ne same, Function.update_of_ne here]
            exact ⟨rfl, rfl, rfl, rfl⟩
      · simp only [Mempool.setList, Mempool.setMag, Function.update_of_ne different]
        by_cases same : other = first
        · subst same
          simp only [Function.update_self, Function.update_of_ne different]
        · simp only [Function.update_of_ne same, Function.update_of_ne different]
      · simp only [Mempool.setList, Mempool.setMag, Function.update_self]
      · rfl

-- What kfree leaves when the magazine keeps another pointer out.
structure Freed (pool after : Mempool) (bktid mag ndx ptr : Nat) : Prop where
  moved : Moved pool after mag ndx (Function.update (pool.hdrtab mag).ptab ndx ptr)
  next : ∀ other, other ≠ mag → (after.hdrtab other).next = (pool.hdrtab other).next
  unlocked : ∀ other, (after.tab other).lk = false
  others : ∀ other, other ≠ bktid → (after.tab other).list = (pool.tab other).list
  list : if ndx = (pool.hdrtab mag).n - 1 then
      (after.tab bktid).list = some mag ∧ (after.hdrtab mag).next = (pool.tab bktid).list
    else (after.tab bktid).list = (pool.tab bktid).list ∧ (after.hdrtab mag).next = (pool.hdrtab mag).next

def pushedPool (pool : Mempool) (bktid mag ndx ptr : Nat) : Mempool :=
  (lockedPool pool bktid).setMag mag { pool.hdrtab mag with ndx := ndx, ptab := Function.update (pool.hdrtab mag).ptab ndx ptr }

@[simp] theorem pushedPool_here (pool : Mempool) (bktid mag ndx ptr : Nat) : (pushedPool pool bktid mag ndx ptr).hdrtab mag =
    { pool.hdrtab mag with ndx := ndx, ptab := Function.update (pool.hdrtab mag).ptab ndx ptr } := by
  simp [pushedPool, Mempool.setMag]

theorem pushedPool_there (pool : Mempool) (bktid mag ndx ptr other : Nat) (different : other ≠ mag) :
    (pushedPool pool bktid mag ndx ptr).hdrtab other = pool.hdrtab other := by
  simp [pushedPool, Mempool.setMag, different, lockedPool]

@[simp] theorem pushedPool_tab (pool : Mempool) (bktid mag ndx ptr : Nat) : (pushedPool pool bktid mag ndx ptr).tab =
    Function.update pool.tab bktid { pool.tab bktid with lk := true } := rfl

theorem pushed_linked (pool : Mempool) (bktid mag ndx ptr : Nat) (free : ∀ other, (pool.tab other).lk = false)
    (link : ndx = (pool.hdrtab mag).n - 1) :
    Freed pool (fmtxunlk (memlinkhead (pushedPool pool bktid mag ndx ptr) bktid mag) bktid) bktid mag ndx ptr := by
  obtain ⟨same, next, front, links, keep⟩ := linkhead_spec (pushedPool pool bktid mag ndx ptr) bktid mag
  have rest : ∀ other, other ≠ bktid → (memlinkhead (pushedPool pool bktid mag ndx ptr) bktid mag).tab other = pool.tab other := by
    intro other different
    rw [links, Function.update_of_ne different, pushedPool_tab, Function.update_of_ne different]
  refine ⟨⟨keep, ?_, ?_, ?_, ?_, ?_⟩, ?_, ?_, ?_, ?_⟩
  · intro other different
    rw [← pushedPool_there pool bktid mag ndx ptr other different]
    exact same other
  · exact (same mag).info.trans (by rw [pushedPool_here])
  · exact (same mag).n.trans (by rw [pushedPool_here])
  · exact (same mag).ndx.trans (by rw [pushedPool_here])
  · exact (same mag).ptab.trans (by rw [pushedPool_here])
  · intro other different
    rw [← pushedPool_there pool bktid mag ndx ptr other different]
    exact next other different
  · exact unlocked_after pool _ bktid free rest
  · intro other different
    simp only [fmtxunlk, Function.update_of_ne different, rest other different]
  · rw [if_pos link]
    refine ⟨?_, ?_⟩
    · simp only [fmtxunlk, Function.update_self, links]
    · refine front.trans ?_
      rw [pushedPool_tab, Function.update_self]

theorem pushed_unlinked (pool : Mempool) (bktid mag ndx ptr : Nat) (free : ∀ other, (pool.tab other).lk = false)
    (link : ndx ≠ (pool.hdrtab mag).n - 1) : Freed pool (fmtxunlk (pushedPool pool bktid mag ndx ptr) bktid) bktid mag ndx ptr := by
  have rest : ∀ other, other ≠ bktid → (pushedPool pool bktid mag ndx ptr).tab other = pool.tab other := by
    intro other different
    rw [pushedPool_tab, Function.update_of_ne different]
  refine ⟨⟨rfl, ?_, ?_, ?_, ?_, ?_⟩, ?_, ?_, ?_, ?_⟩
  · intro other different
    simp only [fmtxunlk, pushedPool_there pool bktid mag ndx ptr other different]
    exact ⟨rfl, rfl, rfl, rfl⟩
  · simp only [fmtxunlk, pushedPool_here]
  · simp only [fmtxunlk, pushedPool_here]
  · simp only [fmtxunlk, pushedPool_here]
  · simp only [fmtxunlk, pushedPool_here]
  · intro other different
    simp only [fmtxunlk, pushedPool_there pool bktid mag ndx ptr other different]
  · exact unlocked_after pool _ bktid free rest
  · intro other different
    simp only [fmtxunlk, Function.update_of_ne different, rest other different]
  · rw [if_neg link]
    refine ⟨?_, ?_⟩
    · simp only [fmtxunlk, Function.update_self, pushedPool_tab]
    · simp only [fmtxunlk, pushedPool_here]

theorem kfree_freed (pool : Mempool) (bktid mag ndx ptr : Nat) (positive : 0 < ptr) (free : ∀ other, (pool.tab other).lk = false)
    (home : memgetmag ptr pool = mag) (bkt : memmaggetbkt (pool.hdrtab mag) = bktid) (large : bktid < ptrbits)
    (shape : (pool.hdrtab mag).ndx = ndx + 1) (out : 0 < ndx) (most : ndx < 256) :
    ∃ after, kfree pool ptr = some (after, none) ∧ Freed pool after bktid mag ndx ptr := by
  have push : mempush (pool.hdrtab mag) ptr =
      some { pool.hdrtab mag with ndx := ndx, ptab := Function.update (pool.hdrtab mag).ptab ndx ptr } := by
    rw [mempush, shape]
    exact if_pos most
  have lock := lock_taken pool bktid large (free bktid)
  have notFull : memmagfull ((pushedPool pool bktid mag ndx ptr).hdrtab mag) = false := by
    rw [pushedPool_here, memmagfull]
    exact beq_eq_false_iff_ne.mpr (Nat.ne_of_gt out)
  have call : kfree pool ptr = some (fmtxunlk (kfreemag (pushedPool pool bktid mag ndx ptr) bktid mag ptr).1 bktid,
      (kfreemag (pushedPool pool bktid mag ndx ptr) bktid mag ptr).2) := by
    rw [kfree, if_neg (Nat.ne_of_gt positive), kfreeptr]
    simp only [home, bkt, lock, lockedPool_hdrtab, push, Option.bind_eq_bind, Option.bind_some]
    rfl
  simp only [kfreemag, notFull, Bool.false_eq_true, if_false] at call
  simp only [pushedPool_here] at call
  by_cases link : ndx = (pool.hdrtab mag).n - 1
  · rw [if_pos link] at call
    exact ⟨_, call, pushed_linked pool bktid mag ndx ptr free link⟩
  · rw [if_neg link] at call
    exact ⟨_, call, pushed_unlinked pool bktid mag ndx ptr free link⟩

theorem freed_kept (heap : Heap) (after : Mempool) (slab : Nat × Nat) (i ndx nb : Nat) (working : Working heap) (member : slab ∈ heap.slabs)
    (inside : i < pieces slab.2) (live : (piece slab i, nb) ∈ heap.live)
    (shape : (heap.pool.hdrtab (memgetmag slab.1 heap.pool)).ndx = ndx + 1) (out : 0 < ndx)
    (freed : Freed heap.pool after slab.2 (memgetmag slab.1 heap.pool) ndx (piece slab i)) :
    ∀ other ∈ heap.slabs, Kept after (heap.live.filter fun entry => entry.1 ≠ piece slab i) other := by
  have kept := working.kept slab member
  have most := kept.most
  have fewer : ∀ entry ∈ heap.live.filter fun entry => entry.1 ≠ piece slab i, entry ∈ heap.live :=
    fun entry filtered => (List.mem_filter.mp filtered).1
  -- the places above the returned pointer are the old ones
  have old : ∀ j, ndx ≤ j → j ≠ ndx → (heap.pool.hdrtab (memgetmag slab.1 heap.pool)).ndx ≤ j := by omega
  apply moved_kept heap after _ _ _ slab working member freed.moved
  · apply moved_here heap.pool after heap.live _ _ _ _ kept freed.moved out (by omega)
    · intro j first below
      by_cases back : j = ndx
      · rw [back, Function.update_self]
        exact ⟨i, inside, rfl⟩
      · rw [Function.update_of_ne back]
        exact kept.free j (old j first back) below
    · intro j k first below second above equal
      have idle : ∀ j, ndx ≤ j → j ≠ ndx → j < pieces slab.2 →
          (heap.pool.hdrtab (memgetmag slab.1 heap.pool)).ptab j ≠ piece slab i := by
        intro j first back below same
        apply kept.idle j (old j first back) below nb
        rw [same]
        exact live
      by_cases backLeft : j = ndx
      · by_cases backRight : k = ndx
        · rw [backLeft, backRight]
        · rw [backLeft, Function.update_self, Function.update_of_ne backRight] at equal
          exact absurd equal.symm (idle k second backRight above)
      · by_cases backRight : k = ndx
        · rw [backRight, Function.update_self, Function.update_of_ne backLeft] at equal
          exact absurd equal (idle j first backLeft below)
        · rw [Function.update_of_ne backLeft, Function.update_of_ne backRight] at equal
          exact kept.once j k (old j first backLeft) below (old k second backRight) above equal
    · intro j first below size entry
      by_cases back : j = ndx
      · rw [back, Function.update_self] at entry
        simp at entry
      · rw [Function.update_of_ne back] at entry
        exact kept.idle j (old j first back) below size (fewer _ entry)
  · intro other otherMember _ j first below size entry
    exact (working.kept other otherMember).idle j first below size (fewer _ entry)

theorem freed_lists (heap : Heap) (after : Mempool) (live : List (Nat × Nat)) (slab : Nat × Nat) (ndx ptr : Nat) (working : Working heap)
    (member : slab ∈ heap.slabs) (shape : (heap.pool.hdrtab (memgetmag slab.1 heap.pool)).ndx = ndx + 1)
    (freed : Freed heap.pool after slab.2 (memgetmag slab.1 heap.pool) ndx ptr) :
    ∃ mags, Listed ⟨after, false, heap.slabs, live⟩ mags := by
  obtain ⟨mags, listed⟩ := working.lists
  have most := (working.kept slab member).most
  have list := freed.list
  rw [(working.kept slab member).n] at list
  have some : ndx < pieces slab.2 := by omega
  by_cases empty : ndx = pieces slab.2 - 1
  · -- an empty magazine is on no list, and comes to the front of its own
    rw [if_pos empty] at list
    have outside : ∀ other, memgetmag slab.1 heap.pool ∉ mags other := by
      intro other inList
      obtain ⟨-, -, -, left⟩ := listed.left other _ inList
      rw [shape, listed_home heap mags working listed slab member other inList] at left
      omega
    refine ⟨_, (listed_stacked _ _).mpr (stacked_push _ _ _ _ _ _ _ ((listed_stacked _ _).mp listed) slab.2 _ outside
      list.1 list.2 freed.others freed.next ?_ (moved_stocked_here heap after live _ _ slab member freed.moved some))⟩
    exact fun bktid mag inList => moved_stocked heap after live _ _ _ freed.moved bktid mag (listed.left bktid mag inList)
      fun same => outside bktid (same ▸ inList)
  · rw [if_neg empty] at list
    refine ⟨mags, listed_kept heap after live _ _ mags slab working listed member freed.moved some (fun mag => ?_) fun bktid => ?_⟩
    · by_cases here : mag = memgetmag slab.1 heap.pool
      · rw [here]
        exact list.2
      · exact freed.next mag here
    · by_cases here : bktid = slab.2
      · rw [here]
        exact list.1
      · exact freed.others bktid here

theorem freed_working (heap : Heap) (ptr nb : Nat) (working : Working heap) (live : (ptr, nb) ∈ heap.live)
    (out : 2 ≤ (heap.pool.hdrtab (memgetmag ptr heap.pool)).ndx) :
    ∃ after, kfree heap.pool ptr = some (after, none) ∧
      Working ⟨after, false, heap.slabs, heap.live.filter fun entry => entry.1 ≠ ptr⟩ := by
  obtain ⟨slab, member, i, inside, place, -⟩ := working.placed _ live
  dsimp only at place
  subst place
  have kept := working.kept slab member
  have mag := piece_mag heap.pool heap.live slab kept i inside
  have positive : 0 < piece slab i := Nat.lt_of_lt_of_le kept.positive (Nat.le_add_right _ _)
  rw [mag] at out
  have most := kept.most
  have few := pieces_le slab.2 kept.small
  obtain ⟨ndx, shape⟩ : ∃ ndx, (heap.pool.hdrtab (memgetmag slab.1 heap.pool)).ndx = ndx + 1 :=
    ⟨_, (Nat.sub_add_cancel (by omega)).symm⟩
  obtain ⟨after, call, freed⟩ := kfree_freed heap.pool slab.2 (memgetmag slab.1 heap.pool) ndx (piece slab i) positive working.unlocked mag
    kept.bkt kept.large shape (by omega) (by omega)
  refine ⟨after, call, ?_⟩
  constructor
  · exact freed.unlocked
  · exact freed_kept heap after slab i ndx nb working member inside live shape (by omega) freed
  · exact working.apart
  · exact fun entry filtered => working.placed entry (List.mem_filter.mp filtered).1
  · exact working.nodup.sublist (List.filter_sublist.map _)
  · exact freed_lists heap after _ slab ndx _ working member shape freed

end OsZero.KernMem

import OsZero.UserMem.Alloc

set_option autoImplicit false

namespace OsZero.UserMem

open Links

-- A block number that is not on the stack leaves room for it, so that a
-- small or page buffer with a block in use has an owner.
theorem busy_owned (buf : Membuf) (stacked : Stacked buf) (owner : Owner buf) (id : Nat) (below : id < buf.geo.nblk) (busy : ¬ Idle buf id)
    (small : buf.geo.type ≠ .big) : buf.tls = true := by
  cases tls : buf.tls with
  | true => rfl
  | false =>
      have full := owner.2 small tls
      have count := stacked.count
      exact absurd (full_idle buf stacked (by omega) id below) busy

theorem owner_pushed (buf after : Membuf) (id : Nat) (owner : Owner buf) (pushed : Pushed buf after id)
    (owned : buf.geo.type ≠ .big → buf.tls = true) : Owner after := by
  rw [Owner, pushed.geo, pushed.tls]
  refine ⟨owner.1, fun small free => ?_⟩
  rw [owned small] at free
  cases free

theorem relput_owned (mem : Mem) (shelf : Membin → List Nat) (adr id : Nat) (buf : Membuf) (binned : Binned mem shelf)
    (member : adr ∈ mem.maps) (stacked : Stacked (mem.buf adr)) (small : (mem.buf adr).geo.type ≠ .big) (tls : (mem.buf adr).tls = true) (pushed : Pushed (mem.buf adr) buf id) :
    ∃ after others, memrelput (taken mem mem.hash adr buf) adr true = some after ∧ Still (taken mem mem.hash adr buf) after ∧
      Binned after others ∧ (Tally mem shelf → Tally after others) := by
  have owner := owner_pushed _ buf id (binned.owner adr member) pushed fun _ => tls
  have count := pushed.nfree
  have enough := stacked.count
  have top := stacked.top
  have type : buf.geo.type ≠ .big := by rwa [pushed.geo]
  have stay : 0 < (mem.buf adr).nfree → Binned (taken mem mem.hash adr buf) shelf := fun before =>
    binned_stay mem shelf mem.hash adr buf binned member pushed.geo pushed.tls before (by omega) owner
  unfold memrelput
  rw [taken_here]
  dsimp only
  by_cases inner : buf.nfree ≠ 1 ∧ buf.nfree ≠ buf.geo.nblk
  · rw [if_pos inner]
    exact ⟨_, shelf, rfl, still_refl _, stay (by omega), fun tally => tally⟩
  · rw [if_neg inner]
    by_cases first : buf.nfree = 1
    · rw [if_pos first, if_pos type]
      have home : homebin buf = tlsbin buf.geo.type buf.geo.slot := by
        rw [homebin, pushed.tls, tls]
        rfl
      rw [← home]
      exact ⟨_, _, rfl, still_push _ _ _, binned_push mem shelf mem.hash adr buf binned member (by omega) (by omega) owner,
        tally_push mem _ shelf _ adr rfl⟩
    · rw [if_neg first, if_pos rfl, if_pos type]
      have before : 0 < (mem.buf adr).nfree := by omega
      split
      · have whole : buf.nfree = buf.geo.nblk := by
          by_contra other
          exact inner ⟨first, other⟩
        have inside : adr ∈ shelf (tlsbin buf.geo.type buf.geo.slot) := by
          refine (binned.home _ adr).mpr ⟨member, before, ?_⟩
          rw [homebin, tls, pushed.geo]
          rfl
        obtain ⟨after, others, call, still, moved⟩ := toglob_binned mem shelf mem.hash _ _ adr buf binned member inside ⟨rfl, rfl⟩ type
          (by omega) whole
        exact ⟨after, others, call, still, moved⟩
      · exact ⟨_, shelf, rfl, still_refl _, stay before, fun tally => tally⟩

theorem relput_big (mem : Mem) (shelf : Membin → List Nat) (adr id : Nat) (buf : Membuf) (binned : Binned mem shelf)
    (member : adr ∈ mem.maps) (stacked : Stacked (mem.buf adr)) (big : (mem.buf adr).geo.type = .big)
    (tls : (mem.buf adr).tls = false) (pushed : Pushed (mem.buf adr) buf id) :
    ∃ after others, memrelput (lockedbin (taken mem mem.hash adr buf) (globbin buf.geo.type buf.geo.slot)) adr false = some after ∧
      Still (taken mem mem.hash adr buf) after ∧ Binned after others ∧ (Tally mem shelf → Tally after others) := by
  have owner := owner_pushed _ buf id (binned.owner adr member) pushed fun small => absurd big small
  have count := pushed.nfree
  have enough := stacked.count
  have top := stacked.top
  have type : buf.geo.type = .big := by rwa [pushed.geo]
  have stay : 0 < (mem.buf adr).nfree → Binned (taken mem mem.hash adr buf) shelf := fun before =>
    binned_stay mem shelf mem.hash adr buf binned member pushed.geo pushed.tls before (by omega) owner
  have here : (lockedbin (taken mem mem.hash adr buf) (globbin buf.geo.type buf.geo.slot)).buf adr = buf := taken_here mem mem.hash adr buf
  have released := relbin_locked (taken mem mem.hash adr buf) (globbin buf.geo.type buf.geo.slot) (binned.unlocked _)
  unfold memrelput
  rw [here]
  dsimp only
  by_cases first : buf.nfree = 1
  · rw [if_neg (fun inner => inner.1 first), if_pos first, if_neg (not_not_intro type)]
    have absent : ∀ bin, adr ∉ shelf bin := by
      intro bin inside
      have available := ((binned.home bin adr).mp inside).2.1
      omega
    have bare : (lockedbin (taken mem mem.hash adr buf) (globbin buf.geo.type buf.geo.slot)).link.prev adr = none :=
      binned.shelved.off adr absent
    have home : homebin buf = globbin buf.geo.type buf.geo.slot := by
      rw [homebin, pushed.tls, tls]
      rfl
    rw [clrprev_same _ _ bare, push_unlocked, ← home]
    exact ⟨_, _, rfl, still_push _ _ _, binned_push mem shelf mem.hash adr buf binned member (by omega) (by omega) owner,
      tally_push mem _ shelf _ adr rfl⟩
  · have before : 0 < (mem.buf adr).nfree := by omega
    have result : ∃ after others, some (memrelbin (lockedbin (taken mem mem.hash adr buf) (globbin buf.geo.type buf.geo.slot))
        (globbin buf.geo.type buf.geo.slot)) = some after ∧ Still (taken mem mem.hash adr buf) after ∧ Binned after others ∧
          (Tally mem shelf → Tally after others) := by
      rw [released]
      exact ⟨_, shelf, rfl, still_refl _, stay before, fun tally => tally⟩
    by_cases inner : buf.nfree ≠ 1 ∧ buf.nfree ≠ buf.geo.nblk
    · rw [if_pos inner]
      exact result
    · rw [if_neg inner, if_neg first]
      exact result

theorem relblk_returned (mem : Mem) (shelf : Membin → List Nat) (adr id : Nat) (binned : Binned mem shelf) (member : adr ∈ mem.maps)
    (stacked : Stacked (mem.buf adr)) (below : id < (mem.buf adr).geo.nblk)
    (busy : ¬ Idle (mem.buf adr) id) :
    ∃ after others buf, memrelblk mem adr id = some after ∧ Pushed (mem.buf adr) buf id ∧ Idle buf id ∧
      Still (taken mem mem.hash adr buf) after ∧ Binned after others ∧ (Tally mem shelf → Tally after others) := by
  obtain ⟨buf, put, pushed⟩ := putfree_pushed (mem.buf adr) stacked id below busy
  have idle := putfree_idle (mem.buf adr) buf stacked id below put
  have owner := binned.owner adr member
  by_cases big : (mem.buf adr).geo.type = .big
  · have tls := owner.1 big
    obtain ⟨after, others, call, still, moved⟩ := relput_big mem shelf adr id buf binned member stacked big tls pushed
    refine ⟨after, others, buf, ?_, pushed, idle, still, moved⟩
    have lock := lkbin_free mem (globbin (mem.buf adr).geo.type (mem.buf adr).geo.slot) (binned.unlocked _)
    have putLocked : membufputfree ((lockedbin mem (globbin (mem.buf adr).geo.type (mem.buf adr).geo.slot)).buf adr) id = some buf := put
    rw [pushed.geo] at call
    simp only [memrelblk, memlkglob, tls, Bool.false_eq_true, if_false, lock, Option.bind_eq_bind, Option.bind_some, putLocked]
    exact call
  · have tls := busy_owned (mem.buf adr) stacked owner id below busy big
    obtain ⟨after, others, call, still, moved⟩ := relput_owned mem shelf adr id buf binned member stacked big tls pushed
    refine ⟨after, others, buf, ?_, pushed, idle, still, moved⟩
    simp only [memrelblk, memlkglob, tls, if_true, Option.bind_eq_bind, Option.bind_some, put]
    exact call

structure Returned (mem after : Mem) (adr id : Nat) : Prop where
  laid : Laid after
  binned : ∃ shelf, Binned after shelf
  maps : after.maps = mem.maps
  geo : ∀ other, (after.buf other).geo = (mem.buf other).geo
  idle : ∀ other j, Idle (after.buf other) j → Idle (mem.buf other) j ∨ (other = adr ∧ j = id)

theorem pushed_returned (mem after : Mem) (adr id : Nat) (buf : Membuf) (laid : Laid mem) (pushed : Pushed (mem.buf adr) buf id)
    (still : Still (taken mem mem.hash adr buf) after) (binned : ∃ shelf, Binned after shelf) : Returned mem after adr id := by
  refine ⟨laid_still _ _ still (taken_laid mem mem.hash adr buf laid pushed.geo pushed.stacked laid.records), binned, still.maps, ?_, ?_⟩
  · intro other
    rw [still.geo, taken_geo mem mem.hash adr buf pushed.geo]
  · intro other j
    rw [idle_still _ _ still]
    by_cases here : other = adr
    · rw [here, taken_here]
      intro idle
      exact (pushed.others j idle).imp_right fun equal => ⟨rfl, equal⟩
    · rw [taken_elsewhere mem mem.hash adr other buf here]
      exact Or.inl

-- The descriptor of a block's page leads back to the block.
theorem describes_block (mem : Mem) (adr id ptr len : Nat) (desc : BitVec 64) (laid : Laid mem) (member : adr ∈ mem.maps)
    (below : id < (mem.buf adr).geo.nblk) (within : Within (mem.buf adr).geo id ptr len) (nonempty : 0 < len)
    (describes : Describes mem (memptrpage (BitVec.ofNat 64 ptr)) desc) :
    descbuf desc = adr ∧
      (if (mem.buf adr).geo.type ≠ .page then membufblkid (mem.buf adr).geo ptr else descid desc) = id := by
  have made := laid.made adr member
  have inside := (cell_inside adr _ made id below).2
  have top := made.top
  have base := made.base
  have page := ptrpage_toNat ptr (by have high := within.2; omega)
  obtain ⟨low, high⟩ := within
  have first := Nat.zero_le (id * blksize (mem.buf adr).geo)
  have same : descbuf desc = adr := by
    by_contra different
    have size := (made_size _ _ (laid.made _ describes.member)).1
    have otherBase := (laid.made _ describes.member).base
    have above := describes.above
    have under := describes.below
    rw [page] at above under
    have apart := laid.apart _ describes.member _ member different
    omega
  refine ⟨same, ?_⟩
  by_cases kind : (mem.buf adr).geo.type = .page
  · rw [if_neg (not_not_intro kind)]
    have cell := describes.number
    rw [same, page] at cell
    obtain ⟨start, stop⟩ := cell kind
    exact within_unique (mem.buf adr).geo (descid desc) id ptr 1 len Nat.one_pos nonempty ⟨by omega, by omega⟩ ⟨low, high⟩
  · rw [if_pos kind]
    exact blkid_exact adr _ made kind id ptr len below nonempty ⟨low, high⟩

theorem del_release (mem : Mem) (ptr : Nat) (desc : BitVec 64) (adr id : Nat) (same : descbuf desc = adr)
    (number : (if (mem.buf adr).geo.type ≠ .page then membufblkid (mem.buf adr).geo ptr else descid desc) = id) :
    membufdel mem ptr desc = memrelblk mem adr id := by
  rw [membufdel, same, number]

theorem still_rehash (mem after : Mem) (key : Nat) (free : mem.hash.lk = fun _ => false) (adr : Nat) (buf : Membuf)
    (still : Still (taken { mem with hash := locked mem.hash key } (locked mem.hash key) adr buf) after) :
    Still (taken mem mem.hash adr buf) { after with hash := memrelbit after.hash key } := by
  obtain ⟨hash, maps, geo, nfree, stk, stktop⟩ := still
  refine ⟨?_, maps, geo, nfree, stk, stktop⟩
  change memrelbit after.hash key = mem.hash
  rw [hash]
  exact relbit_locked mem.hash key free

theorem free_returned (mem : Mem) (shelf : Membin → List Nat) (adr id ptr len : Nat) (laid : Laid mem) (binned : Binned mem shelf)
    (member : adr ∈ mem.maps) (below : id < (mem.buf adr).geo.nblk) (within : Within (mem.buf adr).geo id ptr len) (nonempty : 0 < len)
    (busy : ¬ Idle (mem.buf adr) id) : ∃ after, memfree mem ptr = some after ∧ Returned mem after adr id := by
  obtain ⟨lookup, search, item⟩ := lookup_records mem.hash (Describes mem) (memptrpage (BitVec.ofNat 64 ptr)) laid.records
  have free := laid.records.free
  have call : memfree mem ptr = memfound mem (locked mem.hash (memhashkey (memptrpage (BitVec.ofNat 64 ptr)))) ptr
      (memhashkey (memptrpage (BitVec.ofNat 64 ptr))) lookup := by
    simp only [memfree, lkbit_free mem.hash _ free, Option.bind_eq_bind, Option.bind_some, search]
  rw [call]
  cases lookup with
  | missing dest =>
      -- the page's item is not where the search looks: the block is lost
      refine ⟨mem, ?_, laid, ⟨shelf, binned⟩, rfl, fun _ => rfl, fun _ _ => Or.inl⟩
      rw [memfound, relbit_locked mem.hash _ free]
  | found blk slot prev =>
      obtain ⟨same, number⟩ := describes_block mem adr id ptr len _ laid member below within nonempty (item blk slot prev rfl)
      obtain ⟨after, others, buf, release, pushed, -, still, moved, -⟩ := relblk_returned
        { mem with hash := locked mem.hash (memhashkey (memptrpage (BitVec.ofNat 64 ptr))) } shelf adr id
        ⟨binned.shelved, binned.unlocked, binned.home, binned.owner⟩ member (laid.stacked adr member) below busy
      refine ⟨{ after with hash := memrelbit after.hash (memhashkey (memptrpage (BitVec.ofNat 64 ptr))) }, ?_,
        pushed_returned mem _ adr id buf laid pushed (still_rehash mem after _ free adr buf still)
          ⟨others, moved.shelved, moved.unlocked, moved.home, moved.owner⟩⟩
      rw [memfound]
      change (membufdel _ ptr (mem.hash.val blk slot)).map _ = _
      rw [del_release { mem with hash := locked mem.hash (memhashkey (memptrpage (BitVec.ofNat 64 ptr))) } ptr _ adr id same number,
        release, Option.map_some]

end OsZero.UserMem

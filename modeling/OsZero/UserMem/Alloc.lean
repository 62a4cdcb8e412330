import OsZero.UserMem.Bins
import OsZero.UserMem.Filing

set_option autoImplicit false

namespace OsZero.UserMem

open Links

theorem desc_bits (adr tag : Nat) (page : adr % 4096 = 0) (low : adr < 18446744073709551616) (small : tag < 4096) :
    descbuf (BitVec.ofNat 64 adr ||| BitVec.ofNat 64 tag) = adr ∧ descid (BitVec.ofNat 64 adr ||| BitVec.ofNat 64 tag) = tag := by
  have value : (BitVec.ofNat 64 adr ||| BitVec.ofNat 64 tag).toNat = adr + tag := by
    rw [BitVec.toNat_or, BitVec.toNat_ofNat, BitVec.toNat_ofNat, Nat.mod_eq_of_lt low, Nat.mod_eq_of_lt (by omega)]
    have sum := Nat.two_pow_add_eq_or_of_lt (i := 12) small (adr / 4096)
    have whole : 2 ^ 12 * (adr / 4096) = adr := by omega
    rw [whole] at sum
    exact sum.symm
  have fits : adr + tag < 18446744073709551616 := by omega
  constructor
  · rw [descbuf, BitVec.toNat_and, value]
    have high := Magic.and_high (adr + tag) 12 fits (by decide)
    change (adr + tag) &&& (18446744073709551616 - 2 ^ 12) = adr
    rw [high]
    omega
  · rw [descid, BitVec.toNat_and, value]
    have low := Nat.and_two_pow_sub_one_eq_mod (adr + tag) 12
    change (adr + tag) &&& (2 ^ 12 - 1) = tag
    rw [low]
    omega

-- The page lies among the blocks of the buffer that the descriptor names, and
-- in the block whose number it has when the number is not recomputed.
structure Describes (mem : Mem) (page desc : BitVec 64) : Prop where
  member : descbuf desc ∈ mem.maps
  above : (mem.buf (descbuf desc)).geo.base ≤ page.toNat * 4096
  below : page.toNat * 4096 + 4096 ≤
    (mem.buf (descbuf desc)).geo.base + (mem.buf (descbuf desc)).geo.nblk * blksize (mem.buf (descbuf desc)).geo
  number : (mem.buf (descbuf desc)).geo.type = .page →
    Within (mem.buf (descbuf desc)).geo (descid desc) (page.toNat * 4096) 4096

theorem ptrpage_toNat (ptr : Nat) (low : ptr < 18446744073709551616) : (memptrpage (BitVec.ofNat 64 ptr)).toNat = ptr / 4096 := by
  rw [memptrpage, BitVec.toNat_ushiftRight, BitVec.toNat_ofNat, Nat.mod_eq_of_lt low, Nat.shiftRight_eq_div_pow]
  rfl

theorem describes_new (mem : Mem) (adr id tag ptr len : Nat) (made : Made adr (mem.buf adr).geo) (member : adr ∈ mem.maps)
    (number : id < (mem.buf adr).geo.nblk) (within : Within (mem.buf adr).geo id ptr len) (some : 0 < len)
    (tagged : tag = id ∨ ((mem.buf adr).geo.type ≠ .page ∧ tag = 0)) :
    Describes mem (memptrpage (BitVec.ofNat 64 ptr)) (BitVec.ofNat 64 adr ||| BitVec.ofNat 64 tag) := by
  obtain ⟨whole, inside⟩ := cell_inside adr _ made id number
  obtain ⟨size, pages⟩ := made_size adr _ made
  have top := made.top
  have base := made.base
  have aligned := made.page
  have few : id < 1024 := by
    have bound := (nblk_bounds (mem.buf adr).geo.type (mem.buf adr).geo.slot).2.1
    rw [← made.nblk] at bound
    omega
  obtain ⟨buf, number⟩ := desc_bits adr tag aligned (by omega) (by rcases tagged with rfl | ⟨-, rfl⟩ <;> omega)
  have page := ptrpage_toNat ptr (by have high := within.2; omega)
  have first := Nat.zero_le (id * blksize (mem.buf adr).geo)
  obtain ⟨low, high⟩ := within
  constructor
  · rwa [buf]
  · rw [buf, page]
    omega
  · rw [buf, page]
    omega
  · rw [buf, page, number]
    intro kind
    rcases tagged with rfl | ⟨other, -⟩
    · -- blocks of this type are whole pages
      have block : blksize (mem.buf adr).geo = 4096 * (1 + (mem.buf adr).geo.slot) := by
        rw [blksize_page _ kind]
        omega
      have start : tag * blksize (mem.buf adr).geo = 4096 * (tag * (1 + (mem.buf adr).geo.slot)) := by
        rw [block, Nat.mul_left_comm]
      have stop : (tag + 1) * blksize (mem.buf adr).geo = 4096 * ((tag + 1) * (1 + (mem.buf adr).geo.slot)) := by
        rw [block, Nat.mul_left_comm]
      rw [start] at low
      rw [stop] at high
      refine ⟨?_, ?_⟩
      · rw [start]
        omega
      · rw [stop]
        omega
    · exact absurd kind other

theorem describes_known (mem after : Mem) (page desc : BitVec 64)
    (known : ∀ adr ∈ mem.maps, adr ∈ after.maps ∧ (after.buf adr).geo = (mem.buf adr).geo) (describes : Describes mem page desc) :
    Describes after page desc := by
  obtain ⟨member, above, below, number⟩ := describes
  obtain ⟨still, geo⟩ := known _ member
  rw [← geo] at above below number
  exact ⟨still, above, below, number⟩

structure Laid (mem : Mem) : Prop where
  made : ∀ adr ∈ mem.maps, Made adr (mem.buf adr).geo
  apart : ∀ one ∈ mem.maps, ∀ two ∈ mem.maps, one ≠ two →
    one + (mem.buf one).geo.size ≤ two ∨ two + (mem.buf two).geo.size ≤ one
  stacked : ∀ adr ∈ mem.maps, Stacked (mem.buf adr)
  records : Records mem.hash (Describes mem)

theorem idle_still (mem after : Mem) (still : Still mem after) (adr id : Nat) : Idle (after.buf adr) id ↔ Idle (mem.buf adr) id := by
  rw [Idle, still.geo, still.stk, still.stktop, Idle]

theorem laid_still (mem after : Mem) (still : Still mem after) (laid : Laid mem) : Laid after := by
  constructor
  · intro adr member
    rw [still.maps] at member
    rw [still.geo]
    exact laid.made adr member
  · intro one first two second different
    rw [still.maps] at first second
    rw [still.geo, still.geo]
    exact laid.apart one first two second different
  · intro adr member
    rw [still.maps] at member
    obtain ⟨count, top, small, below, distinct⟩ := laid.stacked adr member
    rw [← still.stktop, ← still.nfree, ← still.geo] at count
    rw [← still.stktop, ← still.geo] at top
    rw [← still.geo] at small
    rw [← still.stktop, ← still.geo, ← still.stk] at below distinct
    exact ⟨count, top, small, below, distinct⟩
  · rw [still.hash]
    apply records_mono mem.hash (Describes mem) _ laid.records
    intro page desc
    apply describes_known mem after page desc
    intro adr member
    exact ⟨still.maps ▸ member, still.geo adr⟩

-- Block id of a buffer is handed out: it was on the stack, or the buffer is
-- new, and it is not on the stack any more.
structure Handed (size align : Nat) (mem after : Mem) (adr id ptr : Nat) : Prop where
  known : ∀ other ∈ mem.maps, other ∈ after.maps ∧ (after.buf other).geo = (mem.buf other).geo
  member : adr ∈ after.maps
  below : id < (after.buf adr).geo.nblk
  idle : adr ∈ mem.maps → Idle (mem.buf adr) id
  gone : ¬ Idle (after.buf adr) id
  others : ∀ other ∈ mem.maps, ∀ j, Idle (after.buf other) j → Idle (mem.buf other) j
  within : Within (after.buf adr).geo id ptr (max size memminblk)
  aligned : ptr % align = 0
  room : blksize (after.buf adr).geo = membufblksize (memtype (memasz size align)) (memslot (memasz size align))

theorem handed_still (size align : Nat) (mem middle after : Mem) (adr id ptr : Nat) (handed : Handed size align mem middle adr id ptr)
    (still : Still middle after) : Handed size align mem after adr id ptr := by
  obtain ⟨known, member, below, idle, gone, others, within, aligned, room⟩ := handed
  refine ⟨?_, still.maps ▸ member, ?_, idle, ?_, ?_, ?_, aligned, by rwa [still.geo]⟩
  · intro other there
    rw [still.maps, still.geo]
    exact known other there
  · rwa [still.geo]
  · rwa [idle_still middle after still]
  · intro other there j
    rw [idle_still middle after still]
    exact others other there j
  · rwa [still.geo]

theorem taken_geo (mem : Mem) (hash : Hash) (adr : Nat) (buf : Membuf) (same : buf.geo = (mem.buf adr).geo) (other : Nat) :
    ((taken mem hash adr buf).buf other).geo = (mem.buf other).geo := by
  by_cases here : other = adr
  · rw [here, taken_here, same]
  · rw [taken_elsewhere mem hash adr other buf here]

theorem taken_laid (mem : Mem) (hash : Hash) (adr : Nat) (buf : Membuf) (laid : Laid mem) (same : buf.geo = (mem.buf adr).geo)
    (stacked : Stacked buf) (records : Records hash (Describes mem)) : Laid (taken mem hash adr buf) := by
  have geo := taken_geo mem hash adr buf same
  constructor
  · intro other member
    rw [geo]
    exact laid.made other member
  · intro one first two second different
    rw [geo, geo]
    exact laid.apart one first two second different
  · intro other member
    by_cases here : other = adr
    · rwa [here, taken_here]
    · rw [taken_elsewhere mem hash adr other buf here]
      exact laid.stacked other member
  · apply records_mono hash (Describes mem) _ records
    intro page desc
    apply describes_known mem _ page desc
    exact fun other member => ⟨member, geo other⟩

-- What the three ways to a block have in common: the number off the stack, the
-- address of its block and the item in the hash.
theorem take_laid (sites : Sites) (mem : Mem) (adr size align : Nat) (tag : Nat → Nat) (laid : Laid mem) (member : adr ∈ mem.maps)
    (available : 0 < (mem.buf adr).nfree) (request : Request size align)
    (type : (mem.buf adr).geo.type = memtype (memasz size align)) (slot : (mem.buf adr).geo.slot = memslot (memasz size align))
    (tagged : ∀ buf id, membufgetfree (mem.buf adr) = some (buf, id) → tag id = id ∨ ((mem.buf adr).geo.type ≠ .page ∧ tag id = 0))
    (roomy : Roomy sites mem.hash) :
    ∃ buf id hash, membufgetfree (mem.buf adr) = some (buf, id) ∧ Popped (mem.buf adr) buf id ∧
      memsetbuf sites mem.hash (memalignptr (memadr (memtype (memasz size align)) buf.geo id) (max align memminalign)) adr (tag id) =
        some hash ∧
      Laid (taken mem hash adr buf) ∧
      Handed size align mem (taken mem hash adr buf) adr id
        (memalignptr (memadr (memtype (memasz size align)) buf.geo id) (max align memminalign)) := by
  have made := laid.made adr member
  obtain ⟨buf, id, got, popped⟩ := getfree_popped (mem.buf adr) (laid.stacked adr member) available
  have start := adr_exact adr _ made id popped.below
  obtain ⟨within, aligned⟩ := request_fits size align request adr _ made type slot id popped.below
  have nonempty : 0 < max size memminblk := by
    unfold memminblk
    omega
  refine ⟨buf, id, ?_⟩
  rw [popped.geo, ← type, start]
  generalize memalignptr ((mem.buf adr).geo.base + id * blksize (mem.buf adr).geo) (max align memminalign) = ptr at *
  have describes := describes_new mem adr id (tag id) ptr _ made member popped.below within nonempty (tagged buf id got)
  obtain ⟨hash, out, add, records⟩ := add_records sites mem.hash (Describes mem) (BitVec.ofNat 64 ptr) (BitVec.ofNat 64 adr)
    (BitVec.ofNat 64 (tag id)) laid.records roomy describes
  refine ⟨hash, got, popped, by rw [memsetbuf, add, Option.map_some],
    taken_laid mem hash adr buf laid popped.geo popped.stacked records, ?_⟩
  have room : blksize ((taken mem hash adr buf).buf adr).geo = membufblksize (memtype (memasz size align)) (memslot (memasz size align)) := by
    rw [taken_geo mem hash adr buf popped.geo, blksize, type, slot]
  refine ⟨fun other there => ⟨there, taken_geo mem hash adr buf popped.geo other⟩, member, ?_, fun _ => popped.idle, ?_, ?_, ?_, aligned, room⟩
  · rw [taken_geo mem hash adr buf popped.geo]
    exact popped.below
  · rw [taken_here]
    exact popped.gone
  · intro other _ j
    by_cases here : other = adr
    · rw [here, taken_here]
      exact popped.others j
    · rw [taken_elsewhere mem hash adr other buf here]
      exact fun idle => idle
  · rwa [taken_geo mem hash adr buf popped.geo]

theorem handed_nonzero (size align : Nat) (mem after : Mem) (adr id ptr : Nat) (handed : Handed size align mem after adr id ptr)
    (laid : Laid after) : ptr ≠ 0 := by
  have base := (laid.made adr handed.member).base
  have low := handed.within.1
  have first := Nat.zero_le (id * blksize (after.buf adr).geo)
  omega

structure Served (size align : Nat) (mem after : Mem) (ptr : Nat) : Prop where
  laid : Laid after
  binned : ∃ shelf, Binned after shelf
  handed : ∃ adr id, Handed size align mem after adr id ptr

-- The bins are in order again, and their counts are if they were before.
def Recounted (mem : Mem) (shelf : Membin → List Nat) (after : Mem) : Prop :=
  ∃ others, Binned after others ∧ (Tally mem shelf → Tally after others)

theorem recounted_binned (mem : Mem) (shelf : Membin → List Nat) (after : Mem) (recounted : Recounted mem shelf after) :
    ∃ others, Binned after others := by
  obtain ⟨others, binned, -⟩ := recounted
  exact ⟨others, binned⟩

theorem served_nonzero (size align : Nat) (mem after : Mem) (ptr : Nat) (served : Served size align mem after ptr) : ptr ≠ 0 := by
  obtain ⟨laid, -, adr, id, handed⟩ := served
  exact handed_nonzero size align mem after adr id ptr handed laid

theorem still_pop (mem : Mem) (bin : Membin) (adr : Nat) : Still mem (mempopbuf mem bin adr) :=
  ⟨rfl, rfl, fun _ => rfl, fun _ => rfl, fun _ => rfl, fun _ => rfl⟩

theorem still_push (mem : Mem) (bin : Membin) (adr : Nat) : Still mem (mempushbuf mem bin adr) :=
  ⟨rfl, rfl, fun _ => rfl, fun _ => rfl, fun _ => rfl, fun _ => rfl⟩

theorem owner_popped (buf after : Membuf) (id : Nat) (owner : Owner buf) (popped : Popped buf after id)
    (owned : buf.geo.type ≠ .big → buf.tls = true) : Owner after := by
  rw [Owner, popped.geo, popped.tls]
  refine ⟨owner.1, fun small free => ?_⟩
  rw [owned small] at free
  cases free

theorem getblktls_served (sites : Sites) (mem : Mem) (shelf : Membin → List Nat) (size align : Nat) (laid : Laid mem)
    (binned : Binned mem shelf) (request : Request size align) (small : memtype (memasz size align) ≠ .big)
    (roomy : Roomy sites mem.hash) :
    (memgetblktls sites mem (memtype (memasz size align)) (memslot (memasz size align)) (max align memminalign) = some (mem, 0) ∧
        shelf (tlsbin (memtype (memasz size align)) (memslot (memasz size align))) = []) ∨
      ∃ after ptr, memgetblktls sites mem (memtype (memasz size align)) (memslot (memasz size align)) (max align memminalign) =
          some (after, ptr) ∧ Served size align mem after ptr ∧ Recounted mem shelf after := by
  have first := binned.shelved.first (tlsbin (memtype (memasz size align)) (memslot (memasz size align)))
  unfold heads at first
  cases split : shelf (tlsbin (memtype (memasz size align)) (memslot (memasz size align))) with
  | nil =>
      rw [split] at first
      exact Or.inl ⟨by rw [memgetblktls, first]; rfl, rfl⟩
  | cons adr rest =>
      rw [split] at first
      have inside : adr ∈ shelf (tlsbin (memtype (memasz size align)) (memslot (memasz size align))) := by simp [split]
      obtain ⟨member, available, home⟩ := (binned.home _ adr).mp inside
      have owner := binned.owner adr member
      obtain ⟨tls, type, slot⟩ := tlsbin_home (mem.buf adr) _ _ owner small home
      obtain ⟨buf, id, hash, got, popped, set, laidAfter, handed⟩ := take_laid sites mem adr size align
        (fun id => if memtype (memasz size align) ≠ .page then 0 else id) laid member available request type slot
        (fun _ _ _ => by rw [type]; split <;> simp_all) roomy
      have ownerAfter := owner_popped _ buf id owner popped fun _ => tls
      have call : memgetblktls sites mem (memtype (memasz size align)) (memslot (memasz size align)) (max align memminalign) =
          some (if buf.nfree = 0 then mempopbuf (taken mem hash adr buf) (tlsbin (memtype (memasz size align)) (memslot (memasz size align))) adr
            else taken mem hash adr buf, memalignptr (memadr (memtype (memasz size align)) buf.geo id) (max align memminalign)) := by
        simp only [memgetblktls, first, List.head?_cons, got, Option.bind_eq_bind, Option.bind_some, set, taken]
      refine Or.inr ⟨_, _, call, ?_⟩
      by_cases last : buf.nfree = 0
      · rw [if_pos last]
        have still := still_pop (taken mem hash adr buf) (tlsbin (memtype (memasz size align)) (memslot (memasz size align))) adr
        have binnedAfter := binned_pop mem shelf hash _ adr rest buf binned member split last ownerAfter
        exact ⟨⟨laid_still _ _ still laidAfter, ⟨_, binnedAfter⟩, adr, id, handed_still size align mem _ _ adr id _ handed still⟩,
          _, binnedAfter, tally_remove mem _ shelf _ adr [] rest _ split rfl⟩
      · rw [if_neg last]
        have count := popped.nfree
        have now : 0 < buf.nfree := by omega
        have binnedAfter := binned_stay mem shelf hash adr buf binned member popped.geo popped.tls available now ownerAfter
        exact ⟨⟨laidAfter, ⟨shelf, binnedAfter⟩, adr, id, handed⟩, shelf, binnedAfter, fun tally => tally⟩

theorem still_globtotls (mem : Mem) (bin : Membin) (type : Memtype) (slot adr : Nat) :
    Still mem (memglobtotls (mempopbuf mem bin adr) type slot adr) := by
  obtain ⟨hash, maps, geo, nfree, stk, stktop⟩ := still_settls mem adr true
  exact ⟨hash, maps, geo, nfree, stk, stktop⟩

-- Where a buffer of a global bin goes after one of its blocks is taken.
theorem glob_placed (mem : Mem) (shelf : Membin → List Nat) (hash : Hash) (type : Memtype) (slot adr id : Nat) (rest : List Nat)
    (buf : Membuf) (binned : Binned mem shelf) (laid : Laid mem) (member : adr ∈ mem.maps)
    (split : shelf (globbin type slot) = adr :: rest) (kind : (mem.buf adr).geo.type = type ∧ (mem.buf adr).geo.slot = slot)
    (tls : (mem.buf adr).tls = false) (available : 0 < (mem.buf adr).nfree) (popped : Popped (mem.buf adr) buf id)
    (empty : type ≠ .big → shelf (tlsbin type slot) = []) (after middle : Mem)
    (first : middle = if buf.nfree = 0 ∨ type ≠ .big then mempopbuf (lockedbin (taken mem hash adr buf) (globbin type slot)) (globbin type slot) adr
      else lockedbin (taken mem hash adr buf) (globbin type slot))
    (second : after = if buf.nfree ≠ 0 ∧ type ≠ .big then memglobtotls middle type slot adr else memrelbin middle (globbin type slot)) :
    Still (taken mem hash adr buf) after ∧ Recounted mem shelf after := by
  have owner := binned.owner adr member
  have count := popped.nfree
  rw [pop_unlocked] at first
  by_cases big : type = .big
  · have ownerAfter := owner_popped _ buf id owner popped fun small => absurd (kind.1.trans big) small
    rw [if_neg (by simp [big])] at second
    by_cases last : buf.nfree = 0
    · rw [if_pos (Or.inl last)] at first
      have binnedAfter := binned_pop mem shelf hash _ adr rest buf binned member split last ownerAfter
      rw [relbin_free middle _ (by rw [first]; exact binnedAfter.unlocked _), first] at second
      rw [second]
      exact ⟨still_pop _ _ _, _, binnedAfter, tally_remove mem _ shelf _ adr [] rest _ split rfl⟩
    · rw [if_neg (by simp [last, big])] at first
      rw [first, relbin_locked (taken mem hash adr buf) _ (binned.unlocked _)] at second
      rw [second]
      have binnedAfter := binned_stay mem shelf hash adr buf binned member popped.geo popped.tls available (by omega) ownerAfter
      exact ⟨still_refl _, shelf, binnedAfter, fun tally => tally⟩
  · -- the buffer was full, and has at least two blocks
    have full := owner.2 (by rw [kind.1]; exact big) tls
    have two := (nblk_bounds (mem.buf adr).geo.type (mem.buf adr).geo.slot).2.2.1 (by rw [kind.1]; exact big)
    rw [← (laid.made adr member).nblk] at two
    have now : 0 < buf.nfree := by omega
    rw [if_pos (Or.inr big)] at first
    rw [if_pos ⟨by omega, big⟩, first] at second
    rw [second]
    refine ⟨still_globtotls _ _ _ _ _, ?_⟩
    exact globtotls_binned mem shelf hash type slot adr rest buf binned member split (empty big)
      ⟨by rw [popped.geo]; exact kind.1, by rw [popped.geo]; exact kind.2⟩ big now

theorem getblkglob_served (sites : Sites) (mem : Mem) (shelf : Membin → List Nat) (size align : Nat) (laid : Laid mem)
    (binned : Binned mem shelf) (request : Request size align) (roomy : Roomy sites mem.hash)
    (empty : memtype (memasz size align) ≠ .big → shelf (tlsbin (memtype (memasz size align)) (memslot (memasz size align))) = []) :
    memgetblkglob sites mem (memtype (memasz size align)) (memslot (memasz size align)) (max align memminalign) = some (mem, 0) ∨
      ∃ after ptr, memgetblkglob sites mem (memtype (memasz size align)) (memslot (memasz size align)) (max align memminalign) =
          some (after, ptr) ∧ Served size align mem after ptr ∧ Recounted mem shelf after := by
  have slots := (request_slots size align request).1
  have lock := lkbin_free mem (globbin (memtype (memasz size align)) (memslot (memasz size align))) (binned.unlocked _)
  have first := binned.shelved.first (globbin (memtype (memasz size align)) (memslot (memasz size align)))
  rw [← lockedbin_heads mem (globbin (memtype (memasz size align)) (memslot (memasz size align)))] at first
  unfold heads at first
  cases split : shelf (globbin (memtype (memasz size align)) (memslot (memasz size align))) with
  | nil =>
      rw [split] at first
      left
      simp only [memgetblkglob, lock, Option.bind_eq_bind, Option.bind_some, first, List.head?_nil, relbin_locked mem _ (binned.unlocked _)]
  | cons adr rest =>
      rw [split] at first
      have inside : adr ∈ shelf (globbin (memtype (memasz size align)) (memslot (memasz size align))) := by simp [split]
      obtain ⟨member, available, home⟩ := (binned.home _ adr).mp inside
      obtain ⟨tls, type, slot⟩ := globbin_home (mem.buf adr) _ _ slots (laid.made adr member).slots home
      obtain ⟨buf, id, hash, got, popped, set, laidAfter, handed⟩ := take_laid sites mem adr size align (fun id => id) laid member
        available request type slot (fun _ _ _ => Or.inl rfl) roomy
      obtain ⟨still, recounted⟩ := glob_placed mem shelf hash _ _ adr id rest buf binned laid member split ⟨type, slot⟩ tls
        available popped empty _ _ rfl rfl
      refine Or.inr ⟨_, _, ?_, ⟨laid_still _ _ still laidAfter, recounted_binned mem shelf _ recounted, adr, id,
        handed_still size align mem _ _ adr id _ handed still⟩, recounted⟩
      have gotLocked : membufgetfree ((lockedbin mem (globbin (memtype (memasz size align)) (memslot (memasz size align)))).buf adr) =
        some (buf, id) := got
      simp only [memgetblkglob, lock, Option.bind_eq_bind, Option.bind_some, first, List.head?_cons, gotLocked]
      change (memsetbuf sites mem.hash _ adr id).bind _ = _
      rw [set, Option.bind_some]
      rfl

structure Fresh (mem : Mem) (adr size : Nat) : Prop where
  page : adr % 4096 = 0
  positive : 0 < adr
  top : adr + size ≤ 18446744073709551616
  apart : ∀ other ∈ mem.maps, adr + size ≤ other ∨ other + (mem.buf other).geo.size ≤ adr

theorem fresh_new (mem : Mem) (adr size : Nat) (laid : Laid mem) (fresh : Fresh mem adr size) (nonempty : 0 < size) : adr ∉ mem.maps := by
  intro member
  have apart := fresh.apart adr member
  have whole := (made_size adr _ (laid.made adr member)).1
  omega

theorem mapbuf_here (mem : Mem) (type : Memtype) (slot adr : Nat) :
    (memmapbuf mem type slot adr).buf adr = membufinitfree ⟨adr + membufblkofs, type, slot, memnbufblk type slot,
      membufsize type slot (memnbufblk type slot)⟩ (memnbufblk type slot) := Function.update_self adr _ _

theorem mapbuf_elsewhere (mem : Mem) (type : Memtype) (slot adr other : Nat) (different : other ≠ adr) :
    (memmapbuf mem type slot adr).buf other = mem.buf other := Function.update_of_ne different _ _

theorem bufsize_positive (type : Memtype) (slot : Nat) (slots : Slots type slot) : 0 < membufsize type slot (memnbufblk type slot) := by
  rw [(bufsize_exact type slot slots).1]
  omega

theorem mapbuf_laid (mem : Mem) (type : Memtype) (slot adr : Nat) (laid : Laid mem) (slots : Slots type slot)
    (fresh : Fresh mem adr (membufsize type slot (memnbufblk type slot))) : Laid (memmapbuf mem type slot adr) := by
  have new := fresh_new mem adr _ laid fresh (bufsize_positive type slot slots)
  have old : ∀ other ∈ mem.maps, other ≠ adr := by
    rintro other member rfl
    exact new member
  have here := mapbuf_here mem type slot adr
  have elsewhere := mapbuf_elsewhere mem type slot adr
  have maps : (memmapbuf mem type slot adr).maps = adr :: mem.maps := rfl
  constructor
  · intro other member
    rcases List.mem_cons.mp (maps ▸ member) with rfl | member
    · rw [here]
      exact ⟨fresh.page, fresh.positive, rfl, rfl, slots, rfl, fresh.top⟩
    · rw [elsewhere other (old other member)]
      exact laid.made other member
  · intro one first two second different
    rcases List.mem_cons.mp (maps ▸ first) with rfl | firstOld
    · rcases List.mem_cons.mp (maps ▸ second) with rfl | secondOld
      · exact absurd rfl different
      · rw [here, elsewhere two (old two secondOld)]
        exact fresh.apart two secondOld
    · rcases List.mem_cons.mp (maps ▸ second) with rfl | secondOld
      · rw [here, elsewhere one (old one firstOld)]
        exact (fresh.apart one firstOld).symm
      · rw [elsewhere one (old one firstOld), elsewhere two (old two secondOld)]
        exact laid.apart one firstOld two secondOld different
  · intro other member
    rcases List.mem_cons.mp (maps ▸ member) with rfl | member
    · rw [here]
      exact initfree_stacked _ (nblk_bounds type slot).2.1
    · rw [elsewhere other (old other member)]
      exact laid.stacked other member
  · apply records_mono mem.hash (Describes mem) _ laid.records
    intro page desc
    apply describes_known mem _ page desc
    intro other member
    exact ⟨List.mem_cons_of_mem _ member, by rw [elsewhere other (old other member)]⟩

theorem mapbuf_handed (size align : Nat) (mem after : Mem) (type : Memtype) (slot adr id ptr : Nat) (new : adr ∉ mem.maps)
    (handed : Handed size align (memmapbuf mem type slot adr) after adr id ptr) : Handed size align mem after adr id ptr := by
  have elsewhere : ∀ other ∈ mem.maps, (memmapbuf mem type slot adr).buf other = mem.buf other := by
    intro other member
    exact mapbuf_elsewhere mem type slot adr other fun same => new (same ▸ member)
  refine ⟨?_, handed.member, handed.below, fun member => absurd member new, handed.gone, ?_, handed.within, handed.aligned, handed.room⟩
  · intro other member
    rw [← elsewhere other member]
    exact handed.known other (List.mem_cons_of_mem _ member)
  · intro other member j
    rw [← elsewhere other member]
    exact handed.others other (List.mem_cons_of_mem _ member) j

theorem link_placed (mem : Mem) (shelf : Membin → List Nat) (hash : Hash) (type : Memtype) (slot adr id : Nat) (buf : Membuf)
    (binned : Binned mem shelf) (new : adr ∉ mem.maps) (popped : Popped ((memmapbuf mem type slot adr).buf adr) buf id) :
    (memnbufblk type slot ≤ 1 → Binned (taken (memmapbuf mem type slot adr) hash adr buf) shelf) ∧
      (1 < memnbufblk type slot → ∃ after others, memlinkbuf (taken (memmapbuf mem type slot adr) hash adr buf) type slot adr = some after ∧
        Still (taken (memmapbuf mem type slot adr) hash adr buf) after ∧ Binned after others ∧ (Tally mem shelf → Tally after others)) := by
  have bare : (taken (memmapbuf mem type slot adr) hash adr buf).link.prev adr = none :=
    (mapbuf_shelved mem shelf type slot adr binned new).2.1
  have unlocked : ∀ bin, ((taken (memmapbuf mem type slot adr) hash adr buf).bin bin).lk = false := binned.unlocked
  have bounds := nblk_bounds type slot
  have geo := popped.geo
  have tls := popped.tls
  have count := popped.nfree
  rw [mapbuf_here] at geo tls count
  change buf.tls = false at tls
  change buf.nfree = (memnbufblk type slot : Int) - 1 at count
  have kind : buf.geo.type = type ∧ buf.geo.slot = slot := by
    rw [geo]
    exact ⟨rfl, rfl⟩
  have elsewhere : ∀ other, other ≠ adr → (taken (memmapbuf mem type slot adr) hash adr buf).buf other = mem.buf other := by
    intro other different
    rw [taken_elsewhere _ _ _ _ _ different, mapbuf_elsewhere mem type slot adr other different]
  constructor
  · intro single
    have big : type = .big := by
      by_contra small
      have two := bounds.2.2.1 small
      omega
    exact (new_binned mem (taken (memmapbuf mem type slot adr) hash adr buf) shelf type slot adr buf binned new rfl rfl rfl
      (taken_here _ _ _ _) elsewhere ⟨fun _ => tls, fun small => absurd (kind.1.trans big) small⟩).1 (by omega)
  · intro several
    by_cases big : type = .big
    · obtain ⟨others, linked, tally⟩ := (new_binned mem (taken (memmapbuf mem type slot adr) hash adr buf) shelf type slot adr buf binned new
        rfl rfl rfl (taken_here _ _ _ _) elsewhere ⟨fun _ => tls, fun small => absurd (kind.1.trans big) small⟩).2 (by omega)
      have home : homebin buf = globbin type slot := by
        rw [homebin, tls, kind.1, kind.2]
        rfl
      rw [home] at linked tally
      refine ⟨_, others, ?_, still_push _ _ _, linked, tally⟩
      have bareLocked : (lockedbin (taken (memmapbuf mem type slot adr) hash adr buf) (globbin type slot)).link.prev adr = none := bare
      rw [memlinkbuf, if_neg (not_not_intro big), lkbin_free _ _ (unlocked _), Option.map_some, clrprev_same _ _ bareLocked, push_unlocked]
    · obtain ⟨others, linked, tally⟩ := (new_binned mem (memsettls (taken (memmapbuf mem type slot adr) hash adr buf) adr true) shelf type slot adr
        { buf with tls := true } binned new rfl rfl rfl (by rw [settls_here, taken_here])
        (fun other different => by rw [settls_elsewhere _ _ _ _ different, elsewhere other different])
        ⟨fun impossible => absurd (kind.1.symm.trans impossible) big, fun _ impossible => by cases impossible⟩).2
        (by change 0 < buf.nfree; omega)
      have home : homebin { buf with tls := true } = tlsbin type slot := by
        rw [homebin]
        dsimp only
        rw [kind.1, kind.2]
        rfl
      rw [home] at linked tally
      have settled := still_settls (taken (memmapbuf mem type slot adr) hash adr buf) adr true
      refine ⟨_, others, ?_, still_trans _ _ _ settled (still_push _ _ _), linked, tally⟩
      rw [memlinkbuf, if_pos big, clrprev_same _ _ bare]
      rfl

theorem initfree_first (geo : Memgeo) (nblk : Nat) (buf : Membuf) (id : Nat)
    (got : membufgetfree (membufinitfree geo nblk) = some (buf, id)) : id = 0 := by
  have room : (membufinitfree geo nblk).stktop < membufmaxblks := (by decide : 0 < 1024)
  rw [membufgetfree, if_pos room] at got
  cases got
  exact ite_self 0

theorem newblk_served (sites : Sites) (mem : Mem) (shelf : Membin → List Nat) (size align adr : Nat) (laid : Laid mem)
    (binned : Binned mem shelf) (request : Request size align) (roomy : Roomy sites mem.hash)
    (fresh : Fresh mem adr (membufsize (memtype (memasz size align)) (memslot (memasz size align))
      (memnbufblk (memtype (memasz size align)) (memslot (memasz size align))))) :
    ∃ after ptr, memnewblk sites mem (memtype (memasz size align)) (memslot (memasz size align)) (max align memminalign) (some adr) =
      some (after, ptr) ∧ Served size align mem after ptr ∧ Recounted mem shelf after := by
  have slots := (request_slots size align request).1
  have new := fresh_new mem adr _ laid fresh (bufsize_positive _ _ slots)
  have mapped := mapbuf_laid mem _ _ adr laid slots fresh
  have here := mapbuf_here mem (memtype (memasz size align)) (memslot (memasz size align)) adr
  have member : adr ∈ (memmapbuf mem (memtype (memasz size align)) (memslot (memasz size align)) adr).maps := List.mem_cons_self
  have bounds := nblk_bounds (memtype (memasz size align)) (memslot (memasz size align))
  have first : ∀ buf id, membufgetfree ((memmapbuf mem (memtype (memasz size align)) (memslot (memasz size align)) adr).buf adr) =
      some (buf, id) → id = 0 := by
    rw [here]
    exact initfree_first _ _
  obtain ⟨buf, id, hash, got, popped, set, laidAfter, handed⟩ := take_laid sites
    (memmapbuf mem (memtype (memasz size align)) (memslot (memasz size align)) adr) adr size align (fun _ => 0) mapped member
    (by rw [here]; exact Int.natCast_pos.mpr bounds.1) request (by rw [here]; rfl) (by rw [here]; rfl)
    (fun buf id got => Or.inl (first buf id got).symm) roomy
  have start : memadr (memtype (memasz size align)) buf.geo id = buf.geo.base := by
    have exact := adr_exact adr _ (mapped.made adr member) id popped.below
    have type : ((memmapbuf mem (memtype (memasz size align)) (memslot (memasz size align)) adr).buf adr).geo.type =
        memtype (memasz size align) := by rw [here]; rfl
    rw [type, ← popped.geo, first buf id got, Nat.zero_mul, Nat.add_zero] at exact
    rw [first buf id got]
    exact exact
  rw [start] at set handed
  have init : meminitbuf sites mem (memtype (memasz size align)) (memslot (memasz size align)) (max align memminalign) adr =
      some (taken (memmapbuf mem (memtype (memasz size align)) (memslot (memasz size align)) adr) hash adr buf,
        memalignptr buf.geo.base (max align memminalign)) := by
    simp only [meminitbuf, got, Option.bind_eq_bind, Option.bind_some, set, taken]
  have nonzero := handed_nonzero size align _ _ adr id _ handed laidAfter
  obtain ⟨alone, several⟩ := link_placed mem shelf hash _ _ adr id buf binned new popped
  by_cases single : memnbufblk (memtype (memasz size align)) (memslot (memasz size align)) ≤ 1
  · refine ⟨_, _, ?_, ⟨laidAfter, ⟨shelf, alone single⟩, adr, id, mapbuf_handed size align mem _ _ _ adr id _ new handed⟩,
      shelf, alone single, fun tally => tally⟩
    simp only [memnewblk, init, Option.bind_eq_bind, Option.bind_some]
    rw [if_neg (by omega)]
  · obtain ⟨after, others, linked, still, recounted⟩ := several (by omega)
    refine ⟨after, _, ?_, ⟨laid_still _ _ still laidAfter, ⟨others, recounted.1⟩, adr, id,
      handed_still size align mem _ _ adr id _ (mapbuf_handed size align mem _ _ _ adr id _ new handed) still⟩, others, recounted⟩
    simp only [memnewblk, init, Option.bind_eq_bind, Option.bind_some]
    rw [if_pos ⟨nonzero, by omega⟩, linked, Option.map_some]

theorem alloc_served (sites : Sites) (mem : Mem) (shelf : Membin → List Nat) (size align : Nat) (map : Option Nat) (laid : Laid mem)
    (binned : Binned mem shelf) (request : Request size align) (roomy : Roomy sites mem.hash)
    (fresh : ∀ adr, map = some adr → Fresh mem adr (membufsize (memtype (memasz size align)) (memslot (memasz size align))
      (memnbufblk (memtype (memasz size align)) (memslot (memasz size align))))) :
    memalloc sites mem size align map = some (mem, 0) ∨
      ∃ after ptr, memalloc sites mem size align map = some (after, ptr) ∧ Served size align mem after ptr ∧
        Recounted mem shelf after := by
  have globally : (memtype (memasz size align) ≠ .big →
        shelf (tlsbin (memtype (memasz size align)) (memslot (memasz size align))) = []) →
      memtrytls sites mem (memtype (memasz size align)) (memslot (memasz size align)) (max align memminalign) = some (mem, 0) →
      memalloc sites mem size align map = some (mem, 0) ∨
        ∃ after ptr, memalloc sites mem size align map = some (after, ptr) ∧ Served size align mem after ptr ∧
          Recounted mem shelf after := by
    intro empty tls
    rcases getblkglob_served sites mem shelf size align laid binned request roomy empty with glob | ⟨after, ptr, glob, served⟩
    · have call : memalloc sites mem size align map =
          memnewblk sites mem (memtype (memasz size align)) (memslot (memasz size align)) (max align memminalign) map := by
        simp [memalloc, memgetblk, tls, glob]
      rw [call]
      cases map with
      | none => exact Or.inl rfl
      | some adr => exact Or.inr (newblk_served sites mem shelf size align adr laid binned request roomy (fresh adr rfl))
    · have nonzero := served_nonzero size align mem after ptr served.1
      exact Or.inr ⟨after, ptr, by simp [memalloc, memgetblk, tls, glob, nonzero], served⟩
  by_cases big : memtype (memasz size align) = .big
  · exact globally (fun small => absurd big small) (by rw [memtrytls, if_neg (not_not_intro big)])
  · rcases getblktls_served sites mem shelf size align laid binned request big roomy with ⟨tls, empty⟩ | ⟨after, ptr, tls, served⟩
    · exact globally (fun _ => empty) (by rw [memtrytls, if_pos big, tls])
    · have nonzero := served_nonzero size align mem after ptr served.1
      exact Or.inr ⟨after, ptr, by simp [memalloc, memgetblk, memtrytls, big, tls, nonzero], served⟩

end OsZero.UserMem

import OsZero.UserMem.Filing

set_option autoImplicit false

namespace OsZero.UserMem

open Chains Runs

-- The items of the blocks in use are the pairs of the map, each once.
structure Entries (hash : Hash) (blocks : Nat → List Nat) (map : BitVec 64 → Option (BitVec 64)) : Prop where
  items : ∀ blk i, i < hash.ntab blk →
    blk ∈ blocks (memhashkey (hash.adr blk i)) ∧ map (hash.adr blk i) = some (hash.val blk i)
  once : ∀ blk i other j, i < hash.ntab blk → j < hash.ntab other → hash.adr blk i = hash.adr other j → blk = other ∧ i = j
  added : ∀ page desc, map page = some desc → ∃ blk i, i < hash.ntab blk ∧ hash.adr blk i = page

def Inv (hash : Hash) (map : BitVec 64 → Option (BitVec 64)) : Prop :=
  hash.lk = (fun _ => false) ∧ hash.buflk = false ∧ ∃ blocks spare, Linkage hash blocks spare ∧ Entries hash blocks map

theorem entry_place (hash : Hash) (blocks : Nat → List Nat) (map : BitVec 64 → Option (BitVec 64))
    (entries : Entries hash blocks map) (page desc : BitVec 64) (known : map page = some desc) :
    ∃ blk i, i < hash.ntab blk ∧ hash.adr blk i = page ∧ hash.val blk i = desc ∧ blk ∈ blocks (memhashkey page) := by
  obtain ⟨blk, i, inside, same⟩ := entries.added page desc known
  obtain ⟨member, value⟩ := entries.items blk i inside
  rw [same] at member value
  exact ⟨blk, i, inside, same, Option.some.inj (value.symm.trans known), member⟩

theorem known_or_absent (hash : Hash) (blocks : Nat → List Nat) (map : BitVec 64 → Option (BitVec 64))
    (entries : Entries hash blocks map) (page : BitVec 64) (unknown : map page = none) :
    ∀ blk i, i < hash.ntab blk → hash.adr blk i ≠ page := by
  intro blk i inside equal
  have value := (entries.items blk i inside).2
  rw [equal, unknown] at value
  cases value

theorem entries_filed (hash : Hash) (blocks : Nat → List Nat) (map : BitVec 64 → Option (BitVec 64))
    (entries : Entries hash blocks map) : Filed hash blocks :=
  fun blk used => ⟨_, (entries.items blk 0 (Nat.pos_of_ne_zero used)).1⟩

theorem lookup_found (hash : Hash) (blocks : Nat → List Nat) (spare : List Nat) (map : BitVec 64 → Option (BitVec 64))
    (linkage : Linkage hash blocks spare) (entries : Entries hash blocks map) (page desc : BitVec 64)
    (known : map page = some desc) (reported : ∀ blk i, i < hash.ntab blk → hash.adr blk i = page → Reported (hash.ntab blk) i) :
    ∃ front blk back slot, blocks (memhashkey page) = front ++ blk :: back ∧ hash.val blk slot = desc ∧
      memlookup hash (memhashkey page) page = some (.found blk slot front.getLast?) := by
  obtain ⟨blk, slot, inside, same, value, member⟩ := entry_place hash blocks map entries page desc known
  obtain ⟨front, back, split⟩ := List.append_of_mem member
  have nodup := linkage.nodup (memhashkey page)
  rw [split] at nodup
  have hit : memfindslot hash page blk = some slot := by
    have single : ∀ i < hash.ntab blk, hash.adr blk i = page ↔ i = slot := by
      intro i below
      constructor
      · intro equal
        exact (entries.once blk i blk slot below inside (equal.trans same.symm)).2
      · intro equal
        rw [equal, same]
    rw [slot_exact hash page blk slot inside single, if_pos (reported blk slot inside same)]
  have miss : ∀ other ∈ front, memfindslot hash page other = none := by
    intro other before
    apply slot_miss
    intro i below equal
    have both := (entries.once other i blk slot below inside (equal.trans same.symm)).1
    exact (List.nodup_append.mp nodup).2.2 other before blk List.mem_cons_self both
  exact ⟨front, blk, back, slot, split, value, lookup_hit hash blocks spare linkage _ page front back blk slot split miss hit⟩

theorem lookup_missing (hash : Hash) (blocks : Nat → List Nat) (spare : List Nat) (map : BitVec 64 → Option (BitVec 64))
    (linkage : Linkage hash blocks spare) (entries : Entries hash blocks map) (page : BitVec 64) (unknown : map page = none) :
    ∃ dest, memlookup hash (memhashkey page) page = some (.missing dest) ∧ Choice hash (blocks (memhashkey page)) dest := by
  have miss : ∀ blk ∈ blocks (memhashkey page), memfindslot hash page blk = none := by
    intro blk _
    apply slot_miss
    exact fun i below => known_or_absent hash blocks map entries page unknown blk i below
  exact ⟨_, lookup_none hash blocks spare linkage _ page miss, dest_first hash (blocks (memhashkey page))⟩

theorem entries_frame (hash after : Hash) (blocks others : Nat → List Nat) (map : BitVec 64 → Option (BitVec 64))
    (entries : Entries hash blocks map) (ntab : after.ntab = hash.ntab) (adr : after.adr = hash.adr) (val : after.val = hash.val)
    (members : ∀ key blk, blk ∈ blocks key → blk ∈ others key) : Entries after others map := by
  constructor
  · intro blk i inside
    rw [ntab] at inside
    rw [adr, val]
    obtain ⟨member, value⟩ := entries.items blk i inside
    exact ⟨members _ _ member, value⟩
  · rw [ntab, adr]
    exact entries.once
  · rw [ntab, adr]
    exact entries.added

theorem stored_entries (hash after : Hash) (blocks others : Nat → List Nat) (map : BitVec 64 → Option (BitVec 64)) (blk : Nat)
    (page desc : BitVec 64) (entries : Entries hash blocks map) (stored : Stored hash after blk page desc)
    (unknown : map page = none) (member : blk ∈ others (memhashkey page))
    (members : ∀ key item, item ∈ blocks key → item ∈ others key) :
    Entries after others (Function.update map page (some desc)) := by
  obtain ⟨newInside, newAdr, newVal⟩ := stored_new hash after blk page desc stored
  have elsewhere : ∀ other i, i < hash.ntab other → hash.adr other i ≠ page := by
    intro other i inside equal
    have value := (entries.items other i inside).2
    rw [equal, unknown] at value
    cases value
  constructor
  · intro other i inside
    rcases stored_cases hash after blk page desc stored other i inside with ⟨rfl, rfl⟩ | old
    · rw [newAdr, newVal, Function.update_self]
      exact ⟨member, rfl⟩
    · obtain ⟨-, adr, val⟩ := stored_old hash after blk page desc stored other i old
      rw [adr, val, Function.update_of_ne (elsewhere other i old)]
      obtain ⟨place, value⟩ := entries.items other i old
      exact ⟨members _ _ place, value⟩
  · intro one i two j left right equal
    rcases stored_cases hash after blk page desc stored one i left with ⟨rfl, rfl⟩ | oldLeft
    · rcases stored_cases hash after one page desc stored two j right with ⟨rfl, rfl⟩ | oldRight
      · exact ⟨rfl, rfl⟩
      · obtain ⟨-, adr, -⟩ := stored_old hash after one page desc stored two j oldRight
        exact absurd (adr.symm.trans (equal.symm.trans newAdr)) (elsewhere two j oldRight)
    · obtain ⟨-, adrLeft, -⟩ := stored_old hash after blk page desc stored one i oldLeft
      rcases stored_cases hash after blk page desc stored two j right with ⟨rfl, rfl⟩ | oldRight
      · exact absurd (adrLeft.symm.trans (equal.trans newAdr)) (elsewhere one i oldLeft)
      · obtain ⟨-, adrRight, -⟩ := stored_old hash after blk page desc stored two j oldRight
        exact entries.once one i two j oldLeft oldRight (adrLeft.symm.trans (equal.trans adrRight))
  · intro other value known
    by_cases same : other = page
    · exact ⟨blk, hash.ntab blk, newInside, newAdr.trans same.symm⟩
    · rw [Function.update_of_ne same] at known
      obtain ⟨place, i, inside, adr⟩ := entries.added other value known
      obtain ⟨still, kept, -⟩ := stored_old hash after blk page desc stored place i inside
      exact ⟨place, i, still, kept.trans adr⟩

-- The page's item, if it has one, stands where the switch reports it, and a
-- page without one goes to a new block or to a place inside its block.
def Sound (sites : Sites) (hash : Hash) (op : Memop) : Prop :=
  (∀ blk i, i < hash.ntab blk → hash.adr blk i = op.page → Reported (hash.ntab blk) i) ∧
    ((∀ blk i, i < hash.ntab blk → hash.adr blk i ≠ op.page) →
      ∀ ptr buf id, op = .add ptr buf id → ∀ blk ∈ follow hash.chain hash.nblk (hash.head (memhashkey op.page)),
        hash.ntab blk ≠ memhasharrayitems → Inside sites blk (hash.ntab blk))

theorem additem_inv (sites : Sites) (hash : Hash) (blocks : Nat → List Nat) (spare : List Nat) (map : BitVec 64 → Option (BitVec 64))
    (page desc : BitVec 64) (dest : Option (Nat × Nat)) (free : hash.lk = fun _ => false) (buffree : hash.buflk = false)
    (linkage : Linkage hash blocks spare) (entries : Entries hash blocks map) (unknown : map page = none)
    (room : ∀ blk ∈ blocks (memhashkey page), hash.ntab blk ≠ memhasharrayitems → Inside sites blk (hash.ntab blk))
    (choice : Choice hash (blocks (memhashkey page)) dest) :
    ∃ next, memadditem sites (locked hash (memhashkey page)) (memhashkey page) page desc dest = some next ∧
      Inv next (Function.update map page (some desc)) := by
  have filed := entries_filed hash blocks map entries
  obtain ⟨next, others, rest, blk, call, added⟩ :=
    additem_added sites hash blocks spare page desc dest free buffree linkage filed room choice
  refine ⟨next, call, added.free, added.buffree, others, rest, added.linkage, ?_⟩
  exact stored_entries hash next blocks others map blk page desc entries added.stored unknown added.member added.members

theorem membufop_inv (sites : Sites) (hash : Hash) (map : BitVec 64 → Option (BitVec 64)) (op : Memop) (inv : Inv hash map)
    (sound : Sound sites hash op) :
    ∃ next, membufop sites hash op = some (next, (pagemap map op).2) ∧ Inv next (pagemap map op).1 := by
  obtain ⟨free, buffree, blocks, spare, linkage, entries⟩ := inv
  obtain ⟨reported, room⟩ := sound
  have lockedLinkage := linkage_frame hash (locked hash (memhashkey op.page)) blocks spare linkage rfl rfl rfl rfl
  have lockedEntries := entries_frame hash (locked hash (memhashkey op.page)) blocks blocks map entries rfl rfl rfl fun _ _ same => same
  cases known : map op.page with
  | some desc =>
      obtain ⟨front, blk, back, slot, split, value, lookup⟩ :=
        lookup_found _ blocks spare map lockedLinkage lockedEntries op.page desc known reported
      obtain ⟨others, fronted⟩ := found_fronted hash blocks spare _ blk front back free buffree linkage split
      have kept := entries_frame hash _ blocks others map entries fronted.ntab fronted.adr fronted.val fronted.members
      have next : Inv _ map := ⟨fronted.free, fronted.buffree, others, spare, fronted.linkage, kept⟩
      have spec : pagemap map op = (map, desc) := by
        cases op <;> simp only [Memop.page] at known <;> simp [pagemap, known]
      refine ⟨_, ?_, by rw [spec]; exact next⟩
      simp only [membufop, lkbit_free hash _ free, lookup, Option.bind_eq_bind, Option.bind_some, memfinish, value, spec]
  | none =>
      obtain ⟨dest, lookup, choice⟩ := lookup_missing _ blocks spare map lockedLinkage lockedEntries op.page known
      cases op with
      | chk ptr =>
          simp only [Memop.page] at known lookup
          refine ⟨hash, ?_, ⟨free, buffree, blocks, spare, linkage, entries⟩⟩
          simp only [membufop, Memop.page, lkbit_free hash _ free, lookup, Option.bind_eq_bind, Option.bind_some, memfinish,
            relbit_locked hash _ free, pagemap, known, Option.getD_none]
      | add ptr buf id =>
          have chain := follow_seg hash.chain hash.nblk (hash.head (memhashkey (memptrpage ptr))) _ (linkage.chains _)
            (blocks_bounded hash blocks spare linkage _)
          have space := room (known_or_absent hash blocks map entries _ known) ptr buf id rfl
          simp only [Memop.page, chain] at known lookup choice space
          obtain ⟨next, added, inv⟩ := additem_inv sites hash blocks spare map (memptrpage ptr) (buf ||| id) dest free buffree
            linkage entries known space choice
          refine ⟨next, ?_, by simpa only [pagemap, known] using inv⟩
          simp only [membufop, Memop.page, lkbit_free hash _ free, lookup, Option.bind_eq_bind, Option.bind_some, memfinish,
            added, Option.map_some, pagemap, known]

theorem emptyhash_inv : Inv emptyhash fun _ => none := by
  refine ⟨rfl, rfl, fun _ => [], [], ?_, ?_⟩
  · constructor <;> simp [emptyhash, Seg]
  · constructor <;> simp [emptyhash]

theorem membufop_refines (sites : Sites) (ops : List Memop) (sound : Allows (membufop sites) (Sound sites) emptyhash ops) :
    Refines (membufop sites) pagemap (fun _ _ => True) emptyhash (fun _ => none) ops :=
  refines_of_allows (membufop sites) pagemap Inv _ (Sound sites) (fun _ _ _ => trivial) (membufop_inv sites)
    emptyhash _ ops emptyhash_inv sound

def lowSites : Sites := ⟨fun map => 65536 * (map % 1024), fun map => by omega⟩

def onePage : BitVec 64 := 0x7f0000019000
def otherPage : BitVec 64 := 0x7f0000075000

example : memhashkey (memptrpage onePage) = memhashkey (memptrpage otherPage) := by decide

theorem first_add_alone (sites : Sites) (ptr buf id : BitVec 64) (next : Hash) (out : BitVec 64)
    (call : membufop sites emptyhash (.add ptr buf id) = some (next, out)) (blk i : Nat) (inside : i < next.ntab blk) :
    i = 0 ∧ next.ntab blk = 1 := by
  simp only [membufop, memlkbit, memlookup, emptyhash, memfinish, memadditem, memfindroom, memaddroom, memaddblk, memgethashitem,
    memmaphashitems, memstoreitem, if_pos (first_inside sites 0), Option.bind_eq_bind, Option.bind_some, Option.map_some,
    Bool.false_eq_true, if_false] at call
  cases call
  simp only [memsethead] at inside ⊢
  by_cases same : blk = 0
  · subst same
    rw [Function.update_self] at inside ⊢
    omega
  · rw [Function.update_of_ne same, (linkitems_spec _ _ _).2.1] at inside
    simp [meminithashitem] at inside

-- Whether the page's item stands where it is reported, or, for a page without one,
-- whether the blocks of its chain have room.
def soundat (hash : Hash) (op : Memop) : Bool :=
  ((List.range hash.nblk).any fun blk => (List.range (hash.ntab blk)).any fun i => hash.adr blk i == op.page && decide (Reported (hash.ntab blk) i)) ||
    ((List.range hash.nblk).all fun blk => (List.range (hash.ntab blk)).all fun i => hash.adr blk i != op.page) &&
      (follow hash.chain hash.nblk (hash.head (memhashkey op.page))).all fun blk => hash.ntab blk < 54

theorem soundat_sound (sites : Sites) (hash : Hash) (map : BitVec 64 → Option (BitVec 64)) (op : Memop) (inv : Inv hash map)
    (passed : soundat hash op = true) : Sound sites hash op := by
  obtain ⟨-, -, blocks, spare, linkage, entries⟩ := inv
  rcases Bool.or_eq_true_iff.mp passed with found | missing
  · simp only [List.any_eq_true, List.mem_range, Bool.and_eq_true, beq_iff_eq, decide_eq_true_eq] at found
    obtain ⟨blk, -, i, inside, same, reported⟩ := found
    refine ⟨fun other j below equal => ?_, fun absent => absurd same (absent blk i inside)⟩
    obtain ⟨rfl, rfl⟩ := entries.once other j blk i below inside (equal.trans same.symm)
    exact reported
  · simp only [Bool.and_eq_true, List.all_eq_true, List.mem_range, bne_iff_ne, decide_eq_true_eq] at missing
    obtain ⟨absent, room⟩ := missing
    refine ⟨fun blk i inside equal => ?_, fun _ _ _ _ _ blk member _ => early_inside sites blk _ (room blk member)⟩
    have made := linkage.made _ blk (entries.items blk i inside).1
    exact absurd equal (absent blk made i inside)

theorem allows_of_soundat (sites : Sites) (ops : List Memop)
    (passed : passes (fun hash op => (membufop sites hash op).map Prod.fst) soundat emptyhash ops = true) :
    Allows (membufop sites) (Sound sites) emptyhash ops := by
  refine allows_of_meets _ _ _ ops (meets_of_passes _ (fun hash => ∃ map, Inv hash map) _ soundat ?_ _ ops ⟨_, emptyhash_inv⟩ passed)
  rintro hash op ⟨map, inv⟩ fits
  have sound := soundat_sound sites hash map op inv fits
  obtain ⟨next, call, kept⟩ := membufop_inv sites hash map op inv sound
  refine ⟨sound, fun other taken => ?_⟩
  rw [call, Option.map_some] at taken
  cases taken
  exact ⟨_, kept⟩

-- Four pages of one chain, of which the first and the last are looked up, and one of
-- another chain.
def chainedPages : List Memop :=
  [.add onePage 0x100000 1, .add otherPage 0x100000 2, .add 0x7f0006186000 0x200000 1, .add 0x7f0013b25000 0x200000 2,
    .add 0x7f0000001000 0x300000 1, .chk onePage, .chk 0x7f0013b25000, .chk 0x7f0000001000, .chk 0x7f0000002000]

theorem membufop_refines_chained :
    Allows (membufop lowSites) (Sound lowSites) emptyhash chainedPages ∧
      Refines (membufop lowSites) pagemap (fun _ _ => True) emptyhash (fun _ => none) chainedPages := by
  have sound : Allows (membufop lowSites) (Sound lowSites) emptyhash chainedPages := allows_of_soundat lowSites _ (by decide +kernel)
  exact ⟨sound, membufop_refines lowSites _ sound⟩

-- The second page stands at place 1 of the block, where a comparison that hits
-- is overwritten by the one at place 0.
theorem second_page_not_found :
    ¬ Refines (membufop lowSites) pagemap (fun _ _ => True) emptyhash (fun _ => none)
      [.add onePage 0x100000 1, .add otherPage 0x100000 2, .chk otherPage] := by
  rintro ⟨-, one, first, -, two, second, -, three, third, -⟩
  have calls : ((membufop lowSites emptyhash (.add onePage 0x100000 1)).bind fun result =>
      (membufop lowSites result.1 (.add otherPage 0x100000 2)).bind fun result =>
        (membufop lowSites result.1 (.chk otherPage)).map Prod.snd) = some memhashnotfound := by decide +kernel
  simp only [first, second, third, Option.bind_some, Option.map_some, Option.some.injEq] at calls
  revert calls
  decide +kernel

end OsZero.UserMem

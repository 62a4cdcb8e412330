import OsZero.UserMem.Arena

set_option autoImplicit false

namespace OsZero.UserMem

open Links Runs

-- A block is asked for by size and alignment, from which the callers of
-- memgetblk work out its type and slot, and given back by buffer and number.
inductive Blkop where
  | get (size align : Nat) (map : Option Nat)
  | rel (adr id : Nat)

def memblk (sites : Sites) (mem : Mem) : Blkop → Option Mem
  | .get size align map =>
      let asz := memasz size align
      (memgetblk sites mem (memslot asz) (memtype asz) (max align memminalign) map).map Prod.fst
  | .rel adr id => memrelblk mem adr id

-- The global bin of a type and slot, as the arrays of struct mem are declared.
def classbin (type : Memtype) (slot : Nat) : Membin :=
  match type with
  | .small => .smallbin slot
  | .page => .pagebin slot
  | .big => .bigbin slot

def ownbin (buf : Membuf) : Membin :=
  if buf.tls then tlsbin buf.geo.type buf.geo.slot else classbin buf.geo.type buf.geo.slot

structure Listed (mem : Mem) (shelf : Membin → List Nat) : Prop where
  linked : ∀ bin, Ended mem.link (shelf bin)
  first : ∀ bin, (mem.bin bin).list = (shelf bin).head?
  nbuf : ∀ bin, (mem.bin bin).nbuf = (shelf bin).length
  none : ∀ adr ∈ mem.maps, ((∀ bin, adr ∉ shelf bin) ↔ (mem.buf adr).nfree = 0)
  own : ∀ bin, ∀ adr ∈ shelf bin, adr ∈ mem.maps ∧ bin = ownbin (mem.buf adr)

def InBins (mem : Mem) : Prop := ∃ shelf, Listed mem shelf

structure Counted (mem : Mem) : Prop where
  laid : Laid mem
  bins : ∃ shelf, Binned mem shelf ∧ Tally mem shelf

theorem globbin_class (type : Memtype) (slot : Nat) (slots : Slots type slot) : globbin type slot = classbin type slot := by
  cases type with
  | big => exact if_pos (Nat.lt_succ_of_le slots.2)
  | _ => rfl

theorem ownbin_home (buf : Membuf) (slots : Slots buf.geo.type buf.geo.slot) : homebin buf = ownbin buf := by
  rw [homebin, ownbin, globbin_class _ _ slots]

theorem counted_listed (mem : Mem) (counted : Counted mem) : InBins mem := by
  obtain ⟨laid, shelf, binned, tally⟩ := counted
  refine ⟨shelf, binned.shelved.ended, binned.shelved.first, tally, ?_, ?_⟩
  · intro adr member
    have stacked := laid.stacked adr member
    have count := stacked.count
    have top := stacked.top
    constructor
    · intro off
      by_contra available
      exact off _ ((binned.home _ adr).mpr ⟨member, by omega, rfl⟩)
    · intro full bin here
      have available := ((binned.home bin adr).mp here).2.1
      omega
  · intro bin adr here
    obtain ⟨member, -, home⟩ := (binned.home bin adr).mp here
    rw [← ownbin_home _ (laid.made adr member).slots]
    exact ⟨member, home⟩

-- Only blocks in use are given back, and mapanon finds free addresses.
def Proper (mem : Mem) : Blkop → Prop
  | .get size align map => size < 18446744073709551616 ∧ (∃ k < 64, align = 2 ^ k) ∧
      ∀ adr, map = some adr → Fresh mem adr (mapsize size align)
  | .rel adr id => adr ∈ mem.maps ∧ id < (mem.buf adr).geo.nblk ∧ ¬ Idle (mem.buf adr) id

def Sized (sites : Sites) (mem : Mem) : Blkop → Prop
  | .get size align _ => size + align < 18446744073709551616 ∧ memasz size align ≤ 9223372036854775808 ∧ Roomy sites mem.hash
  | .rel _ _ => True

theorem get_counted (sites : Sites) (mem : Mem) (size align : Nat) (map : Option Nat) (counted : Counted mem)
    (request : Request size align) (roomy : Roomy sites mem.hash) (fresh : ∀ adr, map = some adr → Fresh mem adr (mapsize size align)) :
    ∃ next, memblk sites mem (.get size align map) = some next ∧ Counted next := by
  obtain ⟨laid, shelf, binned, tally⟩ := counted
  change ∃ next, (memalloc sites mem size align map).map Prod.fst = some next ∧ Counted next
  rcases alloc_served sites mem shelf size align map laid binned request roomy fresh with failed | ⟨after, ptr, call, served, recounted⟩
  · exact ⟨mem, by rw [failed]; rfl, laid, shelf, binned, tally⟩
  · obtain ⟨others, binnedAfter, recount⟩ := recounted
    exact ⟨after, by rw [call]; rfl, served.laid, others, binnedAfter, recount tally⟩

theorem rel_counted (mem : Mem) (adr id : Nat) (counted : Counted mem) (member : adr ∈ mem.maps)
    (below : id < (mem.buf adr).geo.nblk) (busy : ¬ Idle (mem.buf adr) id) :
    ∃ next, memrelblk mem adr id = some next ∧ Counted next := by
  obtain ⟨laid, shelf, binned, tally⟩ := counted
  obtain ⟨after, others, buf, release, pushed, -, still, moved, recount⟩ :=
    relblk_returned mem shelf adr id binned member (laid.stacked adr member) below busy
  have taken := taken_laid mem mem.hash adr buf laid pushed.geo pushed.stacked laid.records
  exact ⟨after, release, laid_still _ _ still taken, others, moved, recount tally⟩

theorem memblk_counted (sites : Sites) (mem : Mem) (op : Blkop) (counted : Counted mem) (meets : Proper mem op ∧ Sized sites mem op) :
    True ∧ ∃ next, memblk sites mem op = some next ∧ Counted next := by
  obtain ⟨proper, sized⟩ := meets
  refine ⟨trivial, ?_⟩
  cases op with
  | get size align map =>
      exact get_counted sites mem size align map counted ⟨proper.2.1, sized.1, sized.2.1⟩ sized.2.2 proper.2.2
  | rel adr id => exact rel_counted mem adr id counted proper.1 proper.2.1 proper.2.2

theorem emptymem_counted : Counted emptymem := ⟨emptymem_laid, fun _ => [], emptymem_binned, fun _ => rfl⟩

-- Over every run of requests that have a slot, each buffer with a free block is
-- in the one bin it belongs to and each bin is a list of nbuf buffers.
theorem memblk_run_listed (sites : Sites) (ops : List Blkop) (proper : Meets (memblk sites) Proper emptymem ops)
    (sized : Meets (memblk sites) (Sized sites) emptymem ops) : Holds (memblk sites) InBins (fun _ _ => True) emptymem ops :=
  holds_mono (memblk sites) Counted InBins _ counted_listed emptymem ops
    (invariant_holds (memblk sites) Counted _ _ (memblk_counted sites) emptymem ops emptymem_counted
      (meets_and (memblk sites) Proper (Sized sites) emptymem ops proper sized))

def getrel (size : Nat) : List Blkop := [.get size memminalign (some 0x100000), .rel 0x100000 0]

-- The one buffer that the first call has mapped, with block 0 off its stack.
def Opened (mem : Mem) : Prop :=
  mem.maps = [0x100000] ∧ 0 < (mem.buf 0x100000).geo.nblk ∧
    ∀ cur < (mem.buf 0x100000).geo.nblk, (mem.buf 0x100000).stktop ≤ cur → (mem.buf 0x100000).stk cur ≠ 0

instance (mem : Mem) : Decidable (Opened mem) := inferInstanceAs (Decidable (_ ∧ _ ∧ _))

theorem getrel_proper (size : Nat) (small : size < 18446744073709551616)
    (top : 0x100000 + mapsize size memminalign ≤ 18446744073709551616)
    (opened : (memblk lowSites emptymem (.get size memminalign (some 0x100000))).all Opened = true) :
    Meets (memblk lowSites) Proper emptymem (getrel size) := by
  refine ⟨⟨small, ⟨4, by decide, rfl⟩, fun adr same => ?_⟩, fun one taken => ⟨?_, fun _ _ => trivial⟩⟩
  · cases same
    exact fresh_alone _ _ _ rfl (by decide) (by decide) top
  · rw [taken, Option.all_some, decide_eq_true_iff] at opened
    obtain ⟨maps, below, off⟩ := opened
    refine ⟨by rw [maps]; exact List.mem_singleton_self _, below, ?_⟩
    rintro ⟨cur, low, high, zero⟩
    exact off cur high low zero

instance (buf : Membuf) (id : Nat) : Decidable (Idle buf id) :=
  decidable_of_iff (∃ cur < buf.geo.nblk, buf.stktop ≤ cur ∧ buf.stk cur = id)
    ⟨fun ⟨cur, below, top, same⟩ => ⟨cur, top, below, same⟩, fun ⟨cur, top, below, same⟩ => ⟨cur, below, top, same⟩⟩

-- Whether an operation is proper and meets the condition.
def opfits (mem : Mem) : Blkop → Bool
  | .get size align map => align == 2 ^ align.log2 && align.log2 < 64 && size + align < 18446744073709551616 &&
      map.all (fun adr => Fresh mem adr (mapsize size align)) && (memasz size align ≤ 9223372036854775808 && hasroom mem.hash)
  | .rel adr id => mem.maps.contains adr && id < (mem.buf adr).geo.nblk && !decide (Idle (mem.buf adr) id)

theorem opfits_meets (sites : Sites) (mem : Mem) (op : Blkop) (counted : Counted mem) (passed : opfits mem op = true) :
    Proper mem op ∧ Sized sites mem op := by
  cases op with
  | get size align map =>
      simp only [opfits, Bool.and_eq_true, decide_eq_true_eq, beq_iff_eq, Option.all_eq_true] at passed
      obtain ⟨⟨⟨⟨power, small⟩, whole⟩, fresh⟩, bound, room⟩ := passed
      exact ⟨⟨by omega, ⟨_, small, power⟩, fresh⟩, whole, bound, records_roomy sites mem.hash _ counted.laid.records room⟩
  | rel adr id =>
      simp only [opfits, Bool.and_eq_true, decide_eq_true_eq, List.contains_iff_mem, Bool.not_eq_true', decide_eq_false_iff_not] at passed
      exact ⟨⟨passed.1.1, passed.1.2, passed.2⟩, trivial⟩

-- A buffer of two blocks, both taken, and a second buffer of the same class, which is
-- in the bin when the first one comes back to it.
def twoBuffers : List Blkop :=
  [.get 262144 memminalign (some 0x100000), .get 262144 memminalign none, .get 262144 memminalign (some 0x200000), .rel 0x100000 0,
    .rel 0x100000 1]

theorem memblk_run_listed_two :
    Meets (memblk lowSites) Proper emptymem twoBuffers ∧ Holds (memblk lowSites) InBins (fun _ _ => True) emptymem twoBuffers := by
  obtain ⟨proper, sized⟩ := meets_both_of_passes _ Counted _ _ _ opfits (memblk_counted lowSites) (opfits_meets lowSites) _ twoBuffers
    emptymem_counted (by decide +kernel)
  exact ⟨proper, memblk_run_listed lowSites twoBuffers proper sized⟩

-- Slot 64 of the big bins is slot 0 of the page bins.
theorem huge_buffer_in_page_bin :
    Meets (memblk lowSites) Proper emptymem (getrel 9223372036854775809) ∧
      ¬ Holds (memblk lowSites) InBins (fun _ _ => True) emptymem (getrel 9223372036854775809) := by
  constructor
  · exact getrel_proper 9223372036854775809 (by decide) (by decide +kernel) (by decide +kernel)
  · rintro ⟨-, -, one, first, -, -, two, second, shelf, listed⟩
    have value : ((memblk lowSites emptymem (.get 9223372036854775809 memminalign (some 0x100000))).bind fun one =>
        memblk lowSites one (.rel 0x100000 0)).map (fun two => ((two.bin (.pagebin 0)).list, ownbin (two.buf 0x100000))) =
          some (some 0x100000, .bigbin 64) := by decide +kernel
    rw [first, Option.bind_some, second, Option.map_some, Option.some.injEq, Prod.mk.injEq] at value
    obtain ⟨list, own⟩ := value
    have here : 0x100000 ∈ shelf (.pagebin 0) := List.mem_of_head? ((listed.first _).symm.trans list)
    have wrong := (listed.own _ _ here).2
    rw [own] at wrong
    cases wrong

end OsZero.UserMem

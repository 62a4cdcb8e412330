import Mathlib.Data.Fintype.EquivFin
import OsZero.Lib.Freestack
import OsZero.UserMem.Malloc

set_option autoImplicit false

namespace OsZero.UserMem

open Freestack

-- The slots that requests of up to 2^63 bytes ask for.
def Slots : Memtype → Nat → Prop
  | .small, slot => 4 ≤ slot ∧ slot ≤ 11
  | .page, slot => slot ≤ 127
  | .big, slot => 20 ≤ slot ∧ slot ≤ 63

structure Made (adr : Nat) (geo : Memgeo) : Prop where
  page : adr % 4096 = 0
  positive : 0 < adr
  base : geo.base = adr + 4096
  nblk : geo.nblk = memnbufblk geo.type geo.slot
  slots : Slots geo.type geo.slot
  size : geo.size = membufsize geo.type geo.slot geo.nblk
  top : adr + geo.size ≤ 18446744073709551616

theorem blksize_power (type : Memtype) (slot : Nat) (slots : Slots type slot) (shift : type ≠ .page) :
    membufblksize type slot = 2 ^ slot ∧ slot ≤ 63 := by
  have low : slot ≤ 63 := by
    cases type with
    | small => exact Nat.le_trans slots.2 (by decide)
    | page => exact absurd rfl shift
    | big => exact slots.2
  have power : memshl 1 slot = 2 ^ slot := by
    unfold memshl
    rw [Nat.mod_eq_of_lt (by omega : slot < 64), Nat.one_shiftLeft]
    exact Nat.mod_eq_of_lt (Nat.lt_of_le_of_lt (Nat.pow_le_pow_right (by decide) low) (by decide : 2 ^ 63 < 18446744073709551616))
  cases type with
  | small => exact ⟨power, low⟩
  | page => exact absurd rfl shift
  | big => exact ⟨power, low⟩

def Exact (type : Memtype) (slot : Nat) : Prop :=
  membufsize type slot (memnbufblk type slot) = 4096 + memnbufblk type slot * membufblksize type slot ∧
    memnbufblk type slot * membufblksize type slot % 4096 = 0

instance (type : Memtype) (slot : Nat) : Decidable (Exact type slot) := inferInstanceAs (Decidable (_ ∧ _))

theorem bufsize_exact (type : Memtype) (slot : Nat) (slots : Slots type slot) : Exact type slot := by
  have small : ∀ slot < 12, 4 ≤ slot → Exact .small slot := by decide +kernel
  have page : ∀ slot < 128, Exact .page slot := by decide +kernel
  have big : ∀ slot < 64, 20 ≤ slot → Exact .big slot := by decide +kernel
  cases type with
  | small => exact small slot (Nat.lt_succ_of_le slots.2) slots.1
  | page => exact page slot (Nat.lt_succ_of_le slots)
  | big => exact big slot (Nat.lt_succ_of_le slots.2) slots.1

theorem nblk_bounds (type : Memtype) (slot : Nat) :
    0 < memnbufblk type slot ∧ memnbufblk type slot ≤ 1024 ∧ (type ≠ .big → 1 < memnbufblk type slot) ∧
      (type = .page → memnbufblk type slot ≤ 8) := by
  unfold memnbufblk
  cases type <;> dsimp only <;> (repeat' split) <;> simp

def blksize (geo : Memgeo) : Nat := membufblksize geo.type geo.slot

def Within (geo : Memgeo) (id ptr len : Nat) : Prop :=
  geo.base + id * blksize geo ≤ ptr ∧ ptr + len ≤ geo.base + (id + 1) * blksize geo

theorem made_size (adr : Nat) (geo : Memgeo) (made : Made adr geo) :
    geo.size = 4096 + geo.nblk * blksize geo ∧ geo.nblk * blksize geo % 4096 = 0 := by
  have exact := bufsize_exact geo.type geo.slot made.slots
  rw [made.size, made.nblk]
  exact exact

theorem cell_inside (adr : Nat) (geo : Memgeo) (made : Made adr geo) (id : Nat) (below : id < geo.nblk) :
    (id + 1) * blksize geo ≤ geo.nblk * blksize geo ∧ geo.base + (id + 1) * blksize geo ≤ adr + geo.size := by
  have whole : (id + 1) * blksize geo ≤ geo.nblk * blksize geo := Nat.mul_le_mul_right _ below
  have size := (made_size adr geo made).1
  have base := made.base
  exact ⟨whole, by omega⟩

theorem blksize_page (geo : Memgeo) (kind : geo.type = .page) : blksize geo = 4096 + 4096 * geo.slot := by
  rw [blksize, kind]
  rfl

theorem blksize_shift (adr : Nat) (geo : Memgeo) (made : Made adr geo) (kind : geo.type ≠ .page) :
    blksize geo = 2 ^ geo.slot ∧ geo.slot % 64 = geo.slot := by
  obtain ⟨value, low⟩ := blksize_power geo.type geo.slot made.slots kind
  exact ⟨value, Nat.mod_eq_of_lt (by omega)⟩

theorem blksize_positive (adr : Nat) (geo : Memgeo) (made : Made adr geo) : 0 < blksize geo := by
  by_cases kind : geo.type = .page
  · rw [blksize_page geo kind]
    omega
  · rw [(blksize_shift adr geo made kind).1]
    exact Nat.two_pow_pos _

theorem adr_exact (adr : Nat) (geo : Memgeo) (made : Made adr geo) (id : Nat) (below : id < geo.nblk) :
    memadr geo.type geo id = geo.base + id * blksize geo := by
  have inside := (cell_inside adr geo made id below).2
  have top := made.top
  have positive := blksize_positive adr geo made
  rw [Nat.succ_mul] at inside
  have fits : geo.base + id * blksize geo < 18446744073709551616 := by omega
  by_cases shift : geo.type = .page
  · rw [memadr, if_neg (not_not_intro shift), membufpageadr, ← blksize_page geo shift, Nat.mod_eq_of_lt fits]
  · obtain ⟨value, count⟩ := blksize_shift adr geo made shift
    rw [memadr, if_pos shift, membufblkadr, memshl, count, Nat.shiftLeft_eq, ← value,
      Nat.mod_eq_of_lt (by omega : id * blksize geo < 18446744073709551616), Nat.mod_eq_of_lt fits]

-- A pointer belongs to one block of a buffer, and its number is recovered
-- from the distance to the base.
theorem within_block (geo : Memgeo) (id ptr len : Nat) (some : 0 < len) (within : Within geo id ptr len) :
    (ptr - geo.base) / blksize geo = id := by
  obtain ⟨low, high⟩ := within
  apply Nat.div_eq_of_lt_le
  · omega
  · omega

theorem within_unique (geo : Memgeo) (one two ptr len other : Nat) (left : 0 < len) (right : 0 < other)
    (first : Within geo one ptr len) (second : Within geo two ptr other) : one = two := by
  rw [← within_block geo one ptr len left first, ← within_block geo two ptr other right second]

theorem blkid_exact (adr : Nat) (geo : Memgeo) (made : Made adr geo) (kind : geo.type ≠ .page) (id ptr len : Nat)
    (below : id < geo.nblk) (some : 0 < len) (within : Within geo id ptr len) : membufblkid geo ptr = id := by
  have inside := (cell_inside adr geo made id below).2
  have top := made.top
  obtain ⟨low, high⟩ := within
  obtain ⟨value, count⟩ := blksize_shift adr geo made kind
  have distance : (ptr + 18446744073709551616 - geo.base) % 18446744073709551616 = ptr - geo.base := by omega
  rw [membufblkid, distance, count, Nat.shiftRight_eq_div_pow, ← value]
  exact within_block geo id ptr len some ⟨low, high⟩

-- A request of size bytes at a multiple of align.
structure Request (size align : Nat) : Prop where
  power : ∃ k < 64, align = 2 ^ k
  fits : size + align < 18446744073709551616
  bound : memasz size align ≤ 9223372036854775808

theorem request_sum (size align : Nat) (request : Request size align) (large : ¬ max align memminalign ≤ 4096) :
    max size memminblk + max align memminalign - 1 < 18446744073709551616 := by
  obtain ⟨⟨k, low, rfl⟩, fits, -⟩ := request
  have most : 2 ^ k ≤ 2 ^ 63 := Nat.pow_le_pow_right (by decide) (by omega)
  unfold memminalign at large ⊢
  unfold memminblk
  omega

theorem align_power (k : Nat) : max (2 ^ k) memminalign = 2 ^ max k 4 := by
  unfold memminalign
  by_cases small : k ≤ 4
  · have low : 2 ^ k ≤ 2 ^ 4 := Nat.pow_le_pow_right (by decide) small
    rw [Nat.max_eq_right small]
    omega
  · have high : 2 ^ 4 ≤ 2 ^ k := Nat.pow_le_pow_right (by decide) (by omega)
    rw [Nat.max_eq_left (by omega : 4 ≤ k)]
    omega

-- From 16 to 2^63 bytes there is a bin with blocks that hold them.
theorem asz_slots (asz : Nat) (least : 16 ≤ asz) (bound : asz ≤ 9223372036854775808) :
    Slots (memtype asz) (memslot asz) ∧ asz ≤ membufblksize (memtype asz) (memslot asz) := by
  obtain ⟨holds, tight⟩ := calcslot_spec asz (by omega) bound
  by_cases small : asz ≤ 2048
  · have type : memtype asz = .small := by rw [memtype, if_pos small]
    have slot : memslot asz = memcalcslot asz := by rw [memslot, type, if_pos (by decide)]
    have upper := tight 11 (by omega)
    have lower : 4 ≤ memcalcslot asz := by
      by_contra low
      have few : 2 ^ memcalcslot asz ≤ 2 ^ 3 := Nat.pow_le_pow_right (by decide) (by omega)
      omega
    have slots : Slots .small (memcalcslot asz) := ⟨lower, upper⟩
    rw [type, slot, (blksize_power .small _ slots (by decide)).1]
    exact ⟨slots, holds⟩
  · by_cases page : asz ≤ 524288
    · have type : memtype asz = .page := by rw [memtype, if_neg small, if_pos page]
      have slot : memslot asz = (asz - 1) / 4096 := by
        rw [memslot, type, if_neg (by decide), memcalcpageslot, Nat.shiftRight_eq_div_pow]
      rw [type, slot]
      refine ⟨?_, ?_⟩
      · change (asz - 1) / 4096 ≤ 127
        omega
      · change asz ≤ 4096 + 4096 * ((asz - 1) / 4096)
        omega
    · have type : memtype asz = .big := by rw [memtype, if_neg small, if_neg page]
      have slot : memslot asz = memcalcslot asz := by rw [memslot, type, if_pos (by decide)]
      have upper := tight 63 (by omega)
      have lower : 20 ≤ memcalcslot asz := by
        by_contra low
        have few : 2 ^ memcalcslot asz ≤ 2 ^ 19 := Nat.pow_le_pow_right (by decide) (by omega)
        omega
      have slots : Slots .big (memcalcslot asz) := ⟨lower, upper⟩
      rw [type, slot, (blksize_power .big _ slots (by decide)).1]
      exact ⟨slots, holds⟩

-- A request for exactly what a block of a bin holds asks for that bin.
theorem slots_class (type : Memtype) (slot : Nat) (slots : Slots type slot) :
    memtype (membufblksize type slot) = type ∧ memslot (membufblksize type slot) = slot ∧ 16 ≤ membufblksize type slot ∧
      membufblksize type slot ≤ 9223372036854775808 := by
  have exact : ∀ slot ≤ 63, memcalcslot (2 ^ slot) = slot := by
    intro slot low
    have most : 2 ^ slot ≤ 2 ^ 63 := Nat.pow_le_pow_right (by decide) low
    obtain ⟨holds, tight⟩ := calcslot_spec (2 ^ slot) (Nat.two_pow_pos slot) most
    exact Nat.le_antisymm (tight slot (Nat.le_refl _)) ((Nat.pow_le_pow_iff_right (by decide)).mp holds)
  cases type with
  | small =>
      rw [(blksize_power .small slot slots (by decide)).1]
      have least : 2 ^ 4 ≤ 2 ^ slot := Nat.pow_le_pow_right (by decide) slots.1
      have most : 2 ^ slot ≤ 2 ^ 11 := Nat.pow_le_pow_right (by decide) slots.2
      have type : memtype (2 ^ slot) = .small := by rw [memtype, if_pos (by omega)]
      rw [memslot, type, if_pos (by decide)]
      exact ⟨rfl, exact slot (Nat.le_trans slots.2 (by decide)), by omega, by omega⟩
  | page =>
      have low : slot ≤ 127 := slots
      change memtype (4096 + 4096 * slot) = .page ∧ memslot (4096 + 4096 * slot) = slot ∧ 16 ≤ 4096 + 4096 * slot ∧
        4096 + 4096 * slot ≤ 9223372036854775808
      have type : memtype (4096 + 4096 * slot) = .page := by rw [memtype, if_neg (by omega), if_pos (by omega)]
      rw [memslot, type, if_neg (by decide), memcalcpageslot, Nat.shiftRight_eq_div_pow]
      exact ⟨rfl, by omega, by omega, by omega⟩
  | big =>
      obtain ⟨power, low⟩ := blksize_power .big slot slots (by decide)
      rw [power]
      have least : 2 ^ 20 ≤ 2 ^ slot := Nat.pow_le_pow_right (by decide) slots.1
      have most : 2 ^ slot ≤ 2 ^ 63 := Nat.pow_le_pow_right (by decide) low
      have type : memtype (2 ^ slot) = .big := by rw [memtype, if_neg (by omega), if_neg (by omega)]
      rw [memslot, type, if_pos (by decide)]
      exact ⟨rfl, exact slot low, by omega, by omega⟩

theorem request_slots (size align : Nat) (request : Request size align) :
    Slots (memtype (memasz size align)) (memslot (memasz size align)) ∧
      memasz size align ≤ membufblksize (memtype (memasz size align)) (memslot (memasz size align)) := by
  have least : 16 ≤ memasz size align := by
    have sum := request_sum size align request
    unfold memminalign memminblk at sum
    unfold memasz memminalign memminblk
    dsimp only
    split
    next page => omega
    next large =>
      have fits := sum large
      omega
  exact asz_slots _ least request.bound

theorem roundup_multiple (a k : Nat) (low : k ≤ 64) (fits : a + (2 ^ k - 1) < 18446744073709551616) (whole : a % 2 ^ k = 0) :
    rounduppow2 a (2 ^ k) = a := by
  obtain ⟨least, most, multiple⟩ := roundup_spec a k low fits
  have positive : 0 < 2 ^ k := Nat.two_pow_pos k
  have apart := Nat.sub_mod_eq_zero_of_mod_eq (multiple.trans whole.symm)
  rw [Nat.mod_eq_of_lt (by omega)] at apart
  omega

-- Blocks as large as an alignment of up to a page start at its multiples.
theorem cell_aligned (adr : Nat) (geo : Memgeo) (made : Made adr geo) (k id : Nat) (low : k ≤ 12) (room : 2 ^ k ≤ blksize geo) :
    (geo.base + id * blksize geo) % 2 ^ k = 0 := by
  have paged : 2 ^ k ∣ 2 ^ 12 := Nat.pow_dvd_pow 2 low
  have base : 2 ^ k ∣ geo.base := by
    have whole : geo.base % 2 ^ 12 = 0 := by
      have adrPage := made.page
      have adrBase := made.base
      omega
    exact Nat.dvd_trans paged (Nat.dvd_of_mod_eq_zero whole)
  have step : 2 ^ k ∣ blksize geo := by
    by_cases kind : geo.type = .page
    · refine Nat.dvd_trans paged ⟨1 + geo.slot, ?_⟩
      rw [blksize_page geo kind]
      omega
    · rw [(blksize_shift adr geo made kind).1] at room ⊢
      exact Nat.pow_dvd_pow 2 ((Nat.pow_le_pow_iff_right (by decide : 1 < 2)).mp room)
  exact Nat.mod_eq_zero_of_dvd (Nat.dvd_add base (Nat.dvd_trans step (Nat.dvd_mul_left _ _)))

-- Where memgetblk puts a request in a block of its type and slot: the block
-- starts at a multiple of an alignment of up to a page, and has room to move
-- up to a larger one.
theorem request_fits (size align : Nat) (request : Request size align) (adr : Nat) (geo : Memgeo) (made : Made adr geo)
    (type : geo.type = memtype (memasz size align)) (slot : geo.slot = memslot (memasz size align)) (id : Nat) (below : id < geo.nblk) :
    Within geo id (memalignptr (geo.base + id * blksize geo) (max align memminalign)) (max size memminblk) ∧
      memalignptr (geo.base + id * blksize geo) (max align memminalign) % align = 0 := by
  obtain ⟨⟨k, kLow, rfl⟩, fits, bound⟩ := request
  have room := (request_slots size (2 ^ k) ⟨⟨k, kLow, rfl⟩, fits, bound⟩).2
  have sum := request_sum size (2 ^ k) ⟨⟨k, kLow, rfl⟩, fits, bound⟩
  rw [← type, ← slot] at room
  change _ ≤ blksize geo at room
  have inside := (cell_inside adr geo made id below).2
  have top := made.top
  have positive : 0 < 2 ^ max k 4 := Nat.two_pow_pos _
  have aligns : ∀ ptr, ptr % 2 ^ max k 4 = 0 → ptr % 2 ^ k = 0 := by
    intro ptr multiple
    have divides : 2 ^ k ∣ 2 ^ max k 4 := Nat.pow_dvd_pow 2 (Nat.le_max_left k 4)
    exact Nat.mod_eq_zero_of_dvd (Nat.dvd_trans divides (Nat.dvd_of_mod_eq_zero multiple))
  rw [Nat.succ_mul] at inside
  unfold Within memalignptr
  rw [Nat.succ_mul, align_power]
  by_cases page : max (2 ^ k) memminalign ≤ 4096
  · have asz : memasz size (2 ^ k) = max (max (2 ^ k) memminalign) (max size memminblk) := by
      unfold memasz
      exact if_pos page
    rw [asz, align_power] at room
    rw [align_power] at page
    have low : max k 4 ≤ 12 := (Nat.pow_le_pow_iff_right (by decide : 1 < 2)).mp page
    have whole := cell_aligned adr geo made (max k 4) id low (by omega)
    rw [roundup_multiple _ _ (by omega) (by omega) whole]
    exact ⟨⟨Nat.le_refl _, by omega⟩, aligns _ whole⟩
  · have asz : memasz size (2 ^ k) = max size memminblk + max (2 ^ k) memminalign - 1 := by
      have value : memasz size (2 ^ k) = (max size memminblk + max (2 ^ k) memminalign - 1) % 18446744073709551616 := by
        unfold memasz
        exact if_neg page
      rw [value, Nat.mod_eq_of_lt (sum page)]
    rw [asz, align_power] at room
    have some : 0 < max size memminblk := by
      unfold memminblk
      omega
    obtain ⟨least, most, multiple⟩ := roundup_spec (geo.base + id * blksize geo) (max k 4) (by omega) (by omega)
    exact ⟨⟨least, by omega⟩, aligns _ multiple⟩

-- The block numbers above the top of the stack are those that are free.
def Idle (buf : Membuf) (id : Nat) : Prop := ∃ cur, buf.stktop ≤ cur ∧ cur < buf.geo.nblk ∧ buf.stk cur = id

structure Stacked (buf : Membuf) : Prop where
  count : buf.stktop + buf.nfree = buf.geo.nblk
  top : buf.stktop ≤ buf.geo.nblk
  small : buf.geo.nblk ≤ membufmaxblks
  below : ∀ cur, buf.stktop ≤ cur → cur < buf.geo.nblk → buf.stk cur < buf.geo.nblk
  distinct : ∀ one two, buf.stktop ≤ one → one < buf.geo.nblk → buf.stktop ≤ two → two < buf.geo.nblk →
    buf.stk one = buf.stk two → one = two

structure Popped (buf after : Membuf) (id : Nat) : Prop where
  stacked : Stacked after
  geo : after.geo = buf.geo
  tls : after.tls = buf.tls
  nfree : after.nfree = buf.nfree - 1
  below : id < buf.geo.nblk
  idle : Idle buf id
  gone : ¬ Idle after id
  others : ∀ j, Idle after j → Idle buf j

theorem stacked_distinct (buf : Membuf) (stacked : Stacked buf) : Distinct buf.stk buf.stktop buf.geo.nblk :=
  ⟨stacked.top, stacked.below, stacked.distinct⟩

theorem distinct_stacked (buf : Membuf) (distinct : Distinct buf.stk buf.stktop buf.geo.nblk) (count : buf.stktop + buf.nfree = buf.geo.nblk)
    (small : buf.geo.nblk ≤ membufmaxblks) : Stacked buf := ⟨count, distinct.low, small, distinct.below, distinct.once⟩

theorem getfree_popped (buf : Membuf) (stacked : Stacked buf) (available : 0 < buf.nfree) :
    ∃ after id, membufgetfree buf = some (after, id) ∧ Popped buf after id := by
  have count := stacked.count
  have small := stacked.small
  have room : buf.stktop < buf.geo.nblk := by omega
  obtain ⟨distinct, gone⟩ := distinct_pop buf.stk buf.stktop buf.geo.nblk (stacked_distinct buf stacked) room
  refine ⟨{ buf with nfree := buf.nfree - 1, stktop := buf.stktop + 1 }, buf.stk buf.stktop, ?_, ?_, rfl, rfl, rfl, ?_, ?_, gone, fun j idle => ?_⟩
  · rw [membufgetfree, if_pos (by omega)]
  · refine distinct_stacked _ distinct ?_ small
    change ((buf.stktop + 1 : Nat) : Int) + (buf.nfree - 1) = buf.geo.nblk
    omega
  · exact stacked.below buf.stktop (Nat.le_refl _) room
  · exact ⟨buf.stktop, Nat.le_refl _, room, rfl⟩
  · exact (on_pop buf.stk buf.stktop buf.geo.nblk j room).mpr (Or.inr idle)

-- A stack that holds as many different numbers as there are blocks holds all
-- of them.
theorem full_idle (buf : Membuf) (stacked : Stacked buf) (full : buf.stktop = 0) (id : Nat) (below : id < buf.geo.nblk) :
    Idle buf id := by
  have low : ∀ cur, buf.stktop ≤ cur := fun cur => by omega
  let number : Fin buf.geo.nblk → Fin buf.geo.nblk := fun cur => ⟨buf.stk cur, stacked.below cur (low cur) cur.isLt⟩
  have injective : Function.Injective number := by
    intro one two same
    exact Fin.ext (stacked.distinct one two (low one) one.isLt (low two) two.isLt (Fin.mk.inj same))
  obtain ⟨cur, equal⟩ := Finite.surjective_of_injective injective ⟨id, below⟩
  exact ⟨cur, low cur, cur.isLt, congrArg Fin.val equal⟩

structure Pushed (buf after : Membuf) (id : Nat) : Prop where
  stacked : Stacked after
  geo : after.geo = buf.geo
  tls : after.tls = buf.tls
  nfree : after.nfree = buf.nfree + 1
  others : ∀ j, Idle after j → Idle buf j ∨ j = id

theorem putfree_pushed (buf : Membuf) (stacked : Stacked buf) (id : Nat) (below : id < buf.geo.nblk) (busy : ¬ Idle buf id) :
    ∃ after, membufputfree buf id = some after ∧ Pushed buf after id := by
  have count := stacked.count
  have small := stacked.small
  have top := stacked.top
  have positive : 0 < buf.stktop := by
    by_contra empty
    exact busy (full_idle buf stacked (by omega) id below)
  have number : id % 65536 = id := by
    unfold membufmaxblks at small
    omega
  have distinct := distinct_push buf.stk buf.stktop buf.geo.nblk id (stacked_distinct buf stacked) below busy
  refine ⟨{ buf with nfree := buf.nfree + 1, stk := Function.update buf.stk (buf.stktop - 1) (id % 65536), stktop := buf.stktop - 1 },
    ?_, ?_, rfl, rfl, rfl, fun j idle => ?_⟩
  · rw [membufputfree, if_pos ⟨positive, by omega⟩]
  · rw [number]
    refine distinct_stacked _ distinct ?_ small
    change ((buf.stktop - 1 : Nat) : Int) + (buf.nfree + 1) = buf.geo.nblk
    omega
  · rw [number] at idle
    exact ((on_push buf.stk buf.stktop buf.geo.nblk id j positive top).mp idle).symm

theorem putfree_idle (buf after : Membuf) (stacked : Stacked buf) (id : Nat) (below : id < buf.geo.nblk) (put : membufputfree buf id = some after) :
    Idle after id := by
  have top := stacked.top
  have small := stacked.small
  have number : id % 65536 = id := by
    unfold membufmaxblks at small
    omega
  rw [membufputfree, number] at put
  split at put
  next room =>
    cases put
    exact (on_push buf.stk buf.stktop buf.geo.nblk id id room.1 top).mpr (Or.inl rfl)
  next => cases put

theorem initfree_stacked (geo : Memgeo) (small : geo.nblk ≤ membufmaxblks) : Stacked (membufinitfree geo geo.nblk) :=
  distinct_stacked _ (distinct_start _ geo.nblk fun _ below => if_pos below) (Int.zero_add _) small

end OsZero.UserMem

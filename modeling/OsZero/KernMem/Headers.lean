import Mathlib.Tactic.IntervalCases
import OsZero.KernMem.Tiling

set_option autoImplicit false

namespace OsZero.KernMem

section Addresses

variable (pool : Mempool) (fits : pool.base + pool.nblk * memminsize ≤ 4294967296) (k : Nat) (inside : k < pool.nblk)

include fits inside

-- The header number counts slabs and the header distance bytes, which agree at the first block and, as the
-- address goes round, at one more.
theorem block_address_iff : memgetadr (memgetmag (pool.base + k * memminsize) pool) pool = pool.base + k * memminsize ↔
    k = 0 ∨ k = 10846184 := by
  unfold memminsize at *
  rw [memgetmag_eq _ pool (Nat.le_add_right _ _) (by omega), Nat.add_sub_cancel_left, memgetadr, memgethdrnum, memmagsize, memminshift,
    Nat.shiftLeft_eq]
  have slab : k * 256 / 65536 = k / 256 := by omega
  rw [slab]
  have rounds : (pool.base + 1048 * (k / 256) * 2 ^ 8) / 4294967296 ≤ 4 := by omega
  generalize turns : (pool.base + 1048 * (k / 256) * 2 ^ 8) / 4294967296 = turn at rounds
  interval_cases turn <;> omega

end Addresses

section Recorded

theorem meminitblks_less (bktid nbyte adr : Nat) (less : nbyte < 1 <<< (bktid + 1)) :
    meminitblks (bktid + 1) nbyte adr = meminitblks bktid nbyte adr := by
  rw [meminitblks, bit_clear _ _ less, if_neg (not_not.mpr rfl)]
  split_ifs with ends
  · cases bktid with
    | zero => rfl
    | succ bktid =>
        rw [meminitblks, if_pos (ends.imp_right fun low => by omega)]
  · rfl

theorem meminitblks_more (bktid rest adr : Nat) (page : pagesizelog2 ≤ bktid + 1) (under : rest < 1 <<< (bktid + 1)) :
    meminitblks (bktid + 1) ((1 <<< (bktid + 1)) + rest) adr =
      (adr, bktid + 1) :: meminitblks bktid rest (adr + (1 <<< (bktid + 1))) := by
  have positive := shift_pos (bktid + 1)
  rw [meminitblks, if_neg (by omega), if_pos (bit_set rest (bktid + 1) under), Nat.add_sub_cancel_left]

theorem meminitblks_below (bktid nbyte adr : Nat) (small : nbyte < 1 <<< (bktid + 1)) :
    ∀ blk ∈ meminitblks bktid nbyte adr, adr ≤ blk.1 ∧ blk.1 < adr + nbyte := by
  intro blk inside
  have region : blkregion blk ∈ (meminitblks bktid nbyte adr).map blkregion := List.mem_map_of_mem inside
  have filled := blkregion_filled _ _ region
  have covers := ((meminitblks_tile bktid nbyte adr small).2 blk.1).mp ⟨_, region, Nat.le_refl _, Nat.lt_add_of_pos_right filled⟩
  omega

-- Only the pages count.
theorem meminitblks_length (bktid nbyte other adr at_adr : Nat) (small : nbyte < 1 <<< (bktid + 1)) (bound : other < 1 <<< (bktid + 1))
    (pages : nbyte / 4096 = other / 4096) : (meminitblks bktid nbyte adr).length = (meminitblks bktid other at_adr).length := by
  induction bktid generalizing nbyte other adr at_adr with
  | zero => rfl
  | succ bktid ih =>
      rcases Nat.lt_or_ge (bktid + 1) pagesizelog2 with low | page
      · rw [meminitblks, meminitblks, if_pos (.inr low), if_pos (.inr low)]
      · have whole := pages_of_block (bktid + 1) 0 page
        rcases remaining_cases bktid nbyte small with ⟨less, -⟩ | ⟨rest, rfl, under, -⟩
        · rcases remaining_cases bktid other bound with ⟨fewer, -⟩ | ⟨left, rfl, -, -⟩
          · rw [meminitblks_less _ _ _ less, meminitblks_less _ _ _ fewer]
            exact ih _ _ _ _ less fewer pages
          · omega
        · rcases remaining_cases bktid other bound with ⟨fewer, -⟩ | ⟨left, rfl, higher, -⟩
          · omega
          · rw [meminitblks_more _ _ _ page under, meminitblks_more _ _ _ page higher, List.length_cons, List.length_cons,
              ih rest left _ _ under higher (by omega)]

theorem one_at_most (header : Nat) (headers : List Nat) (same : ∀ mag ∈ headers, mag = header) : headers.Nodup ↔ headers.length ≤ 1 := by
  rw [List.eq_replicate_of_mem same, List.nodup_replicate, List.length_replicate]

-- The fifteenth bucket and those below lie in one slab.
theorem last_slab (pool : Mempool) (nbyte off : Nat) (small : nbyte < 65536) (fits : pool.base + off + nbyte ≤ 4294967296)
    (slab : off % 65536 = 0) :
    ((meminitblks 15 nbyte (pool.base + off)).map fun blk => memgetmag blk.1 pool).Nodup ↔ nbyte % 65536 / 4096 ∈ [0, 1, 2, 4, 8] := by
  have table : ∀ pages : Fin 16, (meminitblks 15 (pages.val * 4096) 0).length ≤ 1 ↔ pages.val ∈ [0, 1, 2, 4, 8] := by decide
  have inside : ∀ mag ∈ (meminitblks 15 nbyte (pool.base + off)).map fun blk => memgetmag blk.1 pool, mag = off / 65536 := by
    intro mag member
    obtain ⟨blk, recorded, rfl⟩ := List.mem_map.mp member
    have bounds := meminitblks_below 15 nbyte (pool.base + off) small blk recorded
    rw [memgetmag_eq _ pool (by omega) (by omega)]
    omega
  rw [one_at_most _ _ inside, List.length_map, Nat.mod_eq_of_lt small,
    meminitblks_length 15 nbyte (nbyte / 4096 * 4096) _ 0 small (by omega) (by omega)]
  exact table ⟨nbyte / 4096, by omega⟩

-- A block of a slab or more ends its slabs, and those recorded after it are in later ones.
theorem recorded_distinct (pool : Mempool) (rounds nbyte off : Nat) (small : nbyte < 1 <<< (15 + rounds + 1))
    (fits : pool.base + off + nbyte ≤ 4294967296) (slab : off % 65536 = 0) :
    ((meminitblks (15 + rounds) nbyte (pool.base + off)).map fun blk => memgetmag blk.1 pool).Nodup ↔
      nbyte % 65536 / 4096 ∈ [0, 1, 2, 4, 8] := by
  induction rounds generalizing nbyte off with
  | zero => exact last_slab pool nbyte off small fits slab
  | succ rounds ih =>
      rcases remaining_cases (15 + rounds) nbyte small with ⟨less, -⟩ | ⟨rest, rfl, under, -⟩
      · rw [← Nat.add_assoc, meminitblks_less _ _ _ less]
        exact ih nbyte off less fits slab
      · have whole : 1 <<< (15 + rounds + 1) = 2 ^ rounds * 65536 := by
          rw [Nat.one_shiftLeft, Nat.add_right_comm, Nat.pow_add, Nat.mul_comm]
        have later : memgetmag (pool.base + off) pool ∉
            (meminitblks (15 + rounds) rest (pool.base + off + (1 <<< (15 + rounds + 1)))).map fun blk => memgetmag blk.1 pool := by
          intro again
          obtain ⟨blk, recorded, same⟩ := List.mem_map.mp again
          have bounds := meminitblks_below _ rest _ under blk recorded
          rw [memgetmag_eq _ pool (by omega) (by omega), memgetmag_eq _ pool (by omega) (by omega)] at same
          have slabs : 0 < 2 ^ rounds := Nat.two_pow_pos rounds
          omega
        rw [← Nat.add_assoc, meminitblks_more _ _ _ (by unfold pagesizelog2; omega) under, List.map_cons, List.nodup_cons,
          and_iff_right later, Nat.add_assoc pool.base, ih rest _ under (by omega) (by omega)]
        rw [show ((1 <<< (15 + rounds + 1)) + rest) % 65536 = rest % 65536 by omega]

end Recorded

-- What slabsplit leaves of the block that ends at ptr, down to bucket dest.
def slabsplitblks (dest : Nat) : Nat → Nat → List (Nat × Nat)
  | 0, _ => []
  | bktid + 1, ptr =>
      if dest ≤ bktid then
        let ptr := (ptr + (4294967296 - (1 <<< bktid))) % 4294967296
        (ptr, bktid) :: slabsplitblks dest bktid ptr
      else []

def splitrecord (pool : Mempool) (blk : Nat × Nat) : Mempool :=
  slabpush (pool.onMag (memgetmag blk.1 pool) (memmagmkfree blk.2)) blk.2 (memgetmag blk.1 pool) (pool.tab blk.2).list

theorem slabsplitloop_records (dest bktid ptr : Nat) (pool : Mempool) (positive : 0 < dest) (some_left : 0 < bktid) :
    slabsplitloop dest bktid ptr pool = some ((slabsplitblks dest bktid ptr).foldl splitrecord pool) := by
  induction bktid generalizing ptr pool with
  | zero => cases some_left
  | succ bktid ih =>
      rw [slabsplitloop, slabsplitblks]
      by_cases larger : dest ≤ bktid
      · rw [if_pos larger, if_pos larger, List.foldl_cons]
        exact ih _ _ (by omega)
      · rw [if_neg larger, if_neg larger]
        rfl

theorem slabsplit_records (pool : Mempool) (mag dest : Nat) (positive : 0 < dest) (inside : dest ≤ memmaggetbkt (pool.hdrtab mag))
    (large : memmaggetbkt (pool.hdrtab mag) < ptrbits) :
    slabsplit pool mag dest =
      (let bktid := memmaggetbkt (pool.hdrtab mag)
       let split := (slabsplitblks dest bktid ((memgetadr mag pool + (1 <<< bktid)) % 4294967296)).foldl splitrecord pool
       some (slabpush (split.onMag mag (memmagmkfree dest)) dest mag (split.tab dest).list)) := by
  rw [slabsplit, if_neg (Nat.not_lt.mpr (Nat.le_of_lt large)),
    slabsplitloop_records dest _ _ pool positive (Nat.lt_of_lt_of_le positive inside)]
  rfl

-- The headers of the blocks that a call of slabsplit leaves: that of the first, which
-- it is given, and those of the others.
def splitheaders (pool : Mempool) (mag dest : Nat) : List Nat :=
  let bktid := memmaggetbkt (pool.hdrtab mag)
  mag :: (slabsplitblks dest bktid ((memgetadr mag pool + (1 <<< bktid)) % 4294967296)).map fun blk => memgetmag blk.1 pool

section Split

-- The header that the block of a bucket gets when the block of header mag is split.
def splitmag (mag bktid : Nat) : Nat := (268288 * mag + (1 <<< bktid)) % 4294967296 / 65536

theorem slabsplitblks_starts (dest bktid adr ptr : Nat) (large : bktid ≤ ptrbits) (ends : ptr = (adr + (1 <<< bktid)) % 4294967296) :
    slabsplitblks dest bktid ptr =
      (List.range' dest (bktid - dest)).reverse.map fun bkt => ((adr + (1 <<< bkt)) % 4294967296, bkt) := by
  induction bktid generalizing ptr with
  | zero =>
      rw [Nat.zero_sub]
      rfl
  | succ bktid ih =>
      rw [slabsplitblks]
      by_cases larger : dest ≤ bktid
      · have word : 1 <<< bktid ≤ 4294967296 := shift_mono bktid 32 (by unfold ptrbits at large; omega)
        have start : (ptr + (4294967296 - (1 <<< bktid))) % 4294967296 = (adr + (1 <<< bktid)) % 4294967296 := by
          rw [ends, shift_double]
          omega
        rw [if_pos larger, start, Nat.succ_sub larger, List.range'_1_concat, List.reverse_append, Nat.add_sub_cancel' larger]
        dsimp only
        rw [ih _ (by omega) rfl]
        rfl
      · rw [if_neg larger, Nat.sub_eq_zero_of_le (by omega)]
        rfl

theorem splitheaders_eq (pool : Mempool) (mag dest : Nat) (word : pool.base < 4294967296) (bkt : memmaggetbkt (pool.hdrtab mag) < ptrbits) :
    splitheaders pool mag dest =
      mag :: (List.range' dest (memmaggetbkt (pool.hdrtab mag) - dest)).reverse.map (splitmag mag) := by
  rw [splitheaders, slabsplitblks_starts dest _ (memgetadr mag pool) _ (Nat.le_of_lt bkt) rfl, List.map_map]
  congr 1
  apply List.map_congr_left
  intro bktid _
  rw [Function.comp_apply, memgetmag, memgetblknum, memgetadr, memgethdrnum, memmagsize, memminshift, memslabshift, splitmag,
    Nat.shiftRight_eq_div_pow, Nat.shiftLeft_eq]
  omega

theorem splitmag_first (mag bktid : Nat) (table : mag < 65536) :
    splitmag mag bktid ≠ mag ↔ 65536 ≤ (202752 * mag + (1 <<< bktid)) % 4294967296 := by
  unfold splitmag
  omega

-- How many slabs the end of the block of a bucket is past that of its start.
def carry (mag bktid : Nat) : Nat := (268288 * mag % 65536 + (1 <<< bktid)) / 65536

theorem splitmag_carry (mag bktid : Nat) : splitmag mag bktid = (268288 * mag / 65536 + carry mag bktid) % 65536 := by
  unfold splitmag carry
  generalize 1 <<< bktid = bytes
  omega

theorem splitmag_same (mag low high : Nat) (below : low < ptrbits) (large : high < ptrbits) :
    splitmag mag low = splitmag mag high ↔ carry mag low = carry mag high := by
  have lowWord : 1 <<< low ≤ 1 <<< 31 := shift_mono low 31 (Nat.le_of_lt_succ below)
  have highWord : 1 <<< high ≤ 1 <<< 31 := shift_mono high 31 (Nat.le_of_lt_succ large)
  have lowCarry : carry mag low < 65536 := by
    unfold carry
    omega
  have highCarry : carry mag high < 65536 := by
    unfold carry
    omega
  rw [splitmag_carry, splitmag_carry]
  omega

def StepsSlab (mag bktid : Nat) : Prop :=
  memslabshift ≤ bktid ∨ (268288 * mag % 65536 + (1 <<< bktid) < 65536 ∧ 65536 ≤ 268288 * mag % 65536 + (1 <<< (bktid + 1)))

theorem carry_step (mag bktid : Nat) : carry mag bktid ≤ carry mag (bktid + 1) ∧ (carry mag bktid < carry mag (bktid + 1) ↔ StepsSlab mag bktid) := by
  have bounds : (bktid < 16 → 1 <<< bktid ≤ 1 <<< 15) ∧ (16 ≤ bktid → 1 <<< 16 ≤ 1 <<< bktid) :=
    ⟨fun low => shift_mono bktid 15 (by omega), fun high => shift_mono 16 bktid high⟩
  unfold carry StepsSlab memslabshift
  rw [shift_double]
  generalize 1 <<< bktid = bytes at bounds
  omega

theorem carry_mono (mag low more : Nat) : carry mag low ≤ carry mag (low + more) := by
  induction more with
  | zero => exact Nat.le_refl _
  | succ more ih => exact Nat.le_trans ih (carry_step mag (low + more)).1

theorem split_distinct (mag dest bktid : Nat) (large : bktid < ptrbits) :
    ((List.range' dest (bktid - dest)).reverse.map (splitmag mag)).Nodup ↔ ∀ bkt, dest ≤ bkt → bkt + 1 < bktid → StepsSlab mag bkt := by
  rw [List.map_reverse, List.nodup_reverse, List.nodup_map_iff_inj_on List.nodup_range']
  constructor
  · intro distinct bkt low high
    apply (carry_step mag bkt).2.mp
    apply Nat.lt_of_le_of_ne (carry_step mag bkt).1
    intro same
    have equal := distinct bkt (List.mem_range'_1.mpr (by omega)) (bkt + 1) (List.mem_range'_1.mpr (by omega))
      ((splitmag_same mag bkt (bkt + 1) (by omega) (by omega)).mpr same)
    omega
  · intro steps
    have rises : ∀ low high, dest ≤ low → low < high → high < bktid → splitmag mag low ≠ splitmag mag high := by
      intro low high first order last same
      obtain ⟨more, rfl⟩ := Nat.exists_eq_add_of_lt order
      have step := (carry_step mag low).2.mpr (steps low first (by omega))
      have rest := carry_mono mag (low + 1) more
      have equal := (splitmag_same mag low (low + more + 1) (by omega) (by omega)).mp same
      rw [Nat.add_right_comm] at equal
      omega
    intro one left two right same
    have leftBounds := List.mem_range'_1.mp left
    have rightBounds := List.mem_range'_1.mp right
    rcases Nat.lt_trichotomy one two with less | equal | more
    · exact absurd same (rises one two leftBounds.1 less (by omega))
    · exact equal
    · exact absurd same.symm (rises two one rightBounds.1 more (by omega))

end Split

-- The operations on the information word of one header.
inductive HdrOp where
  | setbkt (bktid : Nat)
  | setfree
  | clrfree
  | setflg (flg : BitVec 32)

def hdrstep : Memmag → HdrOp → Memmag
  | hdr, .setbkt bktid => memmagsetbkt hdr bktid
  | hdr, .setfree => memmagsetfree hdr
  | hdr, .clrfree => memmagclrfree hdr
  | hdr, .setflg flg => memmagsetflg hdr flg

-- A history holds the last operation first.
def hdrrun (hdr : Memmag) : List HdrOp → Memmag
  | [] => hdr
  | op :: before => hdrstep (hdrrun hdr before) op

def HdrOp.bkt : HdrOp → Option Nat
  | .setbkt bktid => some bktid
  | _ => none

def HdrOp.mark : HdrOp → Option Bool
  | .setfree => some true
  | .clrfree => some false
  | _ => none

-- What the operation makes of the lowest bit of the word.
def HdrOp.low : HdrOp → Option Bool
  | .setbkt bktid => some (bktid.testBit 0)
  | .setfree => some true
  | .clrfree => some false
  | .setflg flg => if flg.getLsbD 0 then some true else none

def marked (ops : List HdrOp) : Bool := (ops.findSome? HdrOp.mark).getD false

def lowest (hdr : Memmag) (ops : List HdrOp) : Bool := (ops.findSome? HdrOp.low).getD (hdr.info.getLsbD 0)

-- The flags set after the last bucket.
def flagsSince : List HdrOp → List (BitVec 32)
  | [] => []
  | .setbkt _ :: _ => []
  | .setflg flg :: before => flg :: flagsSince before
  | .setfree :: before => flagsSince before
  | .clrfree :: before => flagsSince before

def HdrLegal : HdrOp → Prop
  | .setbkt bktid => bktid < ptrbits
  | _ => True

section Word

theorem mask_bits (k : Nat) : membktmask.getLsbD k = decide (k < 7) := by
  rw [show membktmask = BitVec.ofNat 32 (2 ^ 7 - 1) from rfl, BitVec.getLsbD_ofNat, Nat.testBit_two_pow_sub_one]
  by_cases low : k < 7
  · rw [decide_eq_true (show k < 32 by omega), Bool.true_and]
  · rw [decide_eq_false low, Bool.and_false]

theorem mask_bit (k : Nat) (low : k < 7) : membktmask.getLsbD k = true := by rw [mask_bits, decide_eq_true low]

theorem free_bit (k : Nat) : memfree.getLsbD k = decide (k = 0) := by
  rw [memfree, show (1 : BitVec 32) = 1#32 from rfl, BitVec.getLsbD_one, decide_eq_true (by decide : 0 < 32), Bool.true_and]

theorem setbkt_bit (hdr : Memmag) (bktid k : Nat) (low : k < 7) : (memmagsetbkt hdr bktid).info.getLsbD k = bktid.testBit k := by
  have word : decide (k < 32) = true := decide_eq_true (by omega)
  simp only [memmagsetbkt, BitVec.getLsbD_or, BitVec.getLsbD_and, BitVec.getLsbD_not, BitVec.getLsbD_ofNat, mask_bit k low, word,
    Bool.not_true, Bool.and_false, Bool.false_or, Bool.true_and]

theorem setfree_bit (hdr : Memmag) (k : Nat) : (memmagsetfree hdr).info.getLsbD k = (hdr.info.getLsbD k || decide (k = 0)) := by
  rw [memmagsetfree, BitVec.getLsbD_or, free_bit]

theorem clrfree_bit (hdr : Memmag) (k : Nat) (low : k < 7) :
    (memmagclrfree hdr).info.getLsbD k = (hdr.info.getLsbD k && !decide (k = 0)) := by
  rw [memmagclrfree, BitVec.getLsbD_and, BitVec.getLsbD_not, free_bit, decide_eq_true (show k < 32 by omega), Bool.true_and]

theorem setflg_bit (hdr : Memmag) (flg : BitVec 32) (k : Nat) :
    (memmagsetflg hdr flg).info.getLsbD k = (hdr.info.getLsbD k || flg.getLsbD k) := by
  rw [memmagsetflg, BitVec.getLsbD_or]

theorem lowest_bit (hdr : Memmag) (ops : List HdrOp) : (hdrrun hdr ops).info.getLsbD 0 = lowest hdr ops := by
  induction ops with
  | nil => rfl
  | cons op before ih =>
      rw [lowest, List.findSome?_cons, hdrrun]
      cases op with
      | setbkt bktid => exact setbkt_bit _ bktid 0 (by decide)
      | setfree => rw [hdrstep, setfree_bit, decide_eq_true rfl, Bool.or_true, HdrOp.low, Option.getD_some]
      | clrfree => rw [hdrstep, clrfree_bit _ 0 (by decide), decide_eq_true rfl, Bool.not_true, Bool.and_false, HdrOp.low, Option.getD_some]
      | setflg flg =>
          rw [hdrstep, setflg_bit, HdrOp.low]
          cases bit : flg.getLsbD 0 with
          | true => rw [Bool.or_true, if_pos rfl, Option.getD_some]
          | false =>
              rw [Bool.or_false, if_neg Bool.false_ne_true]
              exact ih

theorem bucket_bit (hdr : Memmag) (ops : List HdrOp) (bktid k : Nat) (positive : 0 < k) (low : k < 7)
    (last : ops.findSome? HdrOp.bkt = some bktid) :
    (hdrrun hdr ops).info.getLsbD k = (bktid.testBit k || (flagsSince ops).any fun flg => flg.getLsbD k) := by
  have above : decide (k = 0) = false := decide_eq_false (by omega)
  induction ops with
  | nil => cases last
  | cons op before ih =>
      rw [List.findSome?_cons] at last
      cases op with
      | setbkt newest =>
          cases last
          rw [hdrrun, hdrstep, setbkt_bit _ _ _ low, flagsSince, List.any_nil, Bool.or_false]
      | setfree =>
          rw [hdrrun, hdrstep, setfree_bit, above, Bool.or_false, flagsSince]
          exact ih last
      | clrfree =>
          rw [hdrrun, hdrstep, clrfree_bit _ _ low, above, Bool.not_false, Bool.and_true, flagsSince]
          exact ih last
      | setflg flg =>
          rw [hdrrun, hdrstep, setflg_bit, ih last, flagsSince, List.any_cons, Bool.or_assoc, Bool.or_comm (List.any _ _)]

theorem getbkt_bits (hdr : Memmag) (bktid : Nat) (large : bktid < ptrbits) :
    memmaggetbkt hdr = bktid ↔ ∀ k < 7, hdr.info.getLsbD k = bktid.testBit k := by
  have higher : ∀ k, 7 ≤ k → bktid.testBit k = false := by
    intro k high
    have word : 2 ^ 5 ≤ 2 ^ k := Nat.pow_le_pow_right (by decide : 0 < 2) (show 5 ≤ k by omega)
    exact Nat.testBit_lt_two_pow (Nat.lt_of_lt_of_le large word)
  rw [memmaggetbkt, Nat.eq_iff_testBit_eq]
  constructor
  · intro same k low
    rw [← same k, BitVec.testBit_toNat, BitVec.getLsbD_and, mask_bit k low, Bool.and_true]
  · intro bits k
    rw [BitVec.testBit_toNat, BitVec.getLsbD_and]
    rcases Nat.lt_or_ge k 7 with low | high
    · rw [mask_bit k low, Bool.and_true, bits k low]
    · rw [mask_bits, decide_eq_false (Nat.not_lt.mpr high), higher k high, Bool.and_false]

theorem isfree_lowest (hdr : Memmag) : memmagisfree hdr = !hdr.info.getLsbD 0 := by
  have bits : ∀ k, (hdr.info &&& memfree).getLsbD k = (hdr.info.getLsbD k && decide (k = 0)) := by
    intro k
    rw [BitVec.getLsbD_and, free_bit]
  rw [memmagisfree]
  cases bit : hdr.info.getLsbD 0 with
  | false =>
      have clear : hdr.info &&& memfree = 0 := by
        apply BitVec.eq_of_getLsbD_eq
        intro k _
        rw [bits, show (0 : BitVec 32) = 0#32 from rfl, BitVec.getLsbD_zero]
        by_cases first : k = 0
        · rw [first, bit, Bool.false_and]
        · rw [decide_eq_false first, Bool.and_false]
      rw [clear]
      rfl
  | true =>
      apply beq_eq_false_iff_ne.mpr
      intro clear
      have first := bits 0
      rw [clear, bit, decide_eq_true rfl] at first
      cases first

theorem getbkt_exact (hdr : Memmag) (ops : List HdrOp) (bktid : Nat) (large : bktid < ptrbits)
    (last : ops.findSome? HdrOp.bkt = some bktid) :
    memmaggetbkt (hdrrun hdr ops) = bktid ↔
      bktid.testBit 0 = lowest hdr ops ∧ ∀ flg ∈ flagsSince ops, ∀ k, 0 < k → k < 7 → flg.getLsbD k = true → bktid.testBit k = true := by
  rw [getbkt_bits _ _ large]
  constructor
  · intro bits
    refine ⟨by rw [← bits 0 (by decide), lowest_bit], fun flg member k positive low bit => ?_⟩
    rw [← bits k low, bucket_bit hdr ops bktid k positive low last, List.any_eq_true.mpr ⟨flg, member, bit⟩, Bool.or_true]
  · rintro ⟨first, within⟩ k low
    rcases Nat.eq_zero_or_pos k with rfl | positive
    · rw [lowest_bit, first]
    · rw [bucket_bit hdr ops bktid k positive low last]
      cases bit : bktid.testBit k with
      | true => rfl
      | false =>
          rw [Bool.false_or, List.any_eq_false]
          intro flg member set
          exact Bool.false_ne_true (bit.symm.trans (within flg member k positive low set))

theorem last_bucket (ops : List HdrOp) (legal : ∀ op ∈ ops, HdrLegal op) (bktid : Nat) (last : ops.findSome? HdrOp.bkt = some bktid) :
    bktid < ptrbits := by
  obtain ⟨op, member, same⟩ := List.exists_of_findSome?_eq_some last
  cases op with
  | setbkt newest =>
      cases same
      exact legal _ member
  | _ => cases same

-- What one header answers after a history.
def HdrKeeps (hdr : Memmag) (ops : List HdrOp) : Prop :=
  (∀ bktid, ops.findSome? HdrOp.bkt = some bktid → memmaggetbkt (hdrrun hdr ops) = bktid) ∧
    memmagisfree (hdrrun hdr ops) = marked ops

theorem hdr_keeps_iff (hdr : Memmag) (ops : List HdrOp) (legal : ∀ op ∈ ops, HdrLegal op) :
    HdrKeeps hdr ops ↔ lowest hdr ops = !marked ops ∧ ∀ bktid, ops.findSome? HdrOp.bkt = some bktid →
      bktid.testBit 0 = lowest hdr ops ∧ ∀ flg ∈ flagsSince ops, ∀ k, 0 < k → k < 7 → flg.getLsbD k = true → bktid.testBit k = true := by
  have mark : memmagisfree (hdrrun hdr ops) = marked ops ↔ lowest hdr ops = !marked ops := by
    rw [isfree_lowest, lowest_bit, Bool.not_eq_eq_eq_not]
  rw [HdrKeeps, mark, and_comm]
  apply and_congr_right
  intro _
  apply forall_congr'
  intro bktid
  apply forall_congr'
  intro last
  exact getbkt_exact hdr ops bktid (last_bucket ops legal bktid last) last

end Word

-- A slab and the next, and a pool of sixty-four slabs.
def fewSlabs : Mempool := bootPool 1048576 16384 fun _ => ⟨0, 17, none, none, 0, 0, fun _ => 0⟩

theorem headers_disagree :
    memgetadr (memgetmag (1048576 + 256 * memminsize) fewSlabs) fewSlabs ≠ 1048576 + 256 * memminsize ∧
      ¬ ((recorded fewSlabs (1048576 + 12288)).map fun blk => memgetmag blk.1 fewSlabs).Nodup ∧
      ¬ (splitheaders fewSlabs 0 12).Nodup ∧
      ¬ HdrKeeps (fewSlabs.hdrtab 0) [.setfree, .setbkt 12] := by
  refine ⟨by decide, by decide, by decide, fun keeps => ?_⟩
  have wrong : memmaggetbkt (hdrrun (fewSlabs.hdrtab 0) [.setfree, .setbkt 12]) ≠ 12 := by decide
  exact wrong (keeps.1 12 rfl)

theorem headers_exact (pool : Mempool) (word : pool.base < 4294967296) (fits : pool.base + pool.nblk * memminsize ≤ 4294967296) :
    (∀ k < pool.nblk, memgetadr (memgetmag (pool.base + k * memminsize) pool) pool = pool.base + k * memminsize ↔ k = 0 ∨ k = 10846184) ∧
      (∀ lim, pool.base ≤ lim → lim < 4294967296 →
        (((recorded pool lim).map fun blk => memgetmag blk.1 pool).Nodup ↔ (lim - pool.base) % 65536 / 4096 ∈ [0, 1, 2, 4, 8])) ∧
      (∀ mag dest, mag < 65536 → memmaggetbkt (pool.hdrtab mag) < ptrbits → 0 < dest → dest ≤ memmaggetbkt (pool.hdrtab mag) →
        ((splitheaders pool mag dest).Nodup ↔
          (∀ bkt, dest ≤ bkt → bkt < memmaggetbkt (pool.hdrtab mag) → 65536 ≤ (202752 * mag + (1 <<< bkt)) % 4294967296) ∧
            ∀ bkt, dest ≤ bkt → bkt + 1 < memmaggetbkt (pool.hdrtab mag) → StepsSlab mag bkt)) ∧
      (∀ (hdr : Memmag) (ops : List HdrOp), (∀ op ∈ ops, HdrLegal op) →
        (HdrKeeps hdr ops ↔ lowest hdr ops = !marked ops ∧ ∀ bktid, ops.findSome? HdrOp.bkt = some bktid →
          bktid.testBit 0 = lowest hdr ops ∧
            ∀ flg ∈ flagsSince ops, ∀ k, 0 < k → k < 7 → flg.getLsbD k = true → bktid.testBit k = true)) := by
  refine ⟨block_address_iff pool fits, fun lim above small => ?_, fun mag dest table bkt _ _ => ?_, hdr_keeps_iff⟩
  · obtain ⟨nbyte, rfl⟩ := Nat.exists_eq_add_of_le above
    rw [recorded, Nat.add_sub_cancel_left]
    exact recorded_distinct pool 16 nbyte 0 (Nat.lt_of_le_of_lt (Nat.le_add_left _ _) small) (Nat.le_of_lt small) rfl
  · rw [splitheaders_eq pool mag dest word bkt, List.nodup_cons, split_distinct mag dest _ bkt]
    apply and_congr_left'
    simp only [List.mem_map, List.mem_reverse, List.mem_range'_1, not_exists, not_and]
    apply forall_congr'
    intro bktid
    rw [← splitmag_first mag bktid table]
    constructor
    · intro apart low high
      exact apart ⟨low, by omega⟩
    · intro apart bounds
      exact apart bounds.1 (by omega)

theorem headers_exact_slabs : ((splitheaders fewSlabs 1 16).Nodup ↔
    (∀ bkt, 16 ≤ bkt → bkt < 17 → 65536 ≤ (202752 * 1 + (1 <<< bkt)) % 4294967296) ∧ ∀ bkt, 16 ≤ bkt → bkt + 1 < 17 → StepsSlab 1 bkt) := by
  exact (headers_exact fewSlabs (by decide) (by decide)).2.2.1 1 16 (by decide) (by decide) (by decide) (by decide)

end OsZero.KernMem

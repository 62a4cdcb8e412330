import Mathlib.Data.Nat.Bitwise
import OsZero.KernMem.Slab

set_option autoImplicit false

namespace OsZero.KernMem

open Links Runs

-- Requests are at least MEMMINSIZE bytes, and only live blocks are freed.
def SlabLegal (slabs : Slabs) : SlabOp → Prop
  | .slaballoc nb _ => memminsize ≤ nb ∧ nb < 4294967296
  | .slabfree ptr => ptr ∈ slabs.out

-- No free block is larger than what is asked for, so that none is split, and
-- the flags put back the bit of the bucket number that taking a block clears.
def SlabSound (slabs : Slabs) : SlabOp → Prop
  | .slaballoc nb flg => nb ≤ 2147483648 ∧ ∀ bktid < ptrbits, (slabs.pool.tab bktid).list ≠ none →
      bktid < memcalcbkt nb ∨
        bktid = memcalcbkt nb ∧ (BitVec.ofNat 32 (bktid - 1) ||| flg) &&& membktmask = BitVec.ofNat 32 bktid
  | .slabfree _ => True

theorem getbkt_word (hdr : Memmag) (bktid : Nat) (bkt : memmaggetbkt hdr = bktid) :
    hdr.info &&& membktmask = BitVec.ofNat 32 bktid := by
  rw [← bkt, memmaggetbkt, BitVec.ofNat_toNat, BitVec.setWidth_eq]

theorem word_getbkt (hdr : Memmag) (bktid : Nat) (large : bktid < ptrbits)
    (word : hdr.info &&& membktmask = BitVec.ofNat 32 bktid) : memmaggetbkt hdr = bktid := by
  unfold ptrbits at large
  rw [memmaggetbkt, word, BitVec.toNat_ofNat]
  omega

-- The free mark is the lowest bit of the bucket number.
theorem odd_marked (hdr : Memmag) (bktid : Nat) (large : bktid < ptrbits) (odd : bktid % 2 = 1) (bkt : memmaggetbkt hdr = bktid) :
    hdr.info &&& memfree = memfree := by
  have table : ∀ small : Fin 32, small.val % 2 = 1 → BitVec.ofNat 32 small.val &&& memfree = memfree := by decide
  have masked : hdr.info &&& memfree = hdr.info &&& membktmask &&& memfree := by
    rw [BitVec.and_assoc]
    rfl
  rw [masked, getbkt_word hdr bktid bkt]
  exact table ⟨bktid, large⟩ odd

theorem odd_not_free (hdr : Memmag) (bktid : Nat) (large : bktid < ptrbits) (odd : bktid % 2 = 1) (bkt : memmaggetbkt hdr = bktid) :
    memmagisfree hdr = false := by
  rw [memmagisfree, odd_marked hdr bktid large odd bkt]
  rfl

theorem setfree_getbkt (hdr : Memmag) (bktid : Nat) (large : bktid < ptrbits) (odd : bktid % 2 = 1) (bkt : memmaggetbkt hdr = bktid) :
    memmaggetbkt (memmagsetfree hdr) = bktid := by
  have table : ∀ small : Fin 32, small.val % 2 = 1 → BitVec.ofNat 32 small.val ||| memfree = BitVec.ofNat 32 small.val := by decide
  apply word_getbkt _ bktid large
  have masked : (hdr.info ||| memfree) &&& membktmask = hdr.info &&& membktmask ||| memfree := by
    rw [BitVec.and_or_distrib_right]
    rfl
  rw [memmagsetfree, masked, getbkt_word hdr bktid bkt]
  exact table ⟨bktid, large⟩ odd

theorem take_getbkt (hdr : Memmag) (bktid : Nat) (flg : BitVec 32) (large : bktid < ptrbits) (odd : bktid % 2 = 1)
    (bkt : memmaggetbkt hdr = bktid) (flags : (BitVec.ofNat 32 (bktid - 1) ||| flg) &&& membktmask = BitVec.ofNat 32 bktid) :
    memmaggetbkt (memmagsetflg (memmagclrlink (memmagclrfree hdr)) flg) = bktid := by
  have table : ∀ small : Fin 32, small.val % 2 = 1 →
      BitVec.ofNat 32 small.val &&& ~~~memfree = BitVec.ofNat 32 (small.val - 1) &&& membktmask := by decide
  apply word_getbkt _ bktid large
  have cleared : hdr.info &&& ~~~memfree &&& membktmask = BitVec.ofNat 32 (bktid - 1) &&& membktmask := by
    rw [BitVec.and_assoc, BitVec.and_comm (~~~memfree), ← BitVec.and_assoc, getbkt_word hdr bktid bkt]
    exact table ⟨bktid, large⟩ odd
  simp only [memmagsetflg, memmagclrlink, memmagclrfree]
  rw [BitVec.and_or_distrib_right, cleared, ← BitVec.and_or_distrib_right, flags]

-- The pool of one block: its header is the first of the table, and it is on
-- the list of its bucket or out.
structure One (base bktid : Nat) (slabs : Slabs) : Prop where
  start : slabs.pool.base = base
  lk : slabs.pool.lk = false
  bkt : memmaggetbkt (slabs.pool.hdrtab 0) = bktid
  rest : ∀ other, other ≠ bktid → (slabs.pool.tab other).list = none
  place : ((slabs.pool.tab bktid).list = some 0 ∧ (slabs.pool.hdrtab 0).prev = none ∧ (slabs.pool.hdrtab 0).next = none ∧
      slabs.out = []) ∨
    ((slabs.pool.tab bktid).list = none ∧ slabs.out = [base])

structure Nothing (slabs : Slabs) : Prop where
  lk : slabs.pool.lk = false
  rest : ∀ other, (slabs.pool.tab other).list = none
  out : slabs.out = []

theorem getmag_base (base : Nat) (pool : Mempool) (start : pool.base = base) (word : base < 4294967296) : memgetmag base pool = 0 := by
  have distance : (base + (4294967296 - pool.base)) % 4294967296 = 0 := by omega
  unfold memgetmag memgetblknum
  rw [distance, Nat.zero_shiftRight]

theorem getadr_base (base : Nat) (pool : Mempool) (start : pool.base = base) (word : base < 4294967296) : memgetadr 0 pool = base := by
  unfold memgetadr memgethdrnum
  rw [Nat.mul_zero, Nat.zero_shiftLeft, Nat.add_zero, start, Nat.mod_eq_of_lt word]

theorem flatMap_single (count bktid : Nat) (item : Nat × Nat) :
    (List.range count).flatMap (fun other => if other = bktid then [item] else []) = if bktid < count then [item] else [] := by
  induction count with
  | zero => rfl
  | succ count ih =>
      rw [List.range_succ, List.flatMap_append, ih]
      by_cases here : count = bktid
      · subst here
        simp
      · by_cases before : bktid < count
        · rw [if_pos before, if_pos (by omega)]
          simp [here]
        · rw [if_neg before, if_neg (by omega)]
          simp [here]

theorem tiles_single (base size : Nat) : Tiles [(base, size)] base size := by
  refine ⟨List.pairwise_singleton _ _, fun adr => ?_⟩
  simp

theorem one_formed (base bktid : Nat) (slabs : Slabs) (word : base < 4294967296) (large : bktid < ptrbits) (odd : bktid % 2 = 1)
    (one : One base bktid slabs) : WellFormed base (1 <<< bktid) slabs := by
  rcases one.place with ⟨list, prev, next, none⟩ | ⟨list, out⟩
  · refine ⟨fun other => if other = bktid then [0] else [], ?_⟩
    have tile : regions slabs (fun other => if other = bktid then [0] else []) = [(base, 1 <<< bktid)] := by
      have single := flatMap_single ptrbits bktid (memgetadr 0 slabs.pool, 1 <<< bktid)
      rw [if_pos large, getadr_base base slabs.pool one.start word] at single
      rw [regions, none, List.map_nil, List.append_nil, ← single]
      congr 1
      funext other
      split
      · rename_i here
        rw [here, List.map_singleton, getadr_base base slabs.pool one.start word]
      · rfl
    constructor
    · intro other _
      by_cases here : other = bktid
      · subst here
        simp [list]
      · simp [here, one.rest other here]
    · intro other _
      by_cases here : other = bktid
      · simp only [here, if_true]
        exact ended_single _ 0 prev next
      · simp only [here, if_false]
        exact ended_nil _
    · intro other _ mag member
      by_cases here : other = bktid
      · simp only [here, if_true, List.mem_singleton] at member
        subst member here
        exact ⟨one.bkt, odd_marked _ other large odd one.bkt⟩
      · simp only [here, if_false, List.not_mem_nil] at member
    · intro ptr member
      rw [none] at member
      exact absurd member List.not_mem_nil
    · rw [tile]
      exact tiles_single base _
  · refine ⟨fun _ => [], ?_⟩
    have tile : regions slabs (fun _ => []) = [(base, 1 <<< bktid)] := by
      simp only [regions, out, List.map_nil, List.map_singleton, getmag_base base slabs.pool one.start word, one.bkt]
      simp
    constructor
    · intro other _
      by_cases here : other = bktid
      · subst here
        exact list
      · exact one.rest other here
    · exact fun _ _ => ended_nil _
    · exact fun _ _ mag member => absurd member List.not_mem_nil
    · exact fun _ _ _ _ => List.not_mem_nil
    · rw [tile]
      exact tiles_single base _

theorem nothing_formed (base : Nat) (slabs : Slabs) (nothing : Nothing slabs) : WellFormed base 0 slabs := by
  refine ⟨fun _ => [], ?_⟩
  constructor
  · exact fun other _ => nothing.rest other
  · exact fun _ _ => ended_nil _
  · exact fun _ _ mag member => absurd member List.not_mem_nil
  · exact fun _ _ _ _ => List.not_mem_nil
  · have tile : regions slabs (fun _ => []) = [] := by
      simp [regions, nothing.out]
    rw [tile]
    refine ⟨List.Pairwise.nil, fun adr => ?_⟩
    simp only [List.not_mem_nil, false_and, exists_false, false_iff]
    omega

theorem search_nothing (pool : Mempool) (bktid1 left bktid2 : Nat) (none : ∀ other, bktid2 ≤ other → (pool.tab other).list = none) :
    slabsearch bktid1 left bktid2 pool = some (pool, Option.none) := by
  induction left generalizing bktid2 with
  | zero => rfl
  | succ left ih =>
      rw [slabsearch, none bktid2 (Nat.le_refl _)]
      exact ih (bktid2 + 1) fun other later => none other (by omega)

theorem slaballoc_nothing (pool : Mempool) (nb : Nat) (flg : BitVec 32) (large : memcalcbkt nb < ptrbits) (free : pool.lk = false)
    (none : ∀ other, memcalcbkt nb ≤ other → (pool.tab other).list = none) : slaballoc pool nb flg = some (pool, Option.none) := by
  have search := search_nothing pool (memcalcbkt nb) (ptrbits - 1 - memcalcbkt nb) (memcalcbkt nb + 1)
    fun other later => none other (by omega)
  unfold slaballoc
  rw [if_pos ⟨large, free⟩, slabfind, none _ (Nat.le_refl _)]
  simp only [search, Option.map_some]

theorem bkt_of_request (nb : Nat) (least : memminsize ≤ nb) (most : nb ≤ 2147483648) : memcalcbkt nb < ptrbits := by
  have small := memcalcbkt_least nb 31 (by unfold memminsize at least; omega) (by omega)
    (by rw [show 1 <<< 31 = 2147483648 from rfl]; exact most)
  unfold ptrbits
  omega

theorem one_take (base bktid nb : Nat) (flg : BitVec 32) (slabs : Slabs) (word : base < 4294967296) (large : bktid < ptrbits)
    (odd : bktid % 2 = 1) (one : One base bktid slabs) (list : (slabs.pool.tab bktid).list = some 0)
    (next : (slabs.pool.hdrtab 0).next = none) (out : slabs.out = []) (asked : bktid = memcalcbkt nb)
    (flags : (BitVec.ofNat 32 (bktid - 1) ||| flg) &&& membktmask = BitVec.ofNat 32 bktid) :
    ∃ after, slabStep slabs (.slaballoc nb flg) = some after ∧ One base bktid after := by
  subst asked
  have call : slaballoc slabs.pool nb flg = some (slabtake slabs.pool (memcalcbkt nb) 0 flg) := by
    rw [slaballoc, if_pos ⟨large, one.lk⟩, slabfind, list]
    rfl
  obtain ⟨after, taken⟩ : ∃ after, after = (slabs.pool.setList (memcalcbkt nb) none).onMag 0 fun hdr =>
      memmagsetflg (memmagclrlink (memmagclrfree hdr)) flg := ⟨_, rfl⟩
  have start : after.base = base := by
    rw [taken]
    exact one.start
  have take : slabtake slabs.pool (memcalcbkt nb) 0 flg = (after, some base) := by
    simp only [slabtake, slabpop, next]
    rw [← taken, getadr_base base after start word]
  refine ⟨⟨after, [base]⟩, ?_, ⟨start, ?_, ?_, ?_, Or.inr ⟨?_, rfl⟩⟩⟩
  · simp only [slabStep, call, take, Option.map_some, out]
    rfl
  · rw [taken]
    exact one.lk
  · simp only [taken, Mempool.onMag, Mempool.setMag, Function.update_self]
    exact take_getbkt _ _ flg large odd one.bkt flags
  · intro other different
    simp only [taken, Mempool.onMag, Mempool.setMag, Mempool.setList, Function.update_of_ne different]
    exact one.rest other different
  · simp only [taken, Mempool.onMag, Mempool.setMag, Mempool.setList, Function.update_self]

-- The block has no neighbour that a merge could find: the one before it is
-- outside the table, and one behind it with this number is not free.
theorem slabcomb_alone (pool : Mempool) (bktid : Nat) (large : bktid < ptrbits) (odd : bktid % 2 = 1)
    (bkt : memmaggetbkt (pool.hdrtab 0) = bktid) : slabcomb pool 0 = some (pool, 0) := by
  have positive := shift_pos (bktid - memminshift)
  have before : slabcombprev ⟨pool, 0, some 0, bktid, 1 <<< (bktid - memminshift), 0, false⟩ =
      ⟨pool, 0, some 0, bktid, 1 <<< (bktid - memminshift), 0, false⟩ := by
    rw [slabcombprev, if_neg (Nat.not_le.mpr positive)]
  have behind : slabcombnext ⟨pool, 0, some 0, bktid, 1 <<< (bktid - memminshift), 0, false⟩ =
      ⟨pool, 0, some 0, bktid, 1 <<< (bktid - memminshift), 0, false⟩ := by
    have other : ¬ (memmaggetbkt (pool.hdrtab (0 + 1 <<< (bktid - memminshift))) = bktid ∧
        memmagisfree (pool.hdrtab (0 + 1 <<< (bktid - memminshift))) = true) := by
      rintro ⟨same, free⟩
      rw [odd_not_free _ bktid large odd same] at free
      cases free
    simp only [slabcombnext, Option.getD_some, if_neg other, ite_self]
  have inside : ¬ ptrbits ≤ bktid := Nat.not_le.mpr large
  have loop : slabcombloop ptrbits ⟨pool, 0, some 0, bktid, 1 <<< (bktid - memminshift), 0, false⟩ =
      some ⟨pool, 0, some 0, bktid, 1 <<< (bktid - memminshift), 0, false⟩ := by
    change slabcombloop (31 + 1) _ = _
    simp only [slabcombloop, before, behind, Option.getD_some, if_neg inside, Bool.false_eq_true, if_false]
  simp only [slabcomb, bkt, loop, Option.bind_eq_bind, Option.bind_some, if_true]

theorem one_free (base bktid : Nat) (slabs : Slabs) (word : base < 4294967296) (small : memminshift ≤ bktid) (large : bktid < ptrbits)
    (odd : bktid % 2 = 1) (one : One base bktid slabs) (list : (slabs.pool.tab bktid).list = none) (out : slabs.out = [base]) :
    ∃ after, slabStep slabs (.slabfree base) = some after ∧ One base bktid after := by
  have mag : memgetmag base slabs.pool = 0 := getmag_base base slabs.pool one.start word
  have bkt : memmaggetbkt ((slabs.pool.onMag 0 memmagsetfree).hdrtab 0) = bktid := by
    simp only [Mempool.onMag, Mempool.setMag, Function.update_self]
    exact setfree_getbkt _ bktid large odd one.bkt
  have comb := slabcomb_alone (slabs.pool.onMag 0 memmagsetfree) bktid large odd bkt
  have empty : ((slabs.pool.onMag 0 memmagsetfree).tab bktid).list = none := list
  obtain ⟨after, freed⟩ : ∃ after, after = (((slabs.pool.onMag 0 memmagsetfree).onMag 0 memmagclrlink).onMag 0 fun hdr =>
      { hdr with next := none }).setList bktid (some 0) := ⟨_, rfl⟩
  have call : slabfree slabs.pool base = some after := by
    simp only [slabfree, mag, one.bkt, comb, if_pos (⟨large, small, one.lk⟩ : bktid < ptrbits ∧ memminshift ≤ bktid ∧ _), Option.map_some,
      if_true, empty, freed]
  refine ⟨⟨after, []⟩, ?_, ⟨?_, ?_, ?_, ?_, Or.inl ⟨?_, ?_, ?_, rfl⟩⟩⟩
  · simp only [slabStep, call, Option.map_some, out, List.erase_cons_head]
  · rw [freed]
    exact one.start
  · rw [freed]
    exact one.lk
  · simp only [freed, Mempool.onMag, Mempool.setMag, Mempool.setList, Function.update_self] at bkt ⊢
    exact bkt
  · intro other different
    simp only [freed, Mempool.onMag, Mempool.setMag, Mempool.setList, Function.update_of_ne different]
    exact one.rest other different
  · simp only [freed, Mempool.onMag, Mempool.setMag, Mempool.setList, Function.update_self]
  · simp only [freed, Mempool.onMag, Mempool.setMag, Mempool.setList, Function.update_self, memmagclrlink]
  · simp only [freed, Mempool.onMag, Mempool.setMag, Mempool.setList, Function.update_self]

theorem one_step (base bktid : Nat) (word : base < 4294967296) (small : memminshift ≤ bktid) (large : bktid < ptrbits)
    (odd : bktid % 2 = 1) (slabs : Slabs) (op : SlabOp) (one : One base bktid slabs) (cond : SlabLegal slabs op ∧ SlabSound slabs op) :
    True ∧ ∃ after, slabStep slabs op = some after ∧ One base bktid after := by
  refine ⟨trivial, ?_⟩
  obtain ⟨legal, sound⟩ := cond
  cases op with
  | slaballoc nb flg =>
      have request := bkt_of_request nb legal.1 sound.1
      have refused : (∀ other, memcalcbkt nb ≤ other → (slabs.pool.tab other).list = none) →
          ∃ after, slabStep slabs (.slaballoc nb flg) = some after ∧ One base bktid after := by
        intro none
        exact ⟨slabs, by simp only [slabStep, slaballoc_nothing slabs.pool nb flg request one.lk none, Option.map_some]; rfl, one⟩
      rcases one.place with ⟨list, -, next, out⟩ | ⟨list, -⟩
      · rcases sound.2 bktid large (by rw [list]; exact Option.some_ne_none _) with smaller | ⟨same, flags⟩
        · apply refused
          intro other above
          exact one.rest other (by omega)
        · exact one_take base bktid nb flg slabs word large odd one list next out same flags
      · apply refused
        intro other _
        by_cases here : other = bktid
        · rw [here]
          exact list
        · exact one.rest other here
  | slabfree ptr =>
      rcases one.place with ⟨-, -, -, out⟩ | ⟨list, out⟩
      · have member : ptr ∈ slabs.out := legal
        rw [out] at member
        exact absurd member List.not_mem_nil
      · have member : ptr ∈ slabs.out := legal
        rw [out, List.mem_singleton] at member
        rw [member]
        exact one_free base bktid slabs word small large odd one list out

theorem nothing_step (slabs : Slabs) (op : SlabOp) (nothing : Nothing slabs) (cond : SlabLegal slabs op ∧ SlabSound slabs op) :
    True ∧ ∃ after, slabStep slabs op = some after ∧ Nothing after := by
  refine ⟨trivial, slabs, ?_, nothing⟩
  cases op with
  | slaballoc nb flg =>
      have request := bkt_of_request nb cond.1.1 cond.2.1
      simp only [slabStep, slaballoc_nothing slabs.pool nb flg request nothing.lk fun other _ => nothing.rest other, Option.map_some]
      rfl
  | slabfree ptr =>
      have member : ptr ∈ slabs.out := cond.1
      rw [nothing.out] at member
      exact absurd member List.not_mem_nil

theorem bit_clear (nbyte bktid : Nat) (small : nbyte < 1 <<< bktid) : nbyte &&& (1 <<< bktid) = 0 := by
  rw [Nat.one_shiftLeft] at small ⊢
  rw [Nat.and_two_pow, Nat.testBit_lt_two_pow small]
  exact Nat.zero_mul _

theorem bit_set (rest bktid : Nat) (small : rest < 1 <<< bktid) : ((1 <<< bktid) + rest) &&& (1 <<< bktid) ≠ 0 := by
  rw [Nat.one_shiftLeft] at small ⊢
  have bit : (2 ^ bktid + rest).testBit bktid = true := by
    rw [Nat.testBit_two_pow_add_eq, Nat.testBit_lt_two_pow small]
    rfl
  rw [Nat.and_two_pow, bit]
  simp

theorem init_rest (count nbyte adr : Nat) (pool : Mempool) (small : nbyte < 4096) : meminitbkts count nbyte adr pool = pool := by
  induction count with
  | zero => rfl
  | succ bktid ih =>
      rw [meminitbkts]
      by_cases ends : nbyte = 0 ∨ bktid + 1 < pagesizelog2
      · rw [if_pos ends]
      · have page : 1 <<< pagesizelog2 ≤ 1 <<< (bktid + 1) := shift_mono _ _ (by omega)
        have clear := bit_clear nbyte (bktid + 1) (Nat.lt_of_lt_of_le small page)
        rw [if_neg ends, clear]
        exact ih

theorem init_one (count bktid rest adr : Nat) (pool : Mempool) (page : pagesizelog2 ≤ bktid) (inside : bktid ≤ count) (small : rest < 4096) :
    meminitbkts count ((1 <<< bktid) + rest) adr pool =
      (pool.onMag (memgetmag adr pool) (memmagmkfree bktid)).setList bktid (some (memgetmag adr pool)) := by
  have positive := shift_pos bktid
  have pages : 1 <<< pagesizelog2 ≤ 1 <<< bktid := shift_mono _ _ page
  have under : rest < 1 <<< bktid := Nat.lt_of_lt_of_le small pages
  induction count with
  | zero =>
      unfold pagesizelog2 at page
      omega
  | succ count ih =>
      have goes : ¬ ((1 <<< bktid) + rest = 0 ∨ count + 1 < pagesizelog2) := by omega
      rw [meminitbkts, if_neg goes]
      by_cases here : bktid = count + 1
      · subst here
        rw [if_pos (bit_set rest (count + 1) under), Nat.add_sub_cancel_left]
        exact init_rest count rest _ _ small
      · have larger : 1 <<< (bktid + 1) ≤ 1 <<< (count + 1) := shift_mono _ _ (by omega)
        have double := shift_double bktid
        have clear := bit_clear ((1 <<< bktid) + rest) (count + 1) (by omega)
        rw [clear]
        exact ih (by omega)

def bootPool (base nblk : Nat) (hdrtab : Nat → Memmag) : Mempool := ⟨fun _ => ⟨false, none⟩, false, base, nblk, hdrtab⟩

def bootSlabs (base lim nblk : Nat) (hdrtab : Nat → Memmag) : Slabs := ⟨meminitvirt (bootPool base nblk hdrtab) lim, []⟩

def wholePages (base lim : Nat) : Nat := (lim - base) / 4096 * 4096

theorem mkfree_getbkt (hdr : Memmag) (bktid : Nat) (large : bktid < ptrbits) (odd : bktid % 2 = 1) :
    memmaggetbkt (memmagmkfree bktid hdr) = bktid := by
  have table : ∀ small : Fin 32, small.val % 2 = 1 →
      (((0 : BitVec 32) &&& ~~~membktmask ||| BitVec.ofNat 32 small.val) ||| memfree) &&& membktmask = BitVec.ofNat 32 small.val := by
    decide
  exact word_getbkt _ bktid large (table ⟨bktid, large⟩ odd)

theorem boot_one (base lim nblk bktid : Nat) (hdrtab : Nat → Memmag) (word : base < 4294967296) (page : pagesizelog2 ≤ bktid)
    (large : bktid < ptrbits) (odd : bktid % 2 = 1) (whole : wholePages base lim = 1 <<< bktid) :
    One base bktid (bootSlabs base lim nblk hdrtab) := by
  have mag : memgetmag base (bootPool base nblk hdrtab) = 0 := getmag_base base _ rfl word
  have parts : lim - base = (1 <<< bktid) + (lim - base) % 4096 := by
    rw [← whole, wholePages]
    omega
  have init : meminitvirt (bootPool base nblk hdrtab) lim =
      ((bootPool base nblk hdrtab).onMag 0 (memmagmkfree bktid)).setList bktid (some 0) := by
    have loop := init_one (ptrbits - 1) bktid ((lim - base) % 4096) base (bootPool base nblk hdrtab) page (by omega)
      (Nat.mod_lt _ (by decide))
    rw [← parts, mag] at loop
    exact loop
  rw [bootSlabs, init]
  refine ⟨rfl, rfl, ?_, ?_, Or.inl ⟨?_, ?_, ?_, rfl⟩⟩
  · simp only [Mempool.onMag, Mempool.setMag, Mempool.setList, Function.update_self]
    exact mkfree_getbkt _ bktid large odd
  · intro other different
    simp only [Mempool.onMag, Mempool.setMag, Mempool.setList, Function.update_of_ne different]
    rfl
  · simp only [Mempool.setList, Function.update_self]
  · simp only [Mempool.onMag, Mempool.setMag, Mempool.setList, Function.update_self]
    rfl
  · simp only [Mempool.onMag, Mempool.setMag, Mempool.setList, Function.update_self]
    rfl

theorem boot_nothing (base lim nblk : Nat) (hdrtab : Nat → Memmag) (whole : wholePages base lim = 0) :
    Nothing (bootSlabs base lim nblk hdrtab) := by
  have init : meminitvirt (bootPool base nblk hdrtab) lim = bootPool base nblk hdrtab := by
    apply init_rest
    unfold wholePages at whole
    change lim - base < 4096
    omega
  rw [bootSlabs, init]
  exact ⟨rfl, fun _ => rfl, rfl⟩

-- The region is no block at all or one block of an odd bucket.
def OneBlock (size : Nat) : Prop := size = 0 ∨ ∃ bktid, bktid % 2 = 1 ∧ size = 1 <<< bktid

theorem slab_pool_well_formed (base lim nblk : Nat) (hdrtab : Nat → Memmag) (ops : List SlabOp) (order : base ≤ lim)
    (word : lim < 4294967296) (single : OneBlock (wholePages base lim))
    (legal : Meets slabStep SlabLegal (bootSlabs base lim nblk hdrtab) ops)
    (sound : Meets slabStep SlabSound (bootSlabs base lim nblk hdrtab) ops) :
    Holds slabStep (WellFormed base (wholePages base lim)) (fun _ _ => True) (bootSlabs base lim nblk hdrtab) ops := by
  have meets := meets_and slabStep SlabLegal SlabSound _ ops legal sound
  rcases single with none | ⟨bktid, odd, whole⟩
  · have run := invariant_holds slabStep Nothing (fun _ _ => True) _ nothing_step _ ops (boot_nothing base lim nblk hdrtab none) meets
    rw [none]
    exact holds_mono slabStep Nothing _ _ (nothing_formed base) _ ops run
  · have page : pagesizelog2 ≤ bktid := by
      by_contra small
      have few : 1 <<< bktid ≤ 1 <<< 11 := shift_mono _ _ (by unfold pagesizelog2 at small; omega)
      have positive := shift_pos bktid
      rw [← whole] at positive
      rw [← whole] at few
      unfold wholePages at positive few
      change _ ≤ 2048 at few
      omega
    have large : bktid < ptrbits := by
      by_contra big
      have many : 1 <<< ptrbits ≤ 1 <<< bktid := shift_mono _ _ (by omega)
      rw [← whole, wholePages] at many
      change 4294967296 ≤ _ at many
      omega
    have start := boot_one base lim nblk bktid hdrtab (by omega) page large odd whole
    have run := invariant_holds slabStep (One base bktid) (fun _ _ => True) _
      (one_step base bktid (by omega) (by unfold pagesizelog2 at page; unfold memminshift; omega) large odd) _ ops start meets
    rw [whole]
    exact holds_mono slabStep (One base bktid) _ _ (fun slabs => one_formed base bktid slabs (by omega) large odd) _ ops run

def zeroMag : Memmag := ⟨0, 0, none, none, 0, 0, fun _ => 0⟩

theorem slab_pool_well_formed_one_block :
    Meets slabStep SlabLegal (bootSlabs 0x100000 0x120000 512 fun _ => zeroMag) [.slaballoc 131072 1, .slabfree 0x100000] ∧
      Holds slabStep (WellFormed 0x100000 131072) (fun _ _ => True) (bootSlabs 0x100000 0x120000 512 fun _ => zeroMag)
        [.slaballoc 131072 1, .slabfree 0x100000] := by
  have start := boot_one 0x100000 0x120000 512 17 (fun _ => zeroMag) (by decide) (by decide) (by decide) (by decide) (by decide)
  have legal : Meets slabStep SlabLegal (bootSlabs 0x100000 0x120000 512 fun _ => zeroMag)
      [.slaballoc 131072 1, .slabfree 0x100000] := by
    refine ⟨⟨by decide, by decide⟩, fun next taken => ?_⟩
    cases taken
    exact ⟨show 0x100000 ∈ _ by decide, fun _ _ => trivial⟩
  refine ⟨legal, slab_pool_well_formed 0x100000 0x120000 512 (fun _ => zeroMag) _ (by decide) (by decide)
    (Or.inr ⟨17, by decide, by decide⟩) legal ⟨⟨by decide, fun bktid _ some => ?_⟩, fun _ _ => ⟨trivial, fun _ _ => trivial⟩⟩⟩
  have here : bktid = 17 := by
    by_contra different
    exact some (start.rest bktid different)
  subst here
  exact Or.inr ⟨by decide, by decide⟩

-- A pool of 64 kilobytes is one block of bucket 16, and its free mark makes the
-- number 17; a pool of 128 kilobytes has the number 17, and taking its block
-- makes it 16.
theorem bucket_number_lost :
    (¬ Holds slabStep (WellFormed 0x100000 65536) (fun _ _ => True) (bootSlabs 0x100000 0x110000 512 fun _ => zeroMag) []) ∧
      Meets slabStep SlabLegal (bootSlabs 0x100000 0x120000 512 fun _ => zeroMag) [.slaballoc 131072 0] ∧
      ¬ Holds slabStep (WellFormed 0x100000 131072) (fun _ _ => True) (bootSlabs 0x100000 0x120000 512 fun _ => zeroMag)
        [.slaballoc 131072 0] := by
  refine ⟨?_, ⟨⟨by decide, by decide⟩, fun _ _ => trivial⟩, ?_⟩
  · rintro ⟨lists, formed⟩
    have head : some 0 = (lists 16).head? := formed.head 16 (by decide)
    have marked := (formed.marked 16 (by decide) 0 (List.mem_of_head? head.symm)).1
    exact absurd marked (by decide)
  · rintro ⟨-, -, next, taken, lists, formed⟩
    cases taken
    have empty : ∀ bktid < ptrbits, lists bktid = [] := by
      intro bktid inside
      have unlisted : ∀ small : Fin 32, ((slabStep (bootSlabs 0x100000 0x120000 512 fun _ => zeroMag) (.slaballoc 131072 0)).map
        fun slabs => (slabs.pool.tab small.val).list) = some none := by decide
      have list := formed.head bktid inside
      exact List.head?_eq_none_iff.mp (list.symm.trans (Option.some.inj (unlisted ⟨bktid, inside⟩)))
    have outside := (formed.tiles.2 0x110000).mpr (by decide)
    obtain ⟨region, member, low, high⟩ := outside
    rcases List.mem_append.mp member with free | taken
    · obtain ⟨bktid, inside, inList⟩ := List.mem_flatMap.mp free
      rw [empty bktid (List.mem_range.mp inside)] at inList
      exact absurd inList List.not_mem_nil
    · cases List.mem_singleton.mp taken
      exact absurd high (by decide)

end OsZero.KernMem

import OsZero.KernMem.Mag
import OsZero.Lib.Links
import OsZero.Lib.Runs

set_option autoImplicit false

namespace OsZero.KernMem

open Links Runs

def Mempool.onMag (pool : Mempool) (mag : Nat) (change : Memmag → Memmag) : Mempool :=
  pool.setMag mag (change (pool.hdrtab mag))

def memmagmkfree (bktid : Nat) (hdr : Memmag) : Memmag :=
  memmagsetfree (memmagsetbkt (memmagclrlink (memmagclrinfo hdr)) bktid)

-- The loop of meminitvirt, from the largest bucket down to that of a page.
def meminitbkts : Nat → Nat → Nat → Mempool → Mempool
  | 0, _, _, pool => pool
  | bktid + 1, nbyte, adr, pool =>
      if nbyte = 0 ∨ bktid + 1 < pagesizelog2 then pool
      else if nbyte &&& (1 <<< (bktid + 1)) ≠ 0 then
        let mag := memgetmag adr pool
        meminitbkts bktid (nbyte - (1 <<< (bktid + 1))) (adr + (1 <<< (bktid + 1)))
          ((pool.onMag mag (memmagmkfree (bktid + 1))).setList (bktid + 1) (some mag))
      else meminitbkts bktid nbyte adr pool

def meminitvirt (pool : Mempool) (lim : Nat) : Mempool := meminitbkts (ptrbits - 1) (lim - pool.base) pool.base pool

def slabpush (pool : Mempool) (bktid mag : Nat) : Option Nat → Mempool
  | some first =>
      ((pool.onMag first fun hdr => { hdr with prev := some mag }).onMag mag fun hdr => { hdr with next := some first }).setList
        bktid (some mag)
  | none => pool.setList bktid (some mag)

-- The local variables of slabcomb's loop; mag1 may be NULL.
structure Comb where
  pool : Mempool
  mag : Nat
  mag1 : Option Nat
  bktid1 : Nat
  ofs : Nat
  ret : Nat
  merged : Bool

def slabcombprev (comb : Comb) : Comb :=
  if comb.ofs ≤ comb.mag then
    let mag1 := comb.mag - comb.ofs
    let hdr := comb.pool.hdrtab mag1
    if memmaggetbkt hdr = comb.bktid1 ∧ memmagisfree hdr then
      let pool := memunlink comb.pool comb.bktid1 mag1
      { comb with
        pool := pool.onMag comb.mag fun hdr => memmagclrlink (memmagclrinfo hdr)
        mag1 := some mag1, bktid1 := comb.bktid1 + 1, ofs := comb.ofs <<< 1, ret := comb.ret + 1, merged := true }
    else { comb with mag1 := some mag1 }
  else comb

def slabcombnext (comb : Comb) : Comb :=
  let mag1 := comb.mag1.getD comb.mag
  if mag1 + comb.ofs < comb.pool.nblk then
    let mag2 := mag1 + comb.ofs
    let hdr := comb.pool.hdrtab mag2
    if memmaggetbkt hdr = comb.bktid1 ∧ memmagisfree hdr then
      let pool := memunlink comb.pool comb.bktid1 mag2
      let pool := pool.onMag mag2 fun hdr => memmagclrlink (memmagclrinfo hdr)
      { comb with
        pool := pool.onMag mag1 (memmagmkfree (comb.bktid1 + 1))
        mag1 := none, bktid1 := comb.bktid1 + 1, ofs := comb.ofs <<< 1, ret := comb.ret + 1, merged := true }
    else { comb with mag1 := some mag1 }
  else { comb with mag1 := some mag1 }

-- Every round but the last doubles the block, and a block past the largest
-- bucket has left the bucket table.
def slabcombloop : Nat → Comb → Option Comb
  | 0, _ => none
  | fuel + 1, comb =>
      let comb := slabcombnext (slabcombprev { comb with merged := false })
      let comb := { comb with mag := comb.mag1.getD comb.mag }
      if ptrbits ≤ comb.bktid1 then none
      else if comb.merged then slabcombloop fuel comb else some comb

def slabcomb (pool : Mempool) (mag : Nat) : Option (Mempool × Nat) := do
  let bktid := memmaggetbkt (pool.hdrtab mag)
  let comb ← slabcombloop ptrbits ⟨pool, mag, some mag, bktid, 1 <<< (bktid - memminshift), 0, false⟩
  if comb.ret = 0 then some (comb.pool, 0)
  else
    let first := (comb.pool.tab bktid).list
    some (slabpush (comb.pool.onMag comb.mag (memmagmkfree comb.bktid1)) comb.bktid1 comb.mag first, comb.ret)

-- bktid counts down to dest; ptr is the end of what is still to be split.
def slabsplitloop (dest : Nat) : Nat → Nat → Mempool → Option Mempool
  | 0, _, _ => none
  | bktid + 1, ptr, pool =>
      if dest ≤ bktid then
        let ptr := (ptr + (4294967296 - (1 <<< bktid))) % 4294967296
        let mag1 := memgetmag ptr pool
        slabsplitloop dest bktid ptr (slabpush (pool.onMag mag1 (memmagmkfree bktid)) bktid mag1 (pool.tab bktid).list)
      else some pool

def slabsplit (pool : Mempool) (mag dest : Nat) : Option Mempool :=
  let bktid := memmaggetbkt (pool.hdrtab mag)
  if ptrbits < bktid then none
  else (slabsplitloop dest bktid ((memgetadr mag pool + (1 <<< bktid)) % 4294967296) pool).map fun pool =>
    slabpush (pool.onMag mag (memmagmkfree dest)) dest mag (pool.tab dest).list

def slabpop (pool : Mempool) (bktid mag : Nat) : Mempool :=
  match (pool.hdrtab mag).next with
  | some next => (pool.onMag next fun hdr => { hdr with prev := none }).setList bktid (some next)
  | none => pool.setList bktid none

-- The search of the larger buckets; left counts those that remain.
def slabsearch (bktid1 : Nat) : Nat → Nat → Mempool → Option (Mempool × Option Nat)
  | 0, _, pool => some (pool, none)
  | left + 1, bktid2, pool =>
      match (pool.tab bktid2).list with
      | none => slabsearch bktid1 left (bktid2 + 1) pool
      | some mag1 => do
          let pool := (slabpop pool bktid2 mag1).onMag mag1 memmagclrlink
          let pool ← slabsplit pool mag1 bktid1
          match (pool.tab bktid1).list with
          | some mag => some (pool, some mag)
          | none => slabsearch bktid1 left (bktid2 + 1) pool

def slabtake (pool : Mempool) (bktid1 mag1 : Nat) (flg : BitVec 32) : Mempool × Option Nat :=
  let pool := slabpop pool bktid1 mag1
  let pool := pool.onMag mag1 fun hdr => memmagsetflg (memmagclrlink (memmagclrfree hdr)) flg
  (pool, some (memgetadr mag1 pool))

def slabfind (pool : Mempool) (bktid1 : Nat) : Option (Mempool × Option Nat) :=
  match (pool.tab bktid1).list with
  | some mag1 => some (pool, some mag1)
  | none => slabsearch bktid1 (ptrbits - 1 - bktid1) (bktid1 + 1) pool

-- The pool's lock is free on entry and again on return; a bucket past the
-- table has no list.
def slaballoc (pool : Mempool) (nb : Nat) (flg : BitVec 32) : Option (Mempool × Option Nat) :=
  if memcalcbkt nb < ptrbits ∧ pool.lk = false then
    (slabfind pool (memcalcbkt nb)).map fun found =>
      match found.2 with
      | some mag1 => slabtake found.1 (memcalcbkt nb) mag1 flg
      | none => (found.1, none)
  else none

def slabfree (pool : Mempool) (ptr : Nat) : Option Mempool :=
  let mag1 := memgetmag ptr pool
  let bktid := memmaggetbkt (pool.hdrtab mag1)
  if bktid < ptrbits ∧ memminshift ≤ bktid ∧ pool.lk = false then
    (slabcomb (pool.onMag mag1 memmagsetfree) mag1).map fun comb =>
      if comb.2 = 0 then
        let mag2 := (comb.1.tab bktid).list
        let pool := comb.1.onMag mag1 memmagclrlink
        match mag2 with
        | some first =>
            ((pool.onMag first fun hdr => { hdr with prev := some mag1 }).onMag mag1 fun hdr =>
              { hdr with next := some first }).setList bktid (some mag1)
        | none => (pool.onMag mag1 fun hdr => { hdr with next := none }).setList bktid (some mag1)
      else comb.1
  else none

-- out are the pointers that slaballoc gave and slabfree has not had back.
structure Slabs where
  pool : Mempool
  out : List Nat

inductive SlabOp where
  | slaballoc (nb : Nat) (flg : BitVec 32)
  | slabfree (ptr : Nat)

def slabStep (slabs : Slabs) : SlabOp → Option Slabs
  | .slaballoc nb flg => (slaballoc slabs.pool nb flg).map fun result => ⟨result.1, result.2.toList ++ slabs.out⟩
  | .slabfree ptr => (slabfree slabs.pool ptr).map fun pool => ⟨pool, slabs.out.erase ptr⟩

def links (pool : Mempool) : Links.Heap Nat := ⟨fun mag => (pool.hdrtab mag).next, fun mag => (pool.hdrtab mag).prev⟩

-- Start and size of the blocks, the free ones by their lists.
def regions (slabs : Slabs) (lists : Nat → List Nat) : List (Nat × Nat) :=
  (List.range ptrbits).flatMap (fun bktid => (lists bktid).map fun mag => (memgetadr mag slabs.pool, 1 <<< bktid)) ++
    slabs.out.map fun ptr => (ptr, 1 <<< memmaggetbkt (slabs.pool.hdrtab (memgetmag ptr slabs.pool)))

-- Every address of the range lies in exactly one region, and no other does.
def Tiles (regions : List (Nat × Nat)) (base size : Nat) : Prop :=
  regions.Pairwise (fun one two => one.1 + one.2 ≤ two.1 ∨ two.1 + two.2 ≤ one.1) ∧
    ∀ adr, (∃ region ∈ regions, region.1 ≤ adr ∧ adr < region.1 + region.2) ↔ base ≤ adr ∧ adr < base + size

structure Formed (base size : Nat) (slabs : Slabs) (lists : Nat → List Nat) : Prop where
  head : ∀ bktid < ptrbits, (slabs.pool.tab bktid).list = (lists bktid).head?
  ended : ∀ bktid < ptrbits, Ended (links slabs.pool) (lists bktid)
  marked : ∀ bktid < ptrbits, ∀ mag ∈ lists bktid,
    memmaggetbkt (slabs.pool.hdrtab mag) = bktid ∧ (slabs.pool.hdrtab mag).info &&& memfree = memfree
  away : ∀ ptr ∈ slabs.out, ∀ bktid < ptrbits, memgetmag ptr slabs.pool ∉ lists bktid
  tiles : Tiles (regions slabs lists) base size

def WellFormed (base size : Nat) (slabs : Slabs) : Prop := ∃ lists, Formed base size slabs lists

end OsZero.KernMem

import OsZero.KernMem.Mag
import OsZero.Lib.Chains
import OsZero.Lib.Runs

set_option autoImplicit false

namespace OsZero.KernMem

open Chains Runs

-- fmtxlk spins on a lock that is held; the table has ptrbits buckets.
def fmtxlk (pool : Mempool) (bktid : Nat) : Option Mempool :=
  if bktid < ptrbits ∧ (pool.tab bktid).lk = false then
    some { pool with tab := Function.update pool.tab bktid { pool.tab bktid with lk := true } }
  else none

def fmtxunlk (pool : Mempool) (bktid : Nat) : Mempool :=
  { pool with tab := Function.update pool.tab bktid { pool.tab bktid with lk := false } }

def memmagempty (mag : Memmag) : Bool := mag.ndx == mag.n

def memmagfull (mag : Memmag) : Bool := mag.ndx == 0

-- ptab has memslabsize / memminsize entries.
def mempop (mag : Memmag) : Option (Memmag × Nat) :=
  if mag.ndx < 256 then some ({ mag with ndx := mag.ndx + 1 }, mag.ptab mag.ndx) else none

def mempush (mag : Memmag) (ptr : Nat) : Option Memmag :=
  match mag.ndx with
  | 0 => none
  | ndx + 1 => if ndx < 256 then some { mag with ndx := ndx, ptab := Function.update mag.ptab ndx ptr } else none

-- The calls of the slab layer are taken at its word: slab is the address that
-- slaballoc returns when it is called. MEMZERO and the page tables only
-- concern what is behind the addresses.
def memallocslab (pool : Mempool) (bktid ptr : Nat) : Mempool × Option Nat :=
  let mag := memgetmag ptr pool
  (pool.setMag mag { memmagsetbkt { pool.hdrtab mag with base := ptr, n := 1, ndx := 1 } bktid with prev := none, next := none },
    some ptr)

def memcarve (bsz : Nat) : Nat → Nat → Nat → (Nat → Nat) → (Nat → Nat)
  | 0, _, _, ptab => ptab
  | left + 1, ndx, u8ptr, ptab =>
      let u8ptr := (u8ptr + bsz) % 4294967296
      memcarve bsz left (ndx + 1) u8ptr (Function.update ptab ndx u8ptr)

def memallocmag (pool : Mempool) (bktid ptr : Nat) : Mempool × Option Nat :=
  let bsz := 1 <<< bktid
  let n := 1 <<< (memslabshift - bktid)
  let mag := memgetmag ptr pool
  let hdr := memmagsetbkt { pool.hdrtab mag with base := ptr, n := n, ndx := 1 } bktid
  let hdr := { hdr with ptab := memcarve bsz (n - 1) 1 ptr hdr.ptab, prev := none, next := none }
  if n > 1 then ((pool.setMag mag { hdr with next := (pool.tab bktid).list }).setList bktid (some mag), some ptr)
  else (pool.setMag mag hdr, some ptr)

def memunlinkhead (pool : Mempool) (bktid mag : Nat) : Mempool :=
  match (pool.hdrtab mag).next with
  | some next => (pool.setMag next { pool.hdrtab next with prev := none }).setList bktid (some next)
  | none => pool.setList bktid none

def mempopmag (pool : Mempool) (bktid mag : Nat) : Option (Mempool × Option Nat) := do
  let popped ← mempop (pool.hdrtab mag)
  let pool := pool.setMag mag popped.1
  if memmagempty popped.1 then some (memunlinkhead pool bktid mag, some popped.2) else some (pool, some popped.2)

def memallocbkt (pool : Mempool) (bktid : Nat) (slab : Option Nat) : Option (Mempool × Option Nat) :=
  if memslabshift ≤ bktid then
    match slab with
    | some ptr => some (memallocslab pool bktid ptr)
    | none => some (pool, none)
  else
    match (pool.tab bktid).list, slab with
    | some mag, _ => mempopmag pool bktid mag
    | none, some ptr => some (memallocmag pool bktid ptr)
    | none, none => some (pool, none)

def memallocbktid (nb : Nat) : Nat := memcalcbkt (max memminsize nb)

-- Without a pointer memalloc panics, and the kernel halts.
def memalloc (pool : Mempool) (nb : Nat) (slab : Option Nat) : Option (Mempool × Option Nat) := do
  let pool ← fmtxlk pool (memallocbktid nb)
  let result ← memallocbkt pool (memallocbktid nb) slab
  match result.2 with
  | some ptr => some (fmtxunlk result.1 (memallocbktid nb), some ptr)
  | none => some result

inductive Which where
  | phys
  | virt
deriving DecidableEq

def gtpow2 (u p2 : BitVec 32) : Bool := u &&& ~~~p2 != 0

def memlinkhead (pool : Mempool) (bktid mag : Nat) : Mempool :=
  let head := (pool.tab bktid).list
  let pool := pool.setMag mag { pool.hdrtab mag with prev := none }
  let pool := match head with
    | some first => pool.setMag first { pool.hdrtab first with prev := some mag }
    | none => pool
  (pool.setMag mag { pool.hdrtab mag with next := head }).setList bktid (some mag)

-- The second part of the result is the slabfree call that is made, if one is.
def kfreemag (pool : Mempool) (bktid mag ptr : Nat) : Mempool × Option (Which × Nat) :=
  if memmagfull (pool.hdrtab mag) then
    let pool := if gtpow2 (BitVec.ofNat 32 (pool.hdrtab mag).n) 1 then memunlink pool bktid mag else pool
    (pool.setMag mag { pool.hdrtab mag with base := 0 }, some (.phys, ptr))
  else if (pool.hdrtab mag).ndx = (pool.hdrtab mag).n - 1 then (memlinkhead pool bktid mag, none)
  else (pool, none)

def kfreeptr (pool : Mempool) (ptr : Nat) : Option (Mempool × Option (Which × Nat)) := do
  let mag := memgetmag ptr pool
  let bktid := memmaggetbkt (pool.hdrtab mag)
  let pool ← fmtxlk pool bktid
  let hdr ← mempush (pool.hdrtab mag) ptr
  let result := kfreemag (pool.setMag mag hdr) bktid mag ptr
  some (fmtxunlk result.1 bktid, result.2)

def kfree (pool : Mempool) (ptr : Nat) : Option (Mempool × Option (Which × Nat)) :=
  if ptr = 0 then some (pool, none) else kfreeptr pool ptr

-- slabs are the blocks that slaballoc gave and slabfree has not had back, each
-- with its bucket; live are the pointers with the sizes asked for.
structure Heap where
  pool : Mempool
  halted : Bool
  slabs : List (Nat × Nat)
  live : List (Nat × Nat)

inductive Op where
  | memalloc (nb : Nat) (slab : Option Nat)
  | kfree (ptr : Nat)

def asksslab (pool : Mempool) (nb : Nat) : Bool :=
  memslabshift ≤ memallocbktid nb || (pool.tab (memallocbktid nb)).list.isNone

def newslab (pool : Mempool) (nb ptr : Nat) : List (Nat × Nat) := if asksslab pool nb then [(ptr, memallocbktid nb)] else []

def heapalloc (heap : Heap) (nb : Nat) (slab : Option Nat) : Option Heap := do
  let result ← memalloc heap.pool nb slab
  match result.2 with
  | some ptr => some ⟨result.1, false, newslab heap.pool nb ptr ++ heap.slabs, (ptr, nb) :: heap.live⟩
  | none => some { heap with pool := result.1, halted := true }

def slabsleft (slabs : List (Nat × Nat)) : Option (Which × Nat) → List (Nat × Nat)
  | some (_, adr) => slabs.filter fun slab => slab.1 ≠ adr
  | none => slabs

def heapfree (heap : Heap) (ptr : Nat) : Option Heap := do
  let result ← kfree heap.pool ptr
  some ⟨result.1, false, slabsleft heap.slabs result.2, heap.live.filter fun entry => entry.1 ≠ ptr⟩

def heapStep (heap : Heap) (op : Op) : Option Heap :=
  if heap.halted then some heap
  else match op with
    | .memalloc nb slab => heapalloc heap nb slab
    | .kfree ptr => heapfree heap ptr

def Apart (start size other count : Nat) : Prop := start + size ≤ other ∨ other + count ≤ start

instance (start size other count : Nat) : Decidable (Apart start size other count) := inferInstanceAs (Decidable (_ ∨ _))

def region (nb : Nat) : Nat := max nb memminsize

def LiveApart (heap : Heap) : Prop :=
  heap.live.Pairwise fun one two => Apart one.1 (region one.2) two.1 (region two.2)

instance (heap : Heap) : Decidable (LiveApart heap) := inferInstanceAs (Decidable (List.Pairwise _ _))

-- A slabfree call gives back a block of the virtual pool by its start.
def Returned (heap : Heap) : Op → Prop
  | .memalloc _ _ => True
  | .kfree ptr => ∀ pool which adr, heap.halted = false → kfree heap.pool ptr = some (pool, some (which, adr)) →
      which = .virt ∧ ∃ bktid, (adr, bktid) ∈ heap.slabs ∧ memgetmag adr heap.pool = memgetmag ptr heap.pool

-- slaballoc keeps its word, and only live pointers are freed.
def Legal (heap : Heap) : Op → Prop
  | .memalloc nb slab => nb < 4294967296 ∧ ∀ ptr, slab = some ptr → asksslab heap.pool nb →
      heap.pool.base ≤ ptr ∧ 0 < ptr ∧ ptr + (1 <<< memallocbktid nb) ≤ 4294967296 ∧
      ∀ entry ∈ heap.slabs, Apart ptr (1 <<< memallocbktid nb) entry.1 (1 <<< entry.2)
  | .kfree ptr => ∃ nb, (ptr, nb) ∈ heap.live

end OsZero.KernMem

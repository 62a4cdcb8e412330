import OsZero.Lib.Shelves
import OsZero.UserMem.Hash
import OsZero.UserMem.Slot

set_option autoImplicit false

namespace OsZero.UserMem

open Links

inductive Memtype where
  | small
  | page
  | big
deriving DecidableEq

-- The bins of the one thread's memtls and those of g_mem.
inductive Membin where
  | tlssmall (slot : Nat)
  | tlspage (slot : Nat)
  | smallbin (slot : Nat)
  | pagebin (slot : Nat)
  | bigbin (slot : Nat)
deriving DecidableEq

structure Membkt where
  list : Option Nat
  lk : Bool
  nbuf : Int

-- What is written once, when the buffer is mapped: base, size and the parts of
-- info.
structure Memgeo where
  base : Nat
  type : Memtype
  slot : Nat
  nblk : Nat
  size : Nat

structure Membuf where
  geo : Memgeo
  tls : Bool
  nfree : Int
  stk : Nat → Nat
  stktop : Nat

-- Buffers and their links stand at the addresses of their mappings, which maps
-- lists.
structure Mem where
  hash : Hash
  buf : Nat → Membuf
  link : Heap Nat
  bin : Membin → Membkt
  maps : List Nat

def memminalign : Nat := 16
def memminblk : Nat := 16
def membufmaxblks : Nat := 1024

-- The shifts are those of the x86-64, which takes a count modulo 64.
def memshl (x slot : Nat) : Nat := (x <<< (slot % 64)) % 18446744073709551616

def membufblksize (type : Memtype) (slot : Nat) : Nat :=
  match type with
  | .page => 4096 + 4096 * slot
  | _ => memshl 1 slot

def memnbufblk (type : Memtype) (slot : Nat) : Nat :=
  match type with
  | .small => if slot ≤ 7 then 1024 else if slot ≤ 9 then 256 else 64
  | .page => if slot ≤ 16 then 8 else if slot ≤ 32 then 4 else 2
  | .big => if slot ≤ 23 then 4 else if slot ≤ 26 then 2 else 1

def membktnbuftls (type : Memtype) (slot : Nat) : Int :=
  match type with
  | .small => if slot ≤ 7 then 4 else if slot ≤ 9 then 2 else 1
  | .page => if slot ≤ 16 then 4 else if slot ≤ 32 then 2 else 1
  | .big => 0

def membufblkofs : Nat := 4096

def membufsize (type : Memtype) (slot nblk : Nat) : Nat :=
  match type with
  | .small => rounduppow2 (membufblkofs + memshl nblk slot) 4096
  | .page => rounduppow2 (membufblkofs + (4096 + 4096 * slot) * nblk) 4096
  | .big => rounduppow2 (membufblkofs + memshl 1 slot * nblk) 4096

def tlsbin (type : Memtype) (slot : Nat) : Membin :=
  match type with
  | .small => .tlssmall slot
  | _ => .tlspage slot

-- The page bins follow the 64 big ones in struct mem.
def globbin (type : Memtype) (slot : Nat) : Membin :=
  match type with
  | .small => .smallbin slot
  | .page => .pagebin slot
  | .big => if slot < 64 then .bigbin slot else .pagebin (slot - 64)

def membufinitfree (geo : Memgeo) (nblk : Nat) : Membuf := ⟨geo, false, nblk, fun cur => if cur < nblk then cur else 0, 0⟩

def membufgetfree (buf : Membuf) : Option (Membuf × Nat) :=
  if buf.stktop < membufmaxblks then some ({ buf with nfree := buf.nfree - 1, stktop := buf.stktop + 1 }, buf.stk buf.stktop)
  else none

def membufputfree (buf : Membuf) (id : Nat) : Option Membuf :=
  if 0 < buf.stktop ∧ buf.stktop - 1 < membufmaxblks then
    some { buf with
      nfree := buf.nfree + 1
      stk := Function.update buf.stk (buf.stktop - 1) (id % 65536)
      stktop := buf.stktop - 1 }
  else none

def membufblkadr (geo : Memgeo) (id : Nat) : Nat := (geo.base + memshl id geo.slot) % 18446744073709551616

def membufpageadr (geo : Memgeo) (id : Nat) : Nat := (geo.base + id * (4096 + 4096 * geo.slot)) % 18446744073709551616

def membufblkid (geo : Memgeo) (ptr : Nat) : Nat :=
  ((ptr + 18446744073709551616 - geo.base) % 18446744073709551616) >>> (geo.slot % 64)

def memadr (type : Memtype) (geo : Memgeo) (id : Nat) : Nat :=
  if type ≠ .page then membufblkadr geo id else membufpageadr geo id

def memalignptr (ptr pow2 : Nat) : Nat := rounduppow2 ptr pow2

def memsetbuf (sites : Sites) (hash : Hash) (ptr buf id : Nat) : Option Hash :=
  (membufop sites hash (.add (BitVec.ofNat 64 ptr) (BitVec.ofNat 64 buf) (BitVec.ofNat 64 id))).map Prod.fst

def memlkbin (mem : Mem) (bin : Membin) : Option Mem :=
  if (mem.bin bin).lk then none
  else some { mem with bin := Function.update mem.bin bin { mem.bin bin with lk := true } }

def memrelbin (mem : Mem) (bin : Membin) : Mem :=
  { mem with bin := Function.update mem.bin bin { mem.bin bin with lk := false } }

-- The first buffer of a bin leaves it; the write to list clears the lock bit.
def mempopbuf (mem : Mem) (bin : Membin) (adr : Nat) : Mem :=
  { mem with
    link := popFront mem.link adr
    bin := Function.update mem.bin bin ⟨mem.link.next adr, false, (mem.bin bin).nbuf - 1⟩ }

def mempushbuf (mem : Mem) (bin : Membin) (adr : Nat) : Mem :=
  { mem with
    link := pushFront mem.link adr (mem.bin bin).list
    bin := Function.update mem.bin bin ⟨some adr, false, (mem.bin bin).nbuf + 1⟩ }

def memclrprev (mem : Mem) (adr : Nat) : Mem := { mem with link := mem.link.setPrev adr none }

def memsettls (mem : Mem) (adr : Nat) (tls : Bool) : Mem :=
  { mem with buf := Function.update mem.buf adr { mem.buf adr with tls := tls } }

-- A returned pointer 0 is NULL.
def memgetblktls (sites : Sites) (mem : Mem) (type : Memtype) (slot align : Nat) : Option (Mem × Nat) :=
  match (mem.bin (tlsbin type slot)).list with
  | none => some (mem, 0)
  | some adr => do
      let got ← membufgetfree (mem.buf adr)
      let ptr := memalignptr (memadr type got.1.geo got.2) align
      let hash ← memsetbuf sites mem.hash ptr adr (if type ≠ .page then 0 else got.2)
      let mem := { mem with hash := hash, buf := Function.update mem.buf adr got.1 }
      some (if got.1.nfree = 0 then mempopbuf mem (tlsbin type slot) adr else mem, ptr)

-- A small or page buffer goes from the global bin to the thread's, whose old
-- first buffer keeps its prev.
def memglobtotls (mem : Mem) (type : Memtype) (slot adr : Nat) : Mem :=
  let mem := memclrprev mem adr
  let bkt := mem.bin (tlsbin type slot)
  memsettls { mem with
    link := mem.link.setNext adr bkt.list
    bin := Function.update mem.bin (tlsbin type slot) ⟨some adr, bkt.lk, bkt.nbuf + 1⟩ } adr true

def memgetblkglob (sites : Sites) (mem : Mem) (type : Memtype) (slot align : Nat) : Option (Mem × Nat) := do
  let mem ← memlkbin mem (globbin type slot)
  match (mem.bin (globbin type slot)).list with
  | none => some (memrelbin mem (globbin type slot), 0)
  | some adr =>
      let got ← membufgetfree (mem.buf adr)
      let ptr := memalignptr (memadr type got.1.geo got.2) align
      let hash ← memsetbuf sites mem.hash ptr adr got.2
      let mem := { mem with hash := hash, buf := Function.update mem.buf adr got.1 }
      let mem := if got.1.nfree = 0 ∨ type ≠ .big then mempopbuf mem (globbin type slot) adr else mem
      some (if got.1.nfree ≠ 0 ∧ type ≠ .big then memglobtotls mem type slot adr else memrelbin mem (globbin type slot), ptr)

-- mapanon's memory is zero, so a new buffer has no links and no tls.
def memmapbuf (mem : Mem) (type : Memtype) (slot adr : Nat) : Mem :=
  let nblk := memnbufblk type slot
  let geo : Memgeo := ⟨adr + membufblkofs, type, slot, nblk, membufsize type slot nblk⟩
  { mem with
    buf := Function.update mem.buf adr (membufinitfree geo nblk)
    link := (mem.link.setPrev adr none).setNext adr none
    maps := adr :: mem.maps }

def meminitbuf (sites : Sites) (mem : Mem) (type : Memtype) (slot align adr : Nat) : Option (Mem × Nat) := do
  let mem := memmapbuf mem type slot adr
  let got ← membufgetfree (mem.buf adr)
  let ptr := memalignptr got.1.geo.base align
  let hash ← memsetbuf sites mem.hash ptr adr 0
  some ({ mem with hash := hash, buf := Function.update mem.buf adr got.1 }, ptr)

def memlinkbuf (mem : Mem) (type : Memtype) (slot adr : Nat) : Option Mem :=
  if type ≠ .big then some (memsettls (mempushbuf (memclrprev mem adr) (tlsbin type slot) adr) adr true)
  else (memlkbin mem (globbin type slot)).map fun mem => mempushbuf (memclrprev mem adr) (globbin type slot) adr

-- map is what mapanon answers when it is called, none for MAP_FAILED.
def memnewblk (sites : Sites) (mem : Mem) (type : Memtype) (slot align : Nat) (map : Option Nat) : Option (Mem × Nat) :=
  match map with
  | none => some (mem, 0)
  | some adr => do
      let got ← meminitbuf sites mem type slot align adr
      if got.2 ≠ 0 ∧ 1 < memnbufblk type slot then (memlinkbuf got.1 type slot adr).map fun mem => (mem, got.2) else some got

def memtrytls (sites : Sites) (mem : Mem) (type : Memtype) (slot align : Nat) : Option (Mem × Nat) :=
  if type ≠ .big then memgetblktls sites mem type slot align else some (mem, 0)

def memgetblk (sites : Sites) (mem : Mem) (slot : Nat) (type : Memtype) (align : Nat) (map : Option Nat) : Option (Mem × Nat) :=
  (memtrytls sites mem type slot align).bind fun tls =>
  if tls.2 ≠ 0 then some tls else
  (memgetblkglob sites tls.1 type slot align).bind fun glob =>
  if glob.2 ≠ 0 then some glob else memnewblk sites glob.1 type slot align map

def memasz (size align : Nat) : Nat :=
  let aln := max align memminalign
  let sz := max size memminblk
  if aln ≤ 4096 then max aln sz else (sz + aln - 1) % 18446744073709551616

def memtype (asz : Nat) : Memtype := if asz ≤ 2048 then .small else if asz ≤ 524288 then .page else .big

def memslot (asz : Nat) : Nat := if memtype asz ≠ .page then memcalcslot asz else memcalcpageslot asz

def memalloc (sites : Sites) (mem : Mem) (size align : Nat) (map : Option Nat) : Option (Mem × Nat) :=
  let asz := memasz size align
  memgetblk sites mem (memslot asz) (memtype asz) (max align memminalign) map

def memdequeuebuftls (mem : Mem) (adr : Nat) (bin : Membin) : Mem :=
  memsettls { mem with
    link := unlink mem.link adr
    bin := Function.update mem.bin bin ⟨unlinkHead mem.link adr (mem.bin bin).list, false, (mem.bin bin).nbuf - 1⟩ } adr false

-- The buffer is in front of the global list afterwards, with no owner.
def memtoglob (mem : Mem) (type : Memtype) (slot adr : Nat) : Option Mem :=
  (memlkbin mem (globbin type slot)).map fun mem =>
    mempushbuf (memsettls (memclrprev mem adr) adr false) (globbin type slot) adr

-- tls is the buffer's own when the call starts; the lock is taken without one.
def memrelput (mem : Mem) (adr : Nat) (tls : Bool) : Option Mem :=
  let buf := mem.buf adr
  let type := buf.geo.type
  let slot := buf.geo.slot
  if buf.nfree ≠ 1 ∧ buf.nfree ≠ buf.geo.nblk then some (if tls then mem else memrelbin mem (globbin type slot))
  else if buf.nfree = 1 then
    some (if type ≠ .big then mempushbuf mem (tlsbin type slot) adr
      else mempushbuf (memclrprev mem adr) (globbin type slot) adr)
  else if tls then
    if type ≠ .big then
      if membktnbuftls type slot ≤ (mem.bin (tlsbin type slot)).nbuf then
        memtoglob (memdequeuebuftls mem adr (tlsbin type slot)) type slot adr
      else some mem
    else memtoglob mem type slot adr
  else some (memrelbin mem (globbin type slot))

def memlkglob (mem : Mem) (tls : Bool) (bin : Membin) : Option Mem := if tls then some mem else memlkbin mem bin

def memrelblk (mem : Mem) (adr id : Nat) : Option Mem := do
  let tls := (mem.buf adr).tls
  let geo := (mem.buf adr).geo
  let mem ← memlkglob mem tls (globbin geo.type geo.slot)
  let buf ← membufputfree (mem.buf adr) id
  memrelput { mem with buf := Function.update mem.buf adr buf } adr tls

-- A descriptor is a buffer's address with a block number in the page bits.
def descbuf (desc : BitVec 64) : Nat := (desc &&& ~~~0xfff#64).toNat

def descid (desc : BitVec 64) : Nat := (desc &&& 0xfff#64).toNat

def membufdel (mem : Mem) (ptr : Nat) (desc : BitVec 64) : Option Mem :=
  let geo := (mem.buf (descbuf desc)).geo
  memrelblk mem (descbuf desc) (if geo.type ≠ .page then membufblkid geo ptr else descid desc)

def memfound (mem : Mem) (hash : Hash) (ptr key : Nat) : Lookup → Option Mem
  | .missing _ => some { mem with hash := memrelbit hash key }
  | .found blk slot _ => (membufdel { mem with hash := hash } ptr (hash.val blk slot)).map fun mem =>
      { mem with hash := memrelbit mem.hash key }

def memfree (mem : Mem) (ptr : Nat) : Option Mem := do
  let page := memptrpage (BitVec.ofNat 64 ptr)
  let hash ← memlkbit mem.hash (memhashkey page)
  let lookup ← memlookup hash (memhashkey page) page
  memfound mem hash ptr (memhashkey page) lookup

structure Block where
  ptr : Nat
  size : Nat
  align : Nat
deriving DecidableEq

-- live lists the blocks that the program holds.
structure Arena where
  mem : Mem
  live : List Block

inductive Call where
  | malloc (size : Nat) (map : Option Nat)
  | memalign (align size : Nat) (map : Option Nat)
  | free (ptr : Nat)

def handout (arena : Arena) (size align : Nat) (got : Mem × Nat) : Arena :=
  ⟨got.1, if got.2 = 0 then arena.live else ⟨got.2, size, align⟩ :: arena.live⟩

def memcall (sites : Sites) (arena : Arena) : Call → Option Arena
  | .malloc size map => (memalloc sites arena.mem size memminalign map).map (handout arena size memminalign)
  | .memalign align size map =>
      if powerof2 (BitVec.ofNat 64 align) then (memalloc sites arena.mem size align map).map (handout arena size align)
      else some arena
  | .free ptr =>
      if ptr = 0 then some arena
      else (memfree arena.mem ptr).map fun mem => ⟨mem, arena.live.filter fun block => block.ptr ≠ ptr⟩

def emptybuf : Membuf := ⟨⟨0, .small, 0, 0, 0⟩, false, 0, fun _ => 0, 0⟩

def emptymem : Mem := ⟨emptyhash, fun _ => emptybuf, ⟨fun _ => none, fun _ => none⟩, fun _ => ⟨none, false, 0⟩, []⟩

end OsZero.UserMem

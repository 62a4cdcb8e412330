import Mathlib.Tactic.IntervalCases
import OsZero.Lib.Chains
import OsZero.Lib.Runs

set_option autoImplicit false

namespace OsZero.UserMem

open Chains Runs

def pagesizelog2 : Nat := 12
def memhasharrayitems : Nat := 62
def memhashnotfound : BitVec 64 := 0

-- A block of 128 words holds a header of four words and items of two.
def memhasharraywords : Nat := 128
def memhashwords : Nat := 4

def tmhash64 (u : BitVec 64) : BitVec 64 :=
  let u := (u ^^^ (u >>> 30)) * 0xbf58476d1ce4e5b9
  let u := (u ^^^ (u >>> 27)) * 0x94d049bb133111eb
  u ^^^ (u >>> 31)

def memhashkey (page : BitVec 64) : Nat := (tmhash64 page &&& 0x7fff).toNat

def memptrpage (ptr : BitVec 64) : BitVec 64 := ptr >>> pagesizelog2

-- The addresses that mapanon gives the successive mappings of hash blocks;
-- they are user addresses of the x86-64, which have 47 bits.
structure Sites where
  adr : Nat → Nat
  below : ∀ map, adr map < 140737488355328

def memquot9 (res : Nat) : Nat :=
  let q := res - (res >>> 3)
  let q := q + (q >>> 6)
  let q := q + (q >>> 12) + (q >>> 24)
  q >>> 3

-- The number of words that memgenhashtabadr moves the item table by.
def memgenhashtabadr (adr : Nat) : Nat :=
  let res := adr >>> 16
  let q := memquot9 res
  let r := res - q * 9
  let div9 := q + ((r + 7) >>> 4)
  (res - div9 * 9) <<< 1

-- Blocks are numbered in the order of their addresses in the mappings, 32 of
-- 1024 bytes to a mapping of eight pages.
def memblkadr (sites : Sites) (blk : Nat) : Nat := sites.adr (blk / 32) + 1024 * (blk % 32)

def memblkcolor (sites : Sites) (blk : Nat) : Nat := memgenhashtabadr (memblkadr sites blk + 32)

-- Item n of a block lies inside the block; the next one's header follows.
def Inside (sites : Sites) (blk n : Nat) : Prop :=
  memhashwords + memblkcolor sites blk + 2 * (n + 1) ≤ memhasharraywords

instance (sites : Sites) (blk n : Nat) : Decidable (Inside sites blk n) := Nat.decLe _ _

-- head and lk are the pointer and the lock bit of g_mem.hash[key].chain,
-- hashbuf and buflk those of g_mem.hashbuf.
structure Hash where
  head : Nat → Option Nat
  lk : Nat → Bool
  hashbuf : Option Nat
  buflk : Bool
  chain : Nat → Option Nat
  ntab : Nat → Nat
  adr : Nat → Nat → BitVec 64
  val : Nat → Nat → BitVec 64
  nblk : Nat

-- A lock bit that is set stays set when there is one thread.
def memlkbit (hash : Hash) (key : Nat) : Option Hash :=
  if hash.lk key then none else some { hash with lk := Function.update hash.lk key true }

def memrelbit (hash : Hash) (key : Nat) : Hash := { hash with lk := Function.update hash.lk key false }

def memsethead (hash : Hash) (key : Nat) (blk : Option Nat) : Hash :=
  { hash with head := Function.update hash.head key blk, lk := Function.update hash.lk key false }

def meminithashitem (hash : Hash) (blk : Nat) : Hash :=
  { hash with chain := Function.update hash.chain blk none, ntab := Function.update hash.ntab blk 0 }

def memlinkhashitems : Nat → Nat → Hash → Hash
  | 0, _, hash => hash
  | n + 1, next, hash =>
      let hash := meminithashitem hash next
      memlinkhashitems n (next + 1) { hash with chain := Function.update hash.chain next (some (next + 1)) }

def memmaphashitems (hash : Hash) : Hash × Nat :=
  let item := hash.nblk
  let first := item + 1
  let hash := memlinkhashitems 31 first (meminithashitem hash item)
  let cur := first + 30
  ({ hash with chain := Function.update hash.chain cur none, hashbuf := some first, nblk := item + 32, buflk := false }, item)

-- mapanon succeeds here; after a failure abort ends the process.
def memgethashitem (hash : Hash) : Option (Hash × Nat) :=
  if hash.buflk then none else
  match hash.hashbuf with
  | some item => some ({ hash with hashbuf := hash.chain item, buflk := false }, item)
  | none => some (memmaphashitems hash)

-- The labels of the lookup switch in their order, each with the item that is
-- compared there and whether a break follows when it is the one.
structure Label where
  n : Nat
  index : Nat
  breaks : Bool

def memhashlabels : List Label :=
  [⟨16, 15, false⟩, ⟨15, 14, false⟩, ⟨14, 13, false⟩, ⟨13, 12, true⟩, ⟨12, 11, false⟩, ⟨10, 9, false⟩, ⟨9, 8, false⟩,
    ⟨8, 7, true⟩, ⟨7, 6, false⟩, ⟨6, 5, false⟩, ⟨5, 4, false⟩, ⟨4, 3, true⟩, ⟨3, 2, false⟩, ⟨2, 1, false⟩, ⟨1, 0, false⟩]

-- Every comparison assigns slot again, with NULL when the item is another.
def memfallthrough (check : Nat → Bool) : Option Nat → List Label → Option Nat
  | slot, [] => slot
  | _, label :: rest =>
      let slot := if check label.index then some label.index else none
      if label.breaks && slot.isSome then slot else memfallthrough check slot rest

def memhashswitch (check : Nat → Bool) (n : Nat) : Option Nat :=
  memfallthrough check none (memhashlabels.dropWhile fun label => label.n != n)

-- The do loop over groups of 16 items; fuel counts items.
def memhashscan (check : Nat → Bool) : Nat → Nat → Nat → Option Nat
  | 0, _, _ => none
  | fuel + 1, lim, src =>
      let n := min lim 16
      match memhashswitch (fun index => check (src + index)) n with
      | some index => some (src + index)
      | none => if lim - n ≠ 0 then memhashscan check fuel (lim - n) (src + n) else none

def memfindslot (hash : Hash) (page : BitVec 64) (blk : Nat) : Option Nat :=
  memhashscan (fun index => hash.adr blk index == page) (hash.ntab blk + 1) (hash.ntab blk) 0

inductive Lookup where
  | found (blk slot : Nat) (prev : Option Nat)
  | missing (dest : Option (Nat × Nat))

def memdest (hash : Hash) (blk : Nat) (dest : Option (Nat × Nat)) : Option (Nat × Nat) :=
  if hash.ntab blk ≠ memhasharrayitems ∧ dest = none then some (blk, hash.ntab blk) else dest

-- The chain walk; one that outlasts the number of blocks goes round.
def memfindblk (hash : Hash) (page : BitVec 64) : Nat → Nat → Option Nat → Option (Nat × Nat) → Option Lookup
  | 0, _, _, _ => none
  | fuel + 1, blk, prev, dest =>
      match memfindslot hash page blk with
      | some slot => some (.found blk slot prev)
      | none =>
          match hash.chain blk with
          | none => some (.missing (memdest hash blk dest))
          | some next => memfindblk hash page fuel next (some blk) (memdest hash blk dest)

def memlookup (hash : Hash) (key : Nat) (page : BitVec 64) : Option Lookup :=
  match hash.head key with
  | none => some (.missing none)
  | some blk => memfindblk hash page hash.nblk blk none none

def memhashtofront (hash : Hash) (key blk : Nat) : Option Nat → Hash
  | none => memrelbit hash key
  | some prev =>
      let hash := { hash with chain := Function.update hash.chain prev (hash.chain blk) }
      memsethead { hash with chain := Function.update hash.chain blk (hash.head key) } key (some blk)

-- An item past the end of its block would overwrite the next block's header.
def memstoreitem (sites : Sites) (hash : Hash) (blk n : Nat) (page desc : BitVec 64) : Option Hash :=
  if Inside sites blk n then
    some { hash with
      adr := Function.update hash.adr blk (Function.update (hash.adr blk) n page)
      val := Function.update hash.val blk (Function.update (hash.val blk) n desc)
      ntab := Function.update hash.ntab blk (n + 1) }
  else none

-- The second search for a block with room, with its predecessor.
def memfindroom (hash : Hash) : Nat → Option Nat → Option Nat → Option (Option (Nat × Option Nat))
  | _, none, _ => some none
  | 0, some _, _ => none
  | fuel + 1, some blk, prev =>
      if hash.ntab blk < memhasharrayitems then some (some (blk, prev)) else memfindroom hash fuel (hash.chain blk) (some blk)

def memaddblk (sites : Sites) (hash : Hash) (key : Nat) (page desc : BitVec 64) : Option Hash := do
  let got ← memgethashitem hash
  let hash := { got.1 with chain := Function.update got.1.chain got.2 (got.1.head key) }
  let hash ← memstoreitem sites hash got.2 0 page desc
  some (memsethead hash key (some got.2))

def memaddroom (sites : Sites) (hash : Hash) (key : Nat) (page desc : BitVec 64) : Option (Nat × Option Nat) → Option Hash
  | some (blk, prev) => (memstoreitem sites hash blk (hash.ntab blk) page desc).map fun hash => memhashtofront hash key blk prev
  | none => memaddblk sites hash key page desc

def memadditem (sites : Sites) (hash : Hash) (key : Nat) (page desc : BitVec 64) : Option (Nat × Nat) → Option Hash
  | some (blk, n) => (memstoreitem sites hash blk n page desc).map fun hash => memrelbit hash key
  | none => (memfindroom hash hash.nblk (hash.head key) none).bind (memaddroom sites hash key page desc)

inductive Memop where
  | chk (ptr : BitVec 64)
  | add (ptr buf id : BitVec 64)

def Memop.page : Memop → BitVec 64
  | .chk ptr => memptrpage ptr
  | .add ptr _ _ => memptrpage ptr

def memfinish (sites : Sites) (hash : Hash) (key : Nat) : Memop → Lookup → Option (Hash × BitVec 64)
  | _, .found blk slot prev => some (memhashtofront hash key blk prev, hash.val blk slot)
  | .chk _, .missing _ => some (memrelbit hash key, memhashnotfound)
  | .add ptr buf id, .missing dest =>
      (memadditem sites hash key (memptrpage ptr) (buf ||| id) dest).map fun hash => (hash, buf ||| id)

def membufop (sites : Sites) (hash : Hash) (op : Memop) : Option (Hash × BitVec 64) := do
  let key := memhashkey op.page
  let hash ← memlkbit hash key
  let lookup ← memlookup hash key op.page
  memfinish sites hash key op lookup

def pagemap (map : BitVec 64 → Option (BitVec 64)) : Memop → (BitVec 64 → Option (BitVec 64)) × BitVec 64
  | .chk ptr => (map, (map (memptrpage ptr)).getD memhashnotfound)
  | .add ptr buf id =>
      match map (memptrpage ptr) with
      | some desc => (map, desc)
      | none => (Function.update map (memptrpage ptr) (some (buf ||| id)), buf ||| id)

def emptyhash : Hash :=
  ⟨fun _ => none, fun _ => false, none, false, fun _ => none, fun _ => 0, fun _ _ => 0, fun _ _ => 0, 0⟩

end OsZero.UserMem

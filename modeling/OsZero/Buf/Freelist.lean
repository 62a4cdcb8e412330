import Mathlib.Data.List.Perm.Basic
import OsZero.Lib.Chains
import OsZero.Lib.Links

set_option autoImplicit false

namespace OsZero.Buf.Freelist

open Links

def bufminsizelog2 : Nat := 12
def bufminsize : Nat := 4096

-- The bytes of a struct bufblk with its padding.
def bufblksize : Nat := 64

-- A block of bufhdrtab, or the bytes of memory from an address on that a pointer to
-- struct bufblk may name.
inductive Bufptr where
  | hdr (i : Nat)
  | mem (adr : Nat)
deriving DecidableEq

structure Vmpagestat where
  nbuf : Nat
  buf : Nat
  bufend : Nat
  nphys : Nat
  nvirt : Nat
  nwire : Nat

structure Bufblkqueue where
  lk : Bool
  head : Option Bufptr

structure Bufcache where
  links : Heap Bufptr
  data : Bufptr → Option Nat
  flg : Bufptr → BitVec 32
  buffreelist : Bufblkqueue
  buflruqueue : Bufblkqueue
  bufzone : Option Nat
  bufnbyte : Nat
  vmpagestat : Vmpagestat

-- What a block reads after kbzero that lies inside the bytes it has cleared.
def cleared (zone sz : Nat) : Bufptr → Bool
  | .hdr _ => false
  | .mem adr => zone ≤ adr ∧ adr + bufblksize ≤ zone + sz

def Bufcache.kbzero (cache : Bufcache) (zone sz : Nat) : Bufcache :=
  { cache with
    links := ⟨fun ptr => if cleared zone sz ptr then none else cache.links.next ptr, fun ptr => if cleared zone sz ptr then none else cache.links.prev ptr⟩
    data := fun ptr => if cleared zone sz ptr then none else cache.data ptr
    flg := fun ptr => if cleared zone sz ptr then 0 else cache.flg ptr }

def Bufcache.sethdr (cache : Bufcache) (blk u8ptr : Nat) : Bufcache :=
  { cache with
    flg := Function.update cache.flg (.hdr blk) (BitVec.ofNat 32 bufminsizelog2)
    data := Function.update cache.data (.hdr blk) (some u8ptr) }

-- while (--n): prev is set behind the step of blk, to the block that comes next.
def inithdrs : Nat → Nat → Nat → Nat → Bufcache → Bufcache
  | 0, _, _, _, cache => cache
  | n + 1, prev, blk, u8ptr, cache =>
      let cache := { cache with links := cache.links.setNext (.hdr prev) (some (.hdr blk)) }
      inithdrs n (blk + 1) (blk + 1) (u8ptr + bufminsize) (cache.sethdr blk u8ptr)

def setzone (cache : Bufcache) (zone sz : Nat) : Bufcache :=
  let n := sz >>> bufminsizelog2
  let stat := cache.vmpagestat
  let cache := { cache with vmpagestat :=
    ⟨n + n, zone, zone + sz, stat.nphys + n, stat.nvirt + n, stat.nwire + n⟩ }
  let cache := (cache.kbzero zone sz).sethdr 0 zone
  let cache := inithdrs (n - 1) 0 1 (zone + bufminsize) cache
  { cache with buffreelist := { cache.buffreelist with head := some (.mem zone) }, bufzone := some zone, bufnbyte := sz }

-- do { sz >>= 1 .. } while ((sz) >= BUFMINBYTES && !ptr)
def halve (memalloc : Nat → Option Nat) (least : Nat) : Nat → Nat → Option (Nat × Option Nat)
  | 0, _ => none
  | fuel + 1, sz =>
      let sz := sz >>> 1
      let ptr := memalloc sz
      if least ≤ sz ∧ ptr = none then halve memalloc least fuel sz else some (sz, ptr)

-- nbyte stands for BUFNBYTE.
def ioinitbuf (fuel nbyte : Nat) (memalloc : Nat → Option Nat) (cache : Bufcache) : Option (Bufcache × Bool) :=
  match memalloc nbyte with
  | some zone => some (setzone cache zone nbyte, true)
  | none => (halve memalloc (nbyte >>> 3) fuel nbyte).map fun got =>
      match got.2 with
      | some zone => (setzone cache zone got.1, true)
      | none => (cache, false)

-- deqpop takes what *deq points to for the head structure.
def deqpop (links : Heap Bufptr) (deq : Option Bufptr) : Option (Heap Bufptr × Option Bufptr) :=
  match deq with
  | none => some (links, none)
  | some head =>
      match links.next head with
      | none => some (links, none)
      | some item =>
          if links.next head ≠ links.prev head then do
            let last ← links.prev head
            let links := links.setNext last (links.next item)
            let after ← links.next item
            let links := links.setPrev after (links.prev head)
            some (links.setNext head (links.next item), some item)
          else some ((links.setPrev head none).setNext head none, some item)

-- Nobody else gives a taken lock back.
def popqueue (links : Heap Bufptr) (queue : Bufblkqueue) : Option (Heap Bufptr × Option Bufptr) :=
  if queue.lk then none else deqpop links queue.head

-- bufwrite does nothing.
def bufclr (cache : Bufcache) (blk : Bufptr) : Bufcache :=
  { cache with links := (cache.links.setPrev blk none).setNext blk none, flg := Function.update cache.flg blk 0 }

def bufevict : Nat → Bufcache → Option (Bufcache × Bufptr)
  | 0, _ => none
  | fuel + 1, cache =>
      (popqueue cache.links cache.buflruqueue).bind fun popped =>
        let cache := { cache with links := popped.1 }
        match popped.2 with
        | none => bufevict fuel cache
        | some blk => some (bufclr cache blk, blk)

def bufalloc (fuel : Nat) (cache : Bufcache) : Option (Bufcache × Bufptr) :=
  (popqueue cache.links cache.buffreelist).bind fun popped =>
    let cache := { cache with links := popped.1 }
    match popped.2 with
    | none => bufevict fuel cache
    | some blk => some (cache, blk)

def bufallocs (fuel : Nat) : Nat → Bufcache → Option (Bufcache × List Bufptr)
  | 0, cache => some (cache, [])
  | count + 1, cache =>
      (bufalloc fuel cache).bind fun got => (bufallocs fuel count got.1).map fun rest => (rest.1, got.2 :: rest.2)

-- The list from the head reaches each of the first n headers once and then ends.
def Lists (cache : Bufcache) (n : Nat) : Prop :=
  ∃ items, Chains.Seg cache.links.next cache.buffreelist.head items none ∧ items.Perm ((List.range n).map .hdr)

-- The headers' data regions are apart and cover the zone.
structure Regions (cache : Bufcache) (zone n : Nat) : Prop where
  data : ∀ i < n, cache.data (.hdr i) = some (zone + i * bufminsize)
  cover : ∀ adr, zone ≤ adr ∧ adr < zone + n * bufminsize ↔
    ∃ i < n, ∃ start, cache.data (.hdr i) = some start ∧ start ≤ adr ∧ adr < start + bufminsize
  apart : ∀ i < n, ∀ j < n, i ≠ j → ∀ first second, cache.data (.hdr i) = some first → cache.data (.hdr j) = some second →
    first + bufminsize ≤ second ∨ second + bufminsize ≤ first

-- As many calls of bufalloc as there are headers give headers, each once.
def Hands (cache : Bufcache) (n : Nat) : Prop :=
  ∀ count ≤ n, ∃ fuel after blks, bufallocs fuel count cache = some (after, blks) ∧ blks.Nodup ∧ ∀ blk ∈ blks, ∃ i < n, blk = .hdr i

structure Initialised (cache : Bufcache) (zone n : Nat) : Prop where
  lists : Lists cache n
  regions : Regions cache zone n
  hands : Hands cache n

theorem inithdrs_queues (n prev blk u8ptr : Nat) (cache : Bufcache) :
    (inithdrs n prev blk u8ptr cache).buffreelist = cache.buffreelist ∧ (inithdrs n prev blk u8ptr cache).buflruqueue = cache.buflruqueue := by
  induction n generalizing prev blk u8ptr cache with
  | zero => exact ⟨rfl, rfl⟩
  | succ n ih => exact ih _ _ _ _

theorem sethdr_data (cache : Bufcache) (blk u8ptr : Nat) : (cache.sethdr blk u8ptr).data (.hdr blk) = some u8ptr := by
  simp [Bufcache.sethdr]

theorem inithdrs_data (n prev blk u8ptr : Nat) (cache : Bufcache) (i : Nat) : (inithdrs n prev blk u8ptr cache).data (.hdr i) =
    if blk ≤ i ∧ i < blk + n then some (u8ptr + (i - blk) * bufminsize) else cache.data (.hdr i) := by
  induction n generalizing prev blk u8ptr cache with
  | zero => rw [inithdrs, if_neg (by omega)]
  | succ n ih =>
      rw [inithdrs, ih]
      by_cases here : i = blk
      · subst here
        rw [if_neg (by omega), if_pos (by omega), Nat.sub_self, Nat.zero_mul, Nat.add_zero]
        exact sethdr_data _ i u8ptr
      · by_cases later : blk + 1 ≤ i ∧ i < blk + 1 + n
        · obtain ⟨more, rfl⟩ := Nat.exists_eq_add_of_le later.1
          rw [if_pos later, if_pos (by omega), Nat.add_sub_cancel_left, Nat.add_assoc blk, Nat.add_sub_cancel_left, Nat.add_mul, Nat.one_mul, Nat.add_assoc]
        · rw [if_neg later, if_neg (by omega)]
          exact Function.update_of_ne (fun same => here (Bufptr.hdr.inj same)) _ _

-- Every header from the third on is linked to itself.
theorem inithdrs_selves (n blk u8ptr : Nat) (cache : Bufcache) (i : Nat) : (inithdrs n blk blk u8ptr cache).links.next (.hdr i) =
    if blk ≤ i ∧ i < blk + n then some (.hdr i) else cache.links.next (.hdr i) := by
  induction n generalizing blk u8ptr cache with
  | zero => rw [inithdrs, if_neg (by omega)]
  | succ n ih =>
      rw [inithdrs, ih]
      by_cases here : i = blk
      · subst here
        rw [if_neg (by omega), if_pos (by omega)]
        exact set_next_here _ _ _
      · have kept : (cache.links.setNext (.hdr blk) (some (.hdr blk))).next (.hdr i) = cache.links.next (.hdr i) :=
          set_next_elsewhere _ _ _ _ fun same => here (Bufptr.hdr.inj same)
        by_cases later : blk + 1 ≤ i ∧ i < blk + 1 + n
        · rw [if_pos later, if_pos (by omega)]
        · rw [if_neg later, if_neg (by omega)]
          exact kept

theorem inithdrs_memory (n prev blk u8ptr : Nat) (cache : Bufcache) (adr : Nat) :
    (inithdrs n prev blk u8ptr cache).links.next (.mem adr) = cache.links.next (.mem adr) := by
  induction n generalizing prev blk u8ptr cache with
  | zero => rfl
  | succ n ih =>
      rw [inithdrs, ih]
      exact set_next_elsewhere _ _ _ _ (by simp)

section Zone

variable (cache : Bufcache) (zone n : Nat)

theorem blocks_of_zone : (n * bufminsize) >>> bufminsizelog2 = n := by
  rw [Nat.shiftRight_eq_div_pow]
  exact Nat.mul_div_cancel n (show 0 < 2 ^ bufminsizelog2 by decide)

theorem setzone_links (positive : 0 < n) (i : Nat) : (setzone cache zone (n * bufminsize)).links.next (.hdr i) =
    if i = 0 ∧ 1 < n then some (.hdr 1) else if 2 ≤ i ∧ i < n then some (.hdr i) else cache.links.next (.hdr i) := by
  rw [setzone, blocks_of_zone]
  dsimp only
  obtain _ | _ | n := n
  · cases positive
  · rw [if_neg (by omega), if_neg (by omega)]
    rfl
  · change (inithdrs n 2 2 _ _).links.next (.hdr i) = _
    rw [inithdrs_selves]
    by_cases later : 2 ≤ i ∧ i < 2 + n
    · rw [if_pos later, if_neg (by omega), if_pos (by omega)]
    · rw [if_neg later]
      by_cases first : i = 0
      · subst first
        rw [if_pos (by omega)]
        exact set_next_here _ _ _
      · rw [if_neg (fun both => first both.1), if_neg (by omega)]
        exact set_next_elsewhere _ _ _ _ fun same => first (Bufptr.hdr.inj same)

theorem setzone_data (positive : 0 < n) (i : Nat) (inside : i < n) :
    (setzone cache zone (n * bufminsize)).data (.hdr i) = some (zone + i * bufminsize) := by
  rw [setzone, blocks_of_zone]
  dsimp only
  rw [inithdrs_data]
  by_cases first : i = 0
  · subst first
    rw [if_neg (by omega), Nat.zero_mul, Nat.add_zero]
    exact sethdr_data _ 0 zone
  · rw [if_pos (by omega), Nat.add_assoc, Nat.sub_mul, Nat.one_mul, Nat.add_sub_cancel' (Nat.le_mul_of_pos_left _ (Nat.pos_of_ne_zero first))]

theorem setzone_regions (positive : 0 < n) : Regions (setzone cache zone (n * bufminsize)) zone n := by
  have data := setzone_data cache zone n positive
  refine ⟨data, fun adr => ⟨fun inside => ?_, ?_⟩, ?_⟩
  · have low := Nat.div_add_mod (adr - zone) bufminsize
    have less := Nat.mod_lt (adr - zone) (show 0 < bufminsize by decide)
    have bound : (adr - zone) / bufminsize < n := Nat.div_lt_of_lt_mul (by rw [Nat.mul_comm]; omega)
    refine ⟨(adr - zone) / bufminsize, bound, _, data _ bound, ?_⟩
    rw [Nat.mul_comm] at low
    omega
  · rintro ⟨i, bound, start, here, low, high⟩
    rw [data i bound] at here
    cases here
    have whole := Nat.mul_le_mul_right bufminsize (Nat.succ_le_of_lt bound)
    rw [Nat.succ_mul] at whole
    omega
  · intro i first j second different one two here there
    rw [data i first] at here
    rw [data j second] at there
    cases here
    cases there
    rcases Nat.lt_or_gt_of_ne different with less | more
    · have whole := Nat.mul_le_mul_right bufminsize (Nat.succ_le_of_lt less)
      rw [Nat.succ_mul] at whole
      omega
    · have whole := Nat.mul_le_mul_right bufminsize (Nat.succ_le_of_lt more)
      rw [Nat.succ_mul] at whole
      omega

theorem setzone_head : (setzone cache zone (n * bufminsize)).buffreelist.head = some (.mem zone) := rfl

-- The head is memory of the zone, and no header.
theorem setzone_lists : ¬ Lists (setzone cache zone (n * bufminsize)) n := by
  rintro ⟨items, seg, perm⟩
  obtain ⟨rest, rfl⟩ := Chains.seg_head _ _ items seg
  have inside := perm.mem_iff.mp List.mem_cons_self
  obtain ⟨i, -, same⟩ := List.mem_map.mp inside
  cases same

-- The zeroed memory reads as an empty queue, and nothing is on the other.
theorem bufalloc_never (positive : 0 < n) (unlocked : cache.buflruqueue = ⟨false, none⟩) (fuel : Nat) :
    bufalloc fuel (setzone cache zone (n * bufminsize)) = none := by
  have evicts : ∀ (fuel : Nat) (cache : Bufcache), cache.buflruqueue = ⟨false, none⟩ → bufevict fuel cache = none := by
    intro fuel
    induction fuel with
    | zero => exact fun _ _ => rfl
    | succ fuel ih =>
        intro cache empty
        rw [bufevict, empty]
        exact ih _ rfl
  have lru : (setzone cache zone (n * bufminsize)).buflruqueue = ⟨false, none⟩ := (inithdrs_queues _ _ _ _ _).2.trans unlocked
  have empty : (setzone cache zone (n * bufminsize)).links.next (.mem zone) = none := by
    refine (inithdrs_memory _ _ _ _ _ zone).trans (if_pos ?_)
    rw [cleared, decide_eq_true_iff]
    have whole := Nat.mul_le_mul_right bufminsize (Nat.succ_le_of_lt positive)
    unfold bufminsize bufblksize at *
    omega
  rw [bufalloc, popqueue]
  cases (setzone cache zone (n * bufminsize)).buffreelist.lk with
  | true => rfl
  | false =>
      rw [setzone_head, if_neg Bool.false_ne_true, deqpop, empty]
      exact evicts fuel _ lru

end Zone

theorem ioinitbuf_zone (fuel nbyte : Nat) (memalloc : Nat → Option Nat) (cache after : Bufcache)
    (done : ioinitbuf fuel nbyte memalloc cache = some (after, true)) : ∃ zone sz, after = setzone cache zone sz := by
  unfold ioinitbuf at done
  cases first : memalloc nbyte with
  | some zone =>
      rw [first] at done
      cases done
      exact ⟨zone, nbyte, rfl⟩
  | none =>
      rw [first] at done
      obtain ⟨got, -, result⟩ := Option.map_eq_some_iff.mp done
      cases second : got.2 with
      | some zone =>
          rw [second] at result
          cases result
          exact ⟨zone, got.1, rfl⟩
      | none =>
          rw [second] at result
          cases result

theorem ioinitbuf_never (fuel nbyte : Nat) (memalloc : Nat → Option Nat) (cache after : Bufcache) (zone n : Nat)
    (done : ioinitbuf fuel nbyte memalloc cache = some (after, true)) (zoned : after.bufzone = some zone) (size : after.bufnbyte = n * bufminsize) :
    ¬ Initialised after zone n := by
  intro initialised
  obtain ⟨start, sz, rfl⟩ := ioinitbuf_zone fuel nbyte memalloc cache after done
  obtain rfl : start = zone := Option.some.inj zoned
  obtain rfl : sz = n * bufminsize := size
  exact setzone_lists cache start n initialised.lists

def blank : Bufcache :=
  ⟨⟨fun _ => none, fun _ => none⟩, fun _ => none, fun _ => 0, ⟨false, none⟩, ⟨false, none⟩, none, 0, ⟨0, 0, 0, 0, 0, 0⟩⟩

theorem ioinitbuf_never_pages : ∃ after, ioinitbuf 0 8192 (fun _ => some 65536) blank = some (after, true) ∧ ¬ Initialised after 65536 2 :=
  ⟨_, rfl, ioinitbuf_never 0 8192 (fun _ => some 65536) blank _ 65536 2 rfl rfl rfl⟩

-- Even one header is not on the list, and bufalloc never returns.
theorem ioinitbuf_lists_zone : ∃ after, ioinitbuf 0 4096 (fun _ => some 65536) blank = some (after, true) ∧
    after.buffreelist.head = some (.mem 65536) ∧ ¬ Initialised after 65536 1 ∧ ∀ fuel, bufalloc fuel after = none :=
  ⟨_, rfl, rfl, fun initialised => setzone_lists blank 65536 1 initialised.lists, bufalloc_never blank 65536 1 (by decide) rfl⟩

end OsZero.Buf.Freelist

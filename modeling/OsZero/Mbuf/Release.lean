import OsZero.Mbuf.Pieces
import OsZero.Lib.Runs
import Mathlib.Data.List.GetD
import Mathlib.Data.List.Range

set_option autoImplicit false

namespace OsZero.Mbuf

open Runs

def mbufextblk : Int := 1

-- The mbufs that are handed out and not freed since.
structure Heap where
  mem : Mem
  live : Nat → Bool

-- A call of ext->rel, or of kfree for a block.
inductive Freed where
  | rel (fn : Nat) (buf : Adr) (args : Nat)
  | blk (buf : Adr)

def Freed.buf : Freed → Adr
  | .rel _ buf _ => buf
  | .blk buf => buf

-- What the calls do to mbufs, in its order: one is made as a copy of another, or one
-- is freed, with the call that freed its storage.
inductive Event where
  | copied (src mb : Nat)
  | dropped (mb : Nat) (freed : Option Freed)

-- The reference count is left as it is.
def memsetext (mem : Mem) (buf : Nat) (adr : Adr) (size : Int) (rel args : Nat) (type : Int) (flg : BitVec 64) : Mem :=
  mem.set buf fun mb => { mb with
    data := adr
    flg := mb.flg ||| (mbufextbit ||| flg)
    ext := { mb.ext with buf := adr, size := size, rel := rel, args := args, type := type } }

def memrelext (mem : Mem) (buf : Nat) : Mem × Option Freed :=
  let mem := mem.set buf fun mb => { mb with ext := { mb.ext with nref := mb.ext.nref - 1 } }
  let ext := (mem.bufs buf).ext
  let swapped := ext.nref = 0
  let mem := if swapped then mem.set buf fun mb => { mb with ext := { mb.ext with nref := 1 } } else mem
  let freed := if ext.type ≠ mbufextblk then Freed.rel ext.rel ext.buf ext.args else .blk ext.buf
  (mem.set buf fun mb => { mb with flg := mb.flg &&& ~~~mbufextbit }, if swapped then some freed else none)

-- NULL and a freed mbuf are not there to be read.
def memrelbuf (heap : Heap) (buf : Option Nat) : Option (Heap × List Event × Option Nat) :=
  buf.bind fun mb =>
    if heap.live mb then
      let next := (heap.mem.bufs mb).next
      let released := if isext (heap.mem.bufs mb) then memrelext heap.mem mb else (heap.mem, none)
      some (⟨released.1, Function.update heap.live mb false⟩, [.dropped mb released.2], next)
    else none

def memrelaux (heap : Heap) (mb : Nat) : Option (Heap × List Event) :=
  if ispkthdr (heap.mem.bufs mb) then
    (memrelbuf heap (heap.mem.bufs mb).pkt.aux).map fun released =>
      ({ released.1 with mem := released.1.mem.set mb fun buf => { buf with pkt := { buf.pkt with aux := none } } }, released.2.1)
  else some (heap, [])

def memrelchain : Nat → Heap → Option Nat → Option (Heap × List Event)
  | _, heap, none => some (heap, [])
  | 0, _, some _ => none
  | fuel + 1, heap, some mb =>
      if heap.live mb then do
        let aux ← memrelaux heap mb
        let released ← memrelbuf aux.1 (some mb)
        let rest ← memrelchain fuel released.1 released.2.2
        some (rest.1, aux.2 ++ released.2.1 ++ rest.2)
      else none

-- *hi = mb with mb NULL, and memrelchain(top).
def memcpyfail (fuel : Nat) (heap : Heap) (hi top : Option Nat) : Option (Heap × List Event) :=
  match hi with
  | none => memrelchain fuel heap none
  | some last => memrelchain fuel { heap with mem := heap.mem.set last fun buf => { buf with next := none } } top

-- As copyLoop, where memgetbuf finds memory for avail mbufs and no more.
def copyLoopFor : Nat → Nat → Heap → Bool → Nat → Option Nat → Nat → Int → Option Nat → Option Nat → Option (Heap × List Event)
  | 0, _, _, _, _, _, _, _, _, _ => none
  | fuel + 1, avail, heap, cpyhdr, ofs0, buf, ofs, nb, hi, top =>
    if nb > 0 then
      buf.elim (some (heap, [])) fun src =>
        if ¬ heap.live src then none
        else
          match avail with
          | 0 => memcpyfail heap.mem.fresh heap hi top
          | avail + 1 => do
              let next ← copyStep heap.mem cpyhdr ofs0 src ofs nb hi top
              let left := if nb ≠ mbufcopyall then nb - (next.1.bufs heap.mem.fresh).len else nb
              let rest ← copyLoopFor fuel avail ⟨next.1, Function.update heap.live heap.mem.fresh true⟩ false ofs0
                (next.1.bufs src).next 0 left (some heap.mem.fresh) next.2
              some (rest.1, .copied src heap.mem.fresh :: rest.2)
    else some (heap, [])

def memcpychainFor (fuel avail : Nat) (heap : Heap) (buf ofs0 : Nat) (nb : Int) : Option (Heap × List Event) :=
  let cpyhdr := decide (ofs0 = 0) && ispkthdr (heap.mem.bufs buf)
  (skipLoop fuel heap.mem (some buf) ofs0).bind fun place => copyLoopFor fuel avail heap cpyhdr ofs0 place.1 place.2 nb none none

-- As pktLoop; the mbuf that is not there has not been linked behind mb1.
def pktLoopFor : Nat → Nat → Heap → Option Nat → Nat → Nat → Option (Heap × List Event)
  | 0, _, _, _, _, _ => none
  | fuel + 1, avail, heap, buf, mb1, top =>
    buf.elim (some (heap, [])) fun src =>
      if ¬ heap.live src then none
      else
        match avail with
        | 0 => memrelchain heap.mem.fresh heap (some top)
        | avail + 1 => do
            let got := memgetbuf heap.mem (heap.mem.bufs src).type
            let mb2 := got.2
            let mem := got.1.set mb1 fun last => { last with next := some mb2 }
            let mem := mem.set mb2 fun copy => { copy with len := (heap.mem.bufs src).len }
            let mem ← copybuf mem src mb2 0
            let rest ← pktLoopFor fuel avail ⟨mem, Function.update heap.live mb2 true⟩ (mem.bufs src).next mb2 top
            some (rest.1, .copied src mb2 :: rest.2)

def memcpypktFor (fuel avail : Nat) (heap : Heap) (buf : Nat) : Option (Heap × List Event) :=
  if ¬ heap.live buf then none
  else
    match avail with
    | 0 => memrelchain fuel heap none
    | avail + 1 => do
        let got := memgetbuf heap.mem (heap.mem.bufs buf).type
        let mb1 := got.2
        let mem := memcpypkthdr got.1 buf mb1
        let mem := mem.set mb1 fun copy => { copy with len := (heap.mem.bufs buf).len }
        let lead := (heap.mem.bufs buf).data.ofs - sizeofmempkt
        let mem := if isext (heap.mem.bufs buf) then mem else mem.set mb1 fun copy => { copy with data := (mbpktbuf mb1).add lead }
        let mem ← copybuf mem buf mb1 0
        let rest ← pktLoopFor fuel avail ⟨mem, Function.update heap.live mb1 true⟩ (mem.bufs buf).next mb1 mb1
        some (rest.1, .copied buf mb1 :: rest.2)

inductive Op where
  | cpychain (buf ofs0 : Nat) (nb : Int) (fuel avail : Nat)
  | cpypkt (buf fuel avail : Nat)
  | relbuf (buf : Nat)
  | relchain (buf : Nat)

-- The walks along a chain end within as many mbufs as there are. A copy may be given
-- more rounds than that.
def storeStep (heap : Heap) : Op → Option (Heap × List Event)
  | .cpychain buf ofs0 nb fuel avail => memcpychainFor fuel avail heap buf ofs0 nb
  | .cpypkt buf fuel avail => memcpypktFor fuel avail heap buf
  | .relbuf buf => (memrelbuf heap (some buf)).map fun released => (released.1, released.2.1)
  | .relchain buf => memrelchain heap.mem.fresh heap (some buf)

-- The auxiliary mbuf that is released with an mbuf.
def hdraux (buf : Membuf) : List Nat := if ispkthdr buf = true then buf.pkt.aux.toList else []

def auxof (heap : Heap) (mb : Nat) : List Nat := hdraux (heap.mem.bufs mb)

-- The mbufs that a copy makes are the next ones by number, each linked to the one after
-- it. A link to one of them leads on along the copy.
def linkOf (mem : Mem) (src : Nat) : Option Nat := if src < mem.fresh then (mem.bufs src).next else some (src + 1)

def lenOf (mem : Mem) (lens : List Nat) (src : Nat) : Nat := if src < mem.fresh then (mem.bufs src).len else lens.getD (src - mem.fresh) 0

-- The mbufs that memcpychain copies from buf on, and whether there is no memory for
-- the copy of another one. lens are the lengths of the copies made before.
def chainReads (mem : Mem) : Nat → Option Nat → Nat → Int → List Nat → List Nat × Bool
  | _, none, _, _, _ => ([], false)
  | 0, some _, _, nb, _ => ([], decide (nb > 0))
  | avail + 1, some src, ofs, nb, lens =>
      if nb > 0 then
        let len := min nb.toNat (lenOf mem lens src - ofs)
        let rest := chainReads mem avail (linkOf mem src) 0 (nb - len) (lens ++ [len])
        (src :: rest.1, rest.2)
      else ([], false)

def pktReads (mem : Mem) : Nat → Option Nat → List Nat × Bool
  | _, none => ([], false)
  | 0, some _ => ([], true)
  | avail + 1, some src =>
      let rest := pktReads mem avail (linkOf mem src)
      (src :: rest.1, rest.2)

def reads (heap : Heap) : Op → List Nat × Bool
  | .cpychain buf ofs0 nb fuel avail =>
      (skipLoop fuel heap.mem (some buf) ofs0).elim ([], false) fun place => chainReads heap.mem avail place.1 place.2 nb []
  | .cpypkt buf _ avail => pktReads heap.mem avail (some buf)
  | .relbuf _ => ([], false)
  | .relchain _ => ([], false)

-- The auxiliary mbuf goes over to the copy of the header, where the flags of the packet
-- make that a header.
def copyaux (buf : Membuf) : List Nat :=
  if (buf.pkt.flg &&& mbufpktcopybits).zeroExtend 64 &&& mbufpkthdrbit ≠ 0 then buf.pkt.aux.toList else []

def headaux (heap : Heap) : Op → List Nat
  | .cpychain buf ofs0 _ _ _ => if ofs0 = 0 ∧ ispkthdr (heap.mem.bufs buf) = true then copyaux (heap.mem.bufs buf) else []
  | .cpypkt buf _ _ => copyaux (heap.mem.bufs buf)
  | .relbuf _ => []
  | .relchain _ => []

def copies (fresh : Nat) (srcs : List Nat) : List Event := List.zipWith Event.copied srcs (List.range' fresh srcs.length)

theorem copies_cons (fresh src : Nat) (srcs : List Nat) : copies fresh (src :: srcs) = .copied src fresh :: copies (fresh + 1) srcs := by
  simp [copies, List.range'_succ]

theorem set_kept {β : Type} (f : Membuf → β) (mem : Mem) (mb id : Nat) (change : Membuf → Membuf) (kept : ∀ buf, f (change buf) = f buf) :
    f ((mem.set mb change).bufs id) = f (mem.bufs id) := by
  unfold Mem.set
  by_cases same : id = mb
  · subst same
    simp only [Function.update_self, kept]
  · simp only [Function.update_of_ne same]

-- What the walks along a chain read of an mbuf.
def facet (buf : Membuf) : Option Nat × Nat × List Nat := (buf.next, buf.len, hdraux buf)

theorem ispkthdr_or (flg : BitVec 64) : (flg ||| mbufextbit) &&& mbufpkthdrbit = flg &&& mbufpkthdrbit := by
  have apart : mbufextbit &&& mbufpkthdrbit = 0 := by decide
  rw [BitVec.and_comm, BitVec.and_or_distrib_left, BitVec.and_comm _ mbufextbit, apart]
  exact BitVec.or_zero.trans (BitVec.and_comm _ _)

theorem copybuf_facet (mem next : Mem) (src mb ofs : Nat) (copied : copybuf mem src mb ofs = some next) :
    next.fresh = mem.fresh ∧ ∀ id, facet (next.bufs id) = facet (mem.bufs id) := by
  unfold copybuf at copied
  split_ifs at copied with ext
  · obtain rfl := Option.some.inj copied
    refine ⟨rfl, fun id => ?_⟩
    unfold sharepkt
    dsimp only
    refine (set_kept facet _ src id _ ?_).trans (set_kept facet mem mb id _ ?_)
    · exact fun buf => rfl
    · intro buf
      simp [facet, hdraux, ispkthdr, ispkthdr_or]
  · obtain ⟨bytes, -, rfl⟩ := Option.map_eq_some_iff.mp copied
    exact ⟨rfl, fun id => rfl⟩

-- A new mbuf stands behind last; the header of the one that was copied may lose its auxiliary mbuf.
structure Joined (mem next : Mem) (last : Option Nat) (len : Nat) (aux : List Nat) (header : Bool) : Prop where
  fresh : next.fresh = mem.fresh + 1
  new : facet (next.bufs mem.fresh) = (none, len, aux)
  links : ∀ id, id < mem.fresh → (next.bufs id).next = if last = some id then some mem.fresh else (mem.bufs id).next
  lens : ∀ id, id < mem.fresh → (next.bufs id).len = (mem.bufs id).len
  auxes : header = false → ∀ id, id < mem.fresh → hdraux (next.bufs id) = hdraux (mem.bufs id)

theorem joined_facet (mem next last : Mem) (link : Option Nat) (len : Nat) (aux : List Nat) (header : Bool) (joined : Joined mem next link len aux header)
    (fresh : last.fresh = next.fresh) (same : ∀ id, facet (last.bufs id) = facet (next.bufs id)) : Joined mem last link len aux header := by
  have parts : ∀ id, (last.bufs id).next = (next.bufs id).next ∧ (last.bufs id).len = (next.bufs id).len ∧
      hdraux (last.bufs id) = hdraux (next.bufs id) := fun id => by
    have whole := same id
    simpa only [facet, Prod.mk.injEq] using whole
  refine ⟨fresh.trans joined.fresh, (same _).trans joined.new, fun id old => ?_, fun id old => ?_, fun plain id old => ?_⟩
  · exact (parts id).1.trans (joined.links id old)
  · exact (parts id).2.1.trans (joined.lens id old)
  · exact (parts id).2.2.trans (joined.auxes plain id old)

theorem joined_linked (mem : Mem) (hi top : Option Nat) (type : Int) (len : Nat) (below : ∀ last, hi = some last → last < mem.fresh) :
    Joined mem (linkedMem mem hi top type len) hi len [] false := by
  have kept : ∀ id, id < mem.fresh → ((linkedMem mem hi top type len).bufs id).len = (mem.bufs id).len ∧
      hdraux ((linkedMem mem hi top type len).bufs id) = hdraux (mem.bufs id) := fun id old => by
    rw [linked_old mem hi top type len id old]
    split_ifs <;> exact ⟨rfl, rfl⟩
  refine ⟨linked_fresh mem hi top type len, ?_, fun id old => ?_, fun id old => (kept id old).1, fun _ id old => (kept id old).2⟩
  · rw [linked_new mem hi top type len below]
    simp [facet, hdraux, ispkthdr]
  · rw [linked_old mem hi top type len id old]
    split_ifs <;> rfl

theorem copyStep_joined (mem : Mem) (ofs0 src ofs : Nat) (nb : Int) (hi top : Option Nat) (next : Mem × Option Nat)
    (below : ∀ last, hi = some last → last < mem.fresh) (copied : copyStep mem false ofs0 src ofs nb hi top = some next) :
    Joined mem next.1 hi (min nb.toNat ((mem.bufs src).len - ofs)) [] false ∧ next.2 = hi.elim (some mem.fresh) fun _ => top := by
  rw [copyStep_unfold] at copied
  obtain ⟨last, shared, rfl⟩ := Option.map_eq_some_iff.mp copied
  obtain ⟨fresh, same⟩ := copybuf_facet _ last src mem.fresh ofs shared
  exact ⟨joined_facet mem _ last hi _ [] false (joined_linked mem hi top _ _ below) fresh same, rfl⟩

-- The header is copied with the first mbuf.
theorem joined_header (mem : Mem) (src : Nat) (len : Nat) (type : Int) (change : Membuf → Membuf) (old : src < mem.fresh)
    (kept : ∀ buf, (change buf).next = buf.next ∧ (change buf).len = len ∧ hdraux (change buf) = hdraux buf) :
    Joined mem ((memcpypkthdr (memgetbuf mem type).1 src mem.fresh).set mem.fresh change) none len (copyaux (mem.bufs src)) true := by
  have apart : mem.fresh ≠ src := Nat.ne_of_gt old
  have others : ∀ id, id < mem.fresh → (((memcpypkthdr (memgetbuf mem type).1 src mem.fresh).set mem.fresh change).bufs id).next = (mem.bufs id).next ∧
      (((memcpypkthdr (memgetbuf mem type).1 src mem.fresh).set mem.fresh change).bufs id).len = (mem.bufs id).len := fun id early => by
    have other : id ≠ mem.fresh := Nat.ne_of_lt early
    by_cases same : id = src
    · subst same
      simp [memcpypkthdr, memgetbuf, Mem.set, Function.update_of_ne other]
    · simp [memcpypkthdr, memgetbuf, Mem.set, Function.update_of_ne other, Function.update_of_ne same]
  refine ⟨rfl, ?_, fun id early => (others id early).1.trans (if_neg (by simp)).symm, fun id early => (others id early).2, fun plain => absurd plain (by simp)⟩
  simp only [Mem.set, Function.update_self, facet, (kept _).1, (kept _).2.1, (kept _).2.2]
  simp [memcpypkthdr, memgetbuf, Mem.set, Function.update_of_ne apart, Function.update_of_ne apart.symm, hdraux, copyaux, ispkthdr]

theorem set_set (mem : Mem) (mb : Nat) (first second : Membuf → Membuf) :
    (mem.set mb first).set mb second = mem.set mb fun buf => second (first buf) := by
  simp [Mem.set]

theorem copyStep_header (mem : Mem) (ofs0 src ofs : Nat) (nb : Int) (top : Option Nat) (next : Mem × Option Nat) (old : src < mem.fresh)
    (copied : copyStep mem true ofs0 src ofs nb none top = some next) :
    Joined mem next.1 none (min nb.toNat ((mem.bufs src).len - ofs)) (copyaux (mem.bufs src)) true ∧ next.2 = some mem.fresh := by
  unfold copyStep copyhdr setHi at copied
  dsimp only at copied
  rw [if_pos rfl, Option.elim_none, set_set] at copied
  obtain ⟨last, shared, rfl⟩ := Option.map_eq_some_iff.mp copied
  obtain ⟨fresh, same⟩ := copybuf_facet _ last src mem.fresh ofs shared
  have joined := joined_header mem src (min nb.toNat ((mem.bufs src).len - ofs)) (mem.bufs src).type
    (fun copy => { copy with
      len := min nb.toNat ((mem.bufs src).len - ofs),
      pkt := { copy.pkt with len := if nb = mbufcopyall then copy.pkt.len - ofs0 else nb } }) old fun buf => ⟨rfl, rfl, rfl⟩
  exact ⟨joined_facet mem _ last none _ _ true joined fresh same, rfl⟩

-- What a copy has made so far: a chain, and aux belongs to its first mbuf.
structure Made (first : Mem) (aux : List Nat) (heap : Heap) : Prop where
  below : ∀ id, heap.live id = true → id < heap.mem.fresh
  old : first.fresh ≤ heap.mem.fresh
  links : ∀ id, id < first.fresh ∨ id + 1 < heap.mem.fresh → (heap.mem.bufs id).next = linkOf first id
  last : first.fresh < heap.mem.fresh → (heap.mem.bufs (heap.mem.fresh - 1)).next = none
  head : first.fresh < heap.mem.fresh → auxof heap first.fresh = aux
  auxes : ∀ id, first.fresh < id → id < heap.mem.fresh → auxof heap id = []

def madeHi (first : Mem) (heap : Heap) : Option Nat := if first.fresh < heap.mem.fresh then some (heap.mem.fresh - 1) else none

def madeTop (first : Mem) (heap : Heap) : Option Nat := if first.fresh < heap.mem.fresh then some first.fresh else none

theorem made_nil (heap : Heap) (aux : List Nat) (below : ∀ id, heap.live id = true → id < heap.mem.fresh) : Made heap.mem aux heap := by
  have none_yet := Nat.lt_irrefl heap.mem.fresh
  refine ⟨below, Nat.le_refl _, fun id inside => ?_, fun more => absurd more none_yet, fun more => absurd more none_yet, fun id late early => ?_⟩
  · unfold linkOf
    rw [if_pos (by omega)]
  · omega

theorem made_joined (first : Mem) (aux given : List Nat) (heap : Heap) (next : Mem) (len : Nat) (header : Bool) (made : Made first aux heap)
    (joined : Joined heap.mem next (madeHi first heap) len given header)
    (begun : first.fresh < heap.mem.fresh → header = false ∧ given = []) (start : heap.mem.fresh = first.fresh → given = aux) :
    Made first aux ⟨next, Function.update heap.live heap.mem.fresh true⟩ := by
  obtain ⟨bare, -, kept⟩ : (next.bufs heap.mem.fresh).next = none ∧ (next.bufs heap.mem.fresh).len = len ∧ hdraux (next.bufs heap.mem.fresh) = given := by
    simpa only [facet, Prod.mk.injEq] using joined.new
  have size := joined.fresh
  have old := made.old
  refine ⟨fun id live => ?_, ?_, fun id inside => ?_, fun _ => ?_, fun _ => ?_, fun id late early => ?_⟩
  · dsimp only at live ⊢
    rw [Function.update_apply] at live
    split_ifs at live with same
    · omega
    · have early := made.below id live
      omega
  · dsimp only
    omega
  · dsimp only at inside ⊢
    have early : id < heap.mem.fresh := by omega
    rw [joined.links id early]
    unfold madeHi
    by_cases tail : first.fresh < heap.mem.fresh ∧ id + 1 = heap.mem.fresh
    · have place : heap.mem.fresh - 1 = id := by omega
      have new : ¬id < first.fresh := by omega
      rw [if_pos tail.1, place, if_pos rfl]
      unfold linkOf
      rw [if_neg new, tail.2]
    · have other : (if first.fresh < heap.mem.fresh then some (heap.mem.fresh - 1) else none) ≠ some id := by
        split_ifs with more
        · simp only [ne_eq, Option.some.injEq]
          omega
        · simp
      rw [if_neg other]
      exact made.links id (by omega)
  · dsimp only
    rw [size, Nat.add_sub_cancel]
    exact bare
  · unfold auxof
    rcases Nat.eq_or_lt_of_le old with same | more
    · dsimp only
      rw [same, kept]
      exact start same.symm
    · exact (joined.auxes (begun more).1 first.fresh more).trans (made.head more)
  · unfold auxof
    dsimp only at early ⊢
    rcases Nat.eq_or_lt_of_le (Nat.le_of_lt_succ (size ▸ early)) with same | before
    · rw [same, kept]
      exact (begun (same ▸ late)).2
    · have more : first.fresh < heap.mem.fresh := by omega
      exact (joined.auxes (begun more).1 id before).trans (made.auxes id late before)

theorem madeHi_below (first : Mem) (heap : Heap) (last : Nat) (tail : madeHi first heap = some last) : last < heap.mem.fresh := by
  unfold madeHi at tail
  split_ifs at tail with more
  obtain rfl := Option.some.inj tail
  omega

theorem made_ends (first next : Mem) (heap : Heap) (live : Nat → Bool) (old : first.fresh ≤ heap.mem.fresh) (fresh : next.fresh = heap.mem.fresh + 1) :
    madeHi first ⟨next, live⟩ = some heap.mem.fresh ∧ madeTop first ⟨next, live⟩ = some first.fresh := by
  have more : first.fresh < next.fresh := by omega
  refine ⟨(if_pos more).trans ?_, if_pos more⟩
  rw [fresh, Nat.add_sub_cancel]

theorem copyStep_made (first : Mem) (aux : List Nat) (heap : Heap) (cpyhdr : Bool) (ofs0 src ofs : Nat) (nb : Int) (next : Mem × Option Nat)
    (made : Made first aux heap) (live : heap.live src = true) (begun : first.fresh < heap.mem.fresh → cpyhdr = false)
    (start : heap.mem.fresh = first.fresh → aux = if cpyhdr = true then copyaux (heap.mem.bufs src) else [])
    (copied : copyStep heap.mem cpyhdr ofs0 src ofs nb (madeHi first heap) (madeTop first heap) = some next) :
    Made first aux ⟨next.1, Function.update heap.live heap.mem.fresh true⟩ ∧ next.2 = some first.fresh ∧
      ∃ given, Joined heap.mem next.1 (madeHi first heap) (min nb.toNat ((heap.mem.bufs src).len - ofs)) given cpyhdr := by
  cases cpyhdr with
  | true =>
      have none_yet : ¬first.fresh < heap.mem.fresh := fun more => absurd (begun more) (by simp)
      have same : heap.mem.fresh = first.fresh := Nat.le_antisymm (Nat.le_of_not_lt none_yet) made.old
      have tail : madeHi first heap = none := if_neg none_yet
      rw [tail] at copied ⊢
      obtain ⟨joined, top⟩ := copyStep_header heap.mem ofs0 src ofs nb _ next (made.below src live) copied
      rw [← tail] at joined
      have later := made_joined first aux _ heap next.1 _ true made joined (fun more => absurd more none_yet) fun same =>
        ((start same).trans (if_pos rfl)).symm
      exact ⟨later, top.trans (congrArg some same), _, tail ▸ joined⟩
  | false =>
      obtain ⟨joined, top⟩ := copyStep_joined heap.mem ofs0 src ofs nb _ _ next (madeHi_below first heap) copied
      refine ⟨made_joined first aux [] heap next.1 _ false made joined (fun _ => ⟨rfl, rfl⟩) fun same => (start same).symm, ?_, _, joined⟩
      rw [top]
      unfold madeHi madeTop
      split_ifs with more
      · rfl
      · exact congrArg some (Nat.le_antisymm (Nat.le_of_not_lt more) made.old)

def Sized (first : Mem) (lens : List Nat) (mem : Mem) : Prop :=
  mem.fresh = first.fresh + lens.length ∧ ∀ id, id < mem.fresh → (mem.bufs id).len = lenOf first lens id

theorem sized_joined (first mem next : Mem) (lens aux : List Nat) (last : Option Nat) (len : Nat) (header : Bool) (sized : Sized first lens mem)
    (joined : Joined mem next last len aux header) : Sized first (lens ++ [len]) next := by
  obtain ⟨-, new, -⟩ : (next.bufs mem.fresh).next = none ∧ (next.bufs mem.fresh).len = len ∧ hdraux (next.bufs mem.fresh) = aux := by
    simpa only [facet, Prod.mk.injEq] using joined.new
  have size := joined.fresh
  have old := sized.1
  refine ⟨by simp [size, old, Nat.add_assoc], fun id early => ?_⟩
  rcases Nat.eq_or_lt_of_le (Nat.le_of_lt_succ (size ▸ early)) with same | before
  · have outside : ¬id < first.fresh := by omega
    have place : id - first.fresh = lens.length := by omega
    unfold lenOf
    rw [if_neg outside, place, List.getD_append_right lens [len] 0 _ (Nat.le_refl _), Nat.sub_self, same, new]
    rfl
  · rw [joined.lens id before, sized.2 id before]
    unfold lenOf
    split_ifs with inside
    · rfl
    · exact (List.getD_append lens [len] 0 _ (by omega)).symm

-- The events of a copy: what it copies, and what memrelchain drops of it if it is given back.
def Rounds (first : Mem) (aux : List Nat) (fresh : Nat) (read : List Nat × Bool) (events : List Event) : Prop :=
  ∃ back, events = copies fresh read.1 ++ back ∧ (read.2 = false → back = []) ∧
    (read.2 = true → ∃ last fuel result, Made first aux last ∧ last.mem.fresh = fresh + read.1.length ∧
      memrelchain fuel last (madeTop first last) = some result ∧ result.2 = back)

theorem rounds_end (first : Mem) (aux : List Nat) (fresh : Nat) : Rounds first aux fresh ([], false) [] :=
  ⟨[], rfl, fun _ => rfl, fun spent => absurd spent (by simp)⟩

theorem rounds_spent (first : Mem) (aux : List Nat) (fuel : Nat) (heap : Heap) (done : Heap × List Event) (made : Made first aux heap)
    (released : memrelchain fuel heap (madeTop first heap) = some done) : Rounds first aux heap.mem.fresh ([], true) done.2 :=
  ⟨done.2, rfl, fun plain => absurd plain (by simp), fun _ => ⟨heap, fuel, done, made, rfl, released, rfl⟩⟩

theorem rounds_cons (first : Mem) (aux : List Nat) (fresh src : Nat) (read : List Nat × Bool) (events : List Event)
    (rounds : Rounds first aux (fresh + 1) read events) : Rounds first aux fresh (src :: read.1, read.2) (.copied src fresh :: events) := by
  obtain ⟨back, rfl, ended, spent⟩ := rounds
  refine ⟨back, by rw [copies_cons, List.cons_append], ended, fun more => ?_⟩
  obtain ⟨last, fuel, result, made, size, released, same⟩ := spent more
  refine ⟨last, fuel, result, made, size.trans ?_, released, same⟩
  rw [List.length_cons]
  omega

theorem set_cut (mem : Mem) (last : Nat) (bare : (mem.bufs last).next = none) : mem.set last (fun buf => { buf with next := none }) = mem := by
  have same : { mem.bufs last with next := none } = mem.bufs last := by
    rw [← bare]
  unfold Mem.set
  dsimp only at same ⊢
  rw [same, Function.update_eq_self]

theorem memcpyfail_made (first : Mem) (aux : List Nat) (fuel : Nat) (heap : Heap) (made : Made first aux heap) :
    memcpyfail fuel heap (madeHi first heap) (madeTop first heap) = memrelchain fuel heap (madeTop first heap) := by
  unfold memcpyfail madeHi madeTop
  split_ifs with more
  · dsimp only
    rw [set_cut heap.mem _ (made.last more)]
  · rfl

theorem copyLoopFor_reads (first : Mem) (aux : List Nat) (fuel avail : Nat) (heap : Heap) (cpyhdr : Bool) (ofs0 : Nat) (buf : Option Nat) (ofs : Nat)
    (nb : Int) (lens : List Nat) (done : Heap × List Event) (made : Made first aux heap) (sized : Sized first lens heap.mem)
    (begun : first.fresh < heap.mem.fresh → cpyhdr = false)
    (start : heap.mem.fresh = first.fresh → ∀ src, buf = some src → aux = if cpyhdr = true then copyaux (heap.mem.bufs src) else [])
    (copied : copyLoopFor fuel avail heap cpyhdr ofs0 buf ofs nb (madeHi first heap) (madeTop first heap) = some done) :
    Rounds first aux heap.mem.fresh (chainReads first avail buf ofs nb lens) done.2 := by
  induction fuel generalizing avail heap cpyhdr buf ofs nb lens done with
  | zero => cases copied
  | succ fuel ih =>
      unfold copyLoopFor at copied
      by_cases more : nb > 0
      · rw [if_pos more] at copied
        cases buf with
        | none =>
            obtain rfl := Option.some.inj copied
            unfold chainReads
            exact rounds_end first aux _
        | some src =>
            rw [Option.elim_some] at copied
            by_cases dead : ¬heap.live src = true
            · rw [if_pos dead] at copied
              cases copied
            rw [if_neg dead] at copied
            have live : heap.live src = true := by simpa using dead
            cases avail with
            | zero =>
                rw [memcpyfail_made first aux _ heap made] at copied
                simp only [chainReads, decide_eq_true more]
                exact rounds_spent first aux _ heap done made copied
            | succ avail =>
                simp only [Option.bind_eq_bind, Option.bind_eq_some_iff] at copied
                obtain ⟨next, step, rest, onward, same⟩ := copied
                obtain rfl := Option.some.inj same
                have old := made.below src live
                obtain ⟨later, top, given, joined⟩ := copyStep_made first aux heap cpyhdr ofs0 src ofs nb next made live begun
                  (fun same => start same src rfl) step
                have ends := made_ends first next.1 heap (Function.update heap.live heap.mem.fresh true) made.old joined.fresh
                have len := sized.2 src old
                have nonall : nb ≠ mbufcopyall := by
                  unfold mbufcopyall
                  omega
                have new : (next.1.bufs heap.mem.fresh).len = min nb.toNat ((heap.mem.bufs src).len - ofs) := congrArg (fun facet => facet.2.1) joined.new
                have link : (next.1.bufs src).next = linkOf first src := later.links src (Or.inr (by
                  dsimp only
                  rw [joined.fresh]
                  omega))
                rw [top, ← ends.2, ← ends.1, if_pos nonall, new, link] at onward
                have begun_next : first.fresh < next.1.fresh := by
                  rw [joined.fresh]
                  exact Nat.lt_succ_of_le made.old
                have rounds := ih avail _ false _ 0 _ (lens ++ [min nb.toNat ((heap.mem.bufs src).len - ofs)]) rest later
                  (sized_joined first heap.mem next.1 lens given _ _ cpyhdr sized joined) (fun _ => rfl) (fun same => absurd same (Nat.ne_of_gt begun_next)) onward
                dsimp only at rounds
                rw [joined.fresh, len] at rounds
                unfold chainReads
                rw [if_pos more]
                exact rounds_cons first aux _ src _ _ rounds
      · rw [if_neg more] at copied
        obtain rfl := Option.some.inj copied
        have ended : chainReads first avail buf ofs nb lens = ([], false) := by
          cases buf with
          | none => simp [chainReads]
          | some src => cases avail <;> simp [chainReads, more]
        rw [ended]
        exact rounds_end first aux _

theorem pktLoopFor_reads (first : Mem) (aux : List Nat) (fuel avail : Nat) (heap : Heap) (buf : Option Nat) (done : Heap × List Event)
    (made : Made first aux heap) (begun : first.fresh < heap.mem.fresh)
    (copied : pktLoopFor fuel avail heap buf (heap.mem.fresh - 1) first.fresh = some done) :
    Rounds first aux heap.mem.fresh (pktReads first avail buf) done.2 := by
  induction fuel generalizing avail heap buf done with
  | zero => cases copied
  | succ fuel ih =>
      have tail : madeHi first heap = some (heap.mem.fresh - 1) := if_pos begun
      have top : madeTop first heap = some first.fresh := if_pos begun
      unfold pktLoopFor at copied
      cases buf with
      | none =>
          obtain rfl := Option.some.inj copied
          unfold pktReads
          exact rounds_end first aux _
      | some src =>
          rw [Option.elim_some] at copied
          by_cases dead : ¬heap.live src = true
          · rw [if_pos dead] at copied
            cases copied
          rw [if_neg dead] at copied
          have live : heap.live src = true := by simpa using dead
          cases avail with
          | zero =>
              rw [← top] at copied
              unfold pktReads
              exact rounds_spent first aux _ heap done made copied
          | succ avail =>
              simp only [Option.bind_eq_bind, Option.bind_eq_some_iff] at copied
              obtain ⟨next, step, rest, onward, same⟩ := copied
              obtain rfl := Option.some.inj same
              have old := made.below src live
              obtain ⟨fresh, kept⟩ := copybuf_facet _ next src heap.mem.fresh 0 step
              have joined := joined_facet heap.mem _ next _ _ [] false
                (joined_linked heap.mem (madeHi first heap) none (heap.mem.bufs src).type (heap.mem.bufs src).len (madeHi_below first heap))
                (by rw [tail]; exact fresh) (by rw [tail]; exact kept)
              have later := made_joined first aux [] heap next _ false made joined (fun _ => ⟨rfl, rfl⟩) fun same => absurd same (Nat.ne_of_gt begun)
              have link : (next.bufs src).next = linkOf first src := later.links src (Or.inr (by
                dsimp only
                rw [joined.fresh]
                omega))
              have place : heap.mem.fresh = next.fresh - 1 := by
                rw [joined.fresh, Nat.add_sub_cancel]
              have onward_made : pktLoopFor fuel avail ⟨next, Function.update heap.live heap.mem.fresh true⟩ (linkOf first src)
                  (next.fresh - 1) first.fresh = some rest := by
                rw [← link, ← place]
                exact onward
              have rounds := ih avail _ _ rest later (Nat.lt_of_lt_of_eq (Nat.lt_succ_of_lt begun) joined.fresh.symm) onward_made
              dsimp only at rounds
              rw [joined.fresh] at rounds
              unfold pktReads
              exact rounds_cons first aux _ src _ _ rounds

theorem memcpypktFor_reads (fuel avail : Nat) (heap : Heap) (buf : Nat) (done : Heap × List Event)
    (below : ∀ id, heap.live id = true → id < heap.mem.fresh) (copied : memcpypktFor fuel avail heap buf = some done) :
    Rounds heap.mem (copyaux (heap.mem.bufs buf)) heap.mem.fresh (pktReads heap.mem avail (some buf)) done.2 := by
  unfold memcpypktFor at copied
  by_cases dead : ¬heap.live buf = true
  · rw [if_pos dead] at copied
    cases copied
  rw [if_neg dead] at copied
  have live : heap.live buf = true := by simpa using dead
  have old := below buf live
  have start := made_nil heap (copyaux (heap.mem.bufs buf)) below
  cases avail with
  | zero =>
      have top : madeTop heap.mem heap = none := if_neg (Nat.lt_irrefl _)
      exact rounds_spent heap.mem _ fuel heap done start (top ▸ copied)
  | succ avail =>
      simp only [Option.bind_eq_bind, Option.bind_eq_some_iff] at copied
      obtain ⟨next, step, rest, onward, same⟩ := copied
      obtain rfl := Option.some.inj same
      have tail : madeHi heap.mem heap = none := if_neg (Nat.lt_irrefl _)
      have joined : Joined heap.mem next none (heap.mem.bufs buf).len (copyaux (heap.mem.bufs buf)) true := by
        split_ifs at step with ext
        · obtain ⟨fresh, kept⟩ := copybuf_facet _ next buf heap.mem.fresh 0 step
          have header := joined_header heap.mem buf (heap.mem.bufs buf).len (heap.mem.bufs buf).type
            (fun copy => { copy with len := (heap.mem.bufs buf).len }) old fun copy => ⟨rfl, rfl, rfl⟩
          exact joined_facet heap.mem _ next none _ _ true header fresh kept
        · rw [set_set] at step
          obtain ⟨fresh, kept⟩ := copybuf_facet _ next buf heap.mem.fresh 0 step
          have header := joined_header heap.mem buf (heap.mem.bufs buf).len (heap.mem.bufs buf).type
            (fun copy => { copy with
              data := (mbpktbuf heap.mem.fresh).add ((heap.mem.bufs buf).data.ofs - sizeofmempkt)
              len := (heap.mem.bufs buf).len }) old fun copy => ⟨rfl, rfl, rfl⟩
          exact joined_facet heap.mem _ next none _ _ true header fresh kept
      have later := made_joined heap.mem _ _ heap next _ true start (tail ▸ joined) (fun more => absurd more (Nat.lt_irrefl _)) fun _ => rfl
      have link : (next.bufs buf).next = linkOf heap.mem buf := later.links buf (Or.inl old)
      have place : heap.mem.fresh = next.fresh - 1 := by
        rw [joined.fresh, Nat.add_sub_cancel]
      have onward_made : pktLoopFor fuel avail ⟨next, Function.update heap.live heap.mem.fresh true⟩ (linkOf heap.mem buf)
          (next.fresh - 1) heap.mem.fresh = some rest := by
        rw [← link, ← place]
        exact onward
      have rounds := pktLoopFor_reads heap.mem _ fuel avail _ _ rest later (Nat.lt_of_lt_of_eq (Nat.lt_succ_self _) joined.fresh.symm) onward_made
      dsimp only at rounds
      rw [joined.fresh] at rounds
      exact rounds_cons heap.mem _ _ buf _ _ rounds

theorem skipLoop_zero (fuel : Nat) (mem : Mem) (buf : Option Nat) (place : Option Nat × Nat) (skipped : skipLoop fuel mem buf 0 = some place) :
    place = (buf, 0) := by
  cases fuel with
  | zero => cases skipped
  | succ fuel => exact (Option.some.inj skipped).symm

theorem memcpychainFor_reads (fuel avail : Nat) (heap : Heap) (buf ofs0 : Nat) (nb : Int) (done : Heap × List Event)
    (below : ∀ id, heap.live id = true → id < heap.mem.fresh) (copied : memcpychainFor fuel avail heap buf ofs0 nb = some done) :
    Rounds heap.mem (headaux heap (.cpychain buf ofs0 nb fuel avail)) heap.mem.fresh (reads heap (.cpychain buf ofs0 nb fuel avail)) done.2 := by
  unfold memcpychainFor at copied
  obtain ⟨place, skipped, looped⟩ := Option.bind_eq_some_iff.mp copied
  have walk : reads heap (.cpychain buf ofs0 nb fuel avail) = chainReads heap.mem avail place.1 place.2 nb [] := by
    simp only [reads, skipped, Option.elim_some]
  have tail : madeHi heap.mem heap = none := if_neg (Nat.lt_irrefl _)
  have top : madeTop heap.mem heap = none := if_neg (Nat.lt_irrefl _)
  have sized : Sized heap.mem [] heap.mem := ⟨rfl, fun id early => (if_pos early).symm⟩
  have looped_made : copyLoopFor fuel avail heap (decide (ofs0 = 0) && ispkthdr (heap.mem.bufs buf)) ofs0 place.1 place.2 nb
      (madeHi heap.mem heap) (madeTop heap.mem heap) = some done := by
    rw [tail, top]
    exact looped
  rw [walk]
  refine copyLoopFor_reads heap.mem _ fuel avail heap _ ofs0 place.1 place.2 nb [] done (made_nil heap _ below) sized
    (fun more => absurd more (Nat.lt_irrefl _)) (fun _ src found => ?_) looped_made
  by_cases zero : ofs0 = 0
  · subst zero
    obtain rfl := skipLoop_zero fuel heap.mem (some buf) place skipped
    obtain rfl := Option.some.inj found
    simp [headaux]
  · simp [headaux, zero]

end OsZero.Mbuf

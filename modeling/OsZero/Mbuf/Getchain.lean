import Mathlib.Algebra.Ring.Int.Defs
import OsZero.Lib.Chains
import OsZero.Mbuf.Sharing

set_option autoImplicit false

namespace OsZero.Mbuf.Getchain

open Sharing

def mbufpktlen : Int := 4008
def mbufblksize : Int := 8192

-- The heap of mbufs, the blocks that are handed out, and which of the calls of kwalloc
-- succeed. Nothing here gives a block back: the area that memgetblk names is the mbuf itself.
structure Pool where
  heap : Heap
  blks : List Nat
  nblk : Nat
  grants : Nat → Bool
  tries : Nat

def Pool.set (pool : Pool) (mb : Nat) (change : Membuf → Membuf) : Pool :=
  { pool with heap := { pool.heap with mem := pool.heap.mem.set mb change } }

-- The address of an mbuf as one of bytes, and whether how has MEM_ZERO.
variable (adr : Nat → Adr) (zero : Bool)

def getbuf (pool : Pool) (type : Int) : Pool × Option Nat :=
  if pool.grants pool.tries then
    let got := memgetbuf pool.heap.mem type
    ({ pool with heap := ⟨got.1, Function.update pool.heap.live got.2 true⟩, tries := pool.tries + 1 }, some got.2)
  else ({ pool with tries := pool.tries + 1 }, none)

-- The macro __memgetblk. Its buf may be a pointer without a value, which none stands for.
def getblk (pool : Pool) (buf : Option Nat) : Option Pool :=
  if pool.grants pool.tries then
    let pool := { pool with blks := pool.nblk :: pool.blks, nblk := pool.nblk + 1, tries := pool.tries + 1 }
    if zero then some pool
    else buf.map fun mb => pool.set mb fun buf => { buf with ext := { buf.ext with rel := 0, args := 0 } }
  else some { pool with tries := pool.tries + 1 }

-- mb has no value when __memgetblk is given it for the header.
def memgetblk (pool : Pool) (buf : Nat) : Option Pool :=
  (getblk zero pool none).map fun pool => pool.set buf fun mb => { mb with
    data := adr buf
    flg := mb.flg ||| mbufextbit
    ext := { mb.ext with buf := adr buf, size := mbufblksize, type := mbufextblk } }

def mbtrailspace (mb : Membuf) : Int :=
  if isext mb then mb.ext.buf.ofs + mb.ext.size - mb.data.ofs
  else mbufdatalen - mb.data.ofs - mb.len

def giveback (pool : Pool) (top : Nat) : Option (Pool × Option Nat) :=
  (memrelchain pool.heap.mem.fresh pool.heap (some top)).map fun released => ({ pool with heap := released.1 }, none)

-- while (len > 0)
def chainLoop : Nat → Pool → Int → Nat → Nat → Int → Option (Pool × Option Nat)
  | 0, _, _, _, _, _ => none
  | fuel + 1, pool, type, top, tail, len =>
      if 0 < len then
        let got := getbuf pool type
        got.2.elim (giveback got.1 top) fun mb =>
          let pool := got.1.set tail fun last => { last with next := some mb }
          if mbufpktlen < len then
            (memgetblk adr zero pool mb).bind fun pool =>
              if isext (pool.heap.mem.bufs mb) then chainLoop fuel pool type top mb (len - mbtrailspace (pool.heap.mem.bufs mb))
              else giveback pool top
          else chainLoop fuel pool type top mb (len - mbtrailspace (pool.heap.mem.bufs mb))
      else some (pool, some top)

-- for (last = buf ; (mbnext(last)) ; last = mbnext(last))
def lastOf : Nat → Mem → Nat → Option Nat
  | 0, _, _ => none
  | fuel + 1, mem, last => (mem.bufs last).next.elim (some last) fun next => lastOf fuel mem next

def extend (fuel : Nat) (pool : Pool) (buf : Option Nat) (mb : Nat) (len type : Int) : Option (Pool × Option Nat) :=
  let len := len - mbtrailspace (pool.heap.mem.bufs mb)
  match buf with
  | none => chainLoop adr zero fuel pool type mb mb len
  | some first =>
      (lastOf fuel pool.heap.mem first).bind fun last =>
        (chainLoop adr zero fuel pool type mb mb len).map fun done =>
          done.2.elim done fun top => (done.1.set last fun mb => { mb with next := some top }, some first)

def memgetchain (fuel : Nat) (pool : Pool) (buf : Option Nat) (len type : Int) : Option (Pool × Option Nat) :=
  let got := getbuf pool type
  got.2.elim (some (got.1, none)) fun mb =>
    if mbufpktlen < len then
      (getblk zero got.1 (some mb)).bind fun pool =>
        if isext (pool.heap.mem.bufs mb) then extend adr zero fuel pool buf mb len type
        else (memrelbuf pool.heap (some mb)).map fun released => ({ pool with heap := released.1 }, none)
    else extend adr zero fuel got.1 buf mb len type

-- A chain of the old mbufs and new ones with room for len bytes.
structure Extended (pool last : Pool) (ids new : List Nat) (len : Int) (top : Nat) : Prop where
  chain : Chains.Seg (fun id => (last.heap.mem.bufs id).next) (some top) (ids ++ new) none
  made : ∀ id ∈ new, pool.heap.mem.fresh ≤ id ∧ last.heap.live id = true
  room : len ≤ (new.map fun id => mbtrailspace (last.heap.mem.bufs id)).sum
  kept : ∀ id ∈ ids, { last.heap.mem.bufs id with next := (pool.heap.mem.bufs id).next } = pool.heap.mem.bufs id

-- Everything is given back, and the mbufs that were there are as they were.
structure Restored (pool last : Pool) : Prop where
  live : last.heap.live = pool.heap.live
  blks : last.blks = pool.blks
  kept : ∀ id < pool.heap.mem.fresh, last.heap.mem.bufs id = pool.heap.mem.bufs id

def GetsChain (pool : Pool) (buf : Option Nat) (ids : List Nat) (len type : Int) : Prop :=
  ∃ fuel last result, memgetchain adr zero fuel pool buf len type = some (last, result) ∧
    match result with
    | some top => ∃ new, Extended pool last ids new len top
    | none => Restored pool last

theorem set_here (pool : Pool) (mb : Nat) (change : Membuf → Membuf) : (pool.set mb change).heap.mem.bufs mb = change (pool.heap.mem.bufs mb) :=
  Function.update_self _ _ _

theorem set_other (pool : Pool) (mb id : Nat) (change : Membuf → Membuf) (other : id ≠ mb) :
    (pool.set mb change).heap.mem.bufs id = pool.heap.mem.bufs id :=
  Function.update_of_ne other _ _

theorem lastOf_seg (fuel : Nat) (mem : Mem) (first last : Nat) (items : List Nat) (enough : items.length < fuel)
    (seg : Chains.Seg (fun id => (mem.bufs id).next) (some first) (items ++ [last]) none) : lastOf fuel mem first = some last := by
  induction fuel generalizing first items with
  | zero => cases enough
  | succ fuel ih =>
      cases items with
      | nil =>
          obtain rfl : first = last := Option.some.inj seg.1
          have link : (mem.bufs first).next = none := seg.2
          rw [lastOf, link, Option.elim_none]
      | cons item items =>
          obtain rfl : first = item := Option.some.inj seg.1
          have rest : Chains.Seg (fun id => (mem.bufs id).next) (mem.bufs first).next (items ++ [last]) none := seg.2
          obtain ⟨next, link⟩ := Chains.seg_starts _ _ none items last rest
          rw [link] at rest
          rw [lastOf, link, Option.elim_some]
          exact ih next items (Nat.lt_of_succ_lt_succ enough) rest

-- An mbuf as memgetbuf makes it has more room than a packet.
theorem getbuf_new (mem : Mem) (type : Int) : (memgetbuf mem type).1.bufs mem.fresh =
    { mem.bufs mem.fresh with data := mbdata mem.fresh, len := 0, type := type, flg := 0, next := none, nextpkt := none } :=
  Function.update_self _ _ _

theorem fresh_room (mem : Mem) (type : Int) : mbtrailspace ((memgetbuf mem type).1.bufs mem.fresh) = 4048 := by
  rw [getbuf_new]
  simp [mbtrailspace, isext, mbdata, mbufdatalen, mbufsize, sizeofmemhdr]

theorem chainLoop_done (pool : Pool) (type len : Int) (top tail : Nat) (enough : len ≤ 0) :
    chainLoop adr zero 1 pool type top tail len = some (pool, some top) := by
  rw [chainLoop, if_neg (by omega)]

-- The pool with one new mbuf.
def grown (pool : Pool) (type : Int) : Pool :=
  { pool with heap := ⟨(memgetbuf pool.heap.mem type).1, Function.update pool.heap.live pool.heap.mem.fresh true⟩, tries := pool.tries + 1 }

theorem grown_old (pool : Pool) (type : Int) (id : Nat) (old : id < pool.heap.mem.fresh) :
    (grown pool type).heap.mem.bufs id = pool.heap.mem.bufs id := Function.update_of_ne (Nat.ne_of_lt old) _ _

theorem grown_next (pool : Pool) (type : Int) : ((grown pool type).heap.mem.bufs pool.heap.mem.fresh).next = none := by
  show ((memgetbuf pool.heap.mem type).1.bufs pool.heap.mem.fresh).next = none
  rw [getbuf_new]

theorem extended_one (pool : Pool) (buf : Option Nat) (ids : List Nat) (len type : Int)
    (seg : Chains.Seg (fun id => (pool.heap.mem.bufs id).next) buf ids none) (old : ∀ id ∈ ids, id < pool.heap.mem.fresh)
    (short : len ≤ mbufpktlen) :
    ∃ fuel last top, extend adr zero fuel (grown pool type) buf pool.heap.mem.fresh len type = some (last, some top) ∧
      Extended pool last ids [pool.heap.mem.fresh] len top := by
  have room : mbtrailspace ((grown pool type).heap.mem.bufs pool.heap.mem.fresh) = 4048 := fresh_room pool.heap.mem type
  have short : len ≤ 4008 := short
  have bare := grown_next pool type
  rcases List.eq_nil_or_concat ids with rfl | ⟨items, last, rfl⟩
  · have none_buf : buf = none := seg
    subst none_buf
    refine ⟨1, grown pool type, pool.heap.mem.fresh, ?_, ⟨rfl, bare⟩, ?_, ?_, by simp⟩
    · unfold extend
      exact chainLoop_done adr zero _ type _ _ _ (by omega)
    · intro id inside
      cases List.mem_singleton.mp inside
      exact ⟨Nat.le_refl _, Function.update_self _ _ _⟩
    · simp only [List.map_cons, List.map_nil, List.sum_cons, List.sum_nil, room]
      omega
  · rw [List.concat_eq_append] at seg old ⊢
    have lastOld : last < pool.heap.mem.fresh := old last (by simp)
    have apart : pool.heap.mem.fresh ≠ last := Nat.ne_of_gt lastOld
    have grownSeg : Chains.Seg (fun id => ((grown pool type).heap.mem.bufs id).next) buf (items ++ [last]) none :=
      Chains.seg_frame _ _ buf none _ seg fun id inside => congrArg Membuf.next (grown_old pool type id (old id inside))
    cases buf with
    | none =>
        cases items with
        | nil => cases seg.1
        | cons item items => cases seg.1
    | some first =>
        have walk := lastOf_seg (items.length + 1) (grown pool type).heap.mem first last items (Nat.lt_succ_self _) grownSeg
        have loop : ∀ fuel, chainLoop adr zero (fuel + 1) (grown pool type) type pool.heap.mem.fresh pool.heap.mem.fresh (len - 4048) =
            some (grown pool type, some pool.heap.mem.fresh) := fun fuel => by
          rw [chainLoop, if_neg (by omega)]
        refine ⟨items.length + 1, (grown pool type).set last fun mb => { mb with next := some pool.heap.mem.fresh }, first, ?_, ?_, ?_, ?_, ?_⟩
        · unfold extend
          simp only [walk, room, loop, Option.bind_some, Option.map_some, Option.elim_some]
        · have redirected := Chains.seg_redirect _ (some first) none (some pool.heap.mem.fresh) items last grownSeg (Chains.seg_nodup _ _ _ grownSeg)
          have links : (fun id => (((grown pool type).set last fun mb => { mb with next := some pool.heap.mem.fresh }).heap.mem.bufs id).next) =
              Function.update (fun id => ((grown pool type).heap.mem.bufs id).next) last (some pool.heap.mem.fresh) := by
            funext id
            by_cases same : id = last
            · subst same
              rw [set_here, Function.update_self]
            · rw [set_other _ _ _ _ same, Function.update_of_ne same]
          rw [links]
          refine (Chains.seg_append _ _ _ _ _).mpr ⟨some pool.heap.mem.fresh, redirected, rfl, ?_⟩
          rw [Function.update_of_ne apart]
          exact bare
        · intro id inside
          cases List.mem_singleton.mp inside
          exact ⟨Nat.le_refl _, Function.update_self _ _ _⟩
        · simp only [List.map_cons, List.map_nil, List.sum_cons, List.sum_nil, set_other _ _ _ _ apart, room]
          omega
        · intro id inside
          by_cases same : id = last
          · subst same
            rw [set_here, grown_old pool type id (old id inside)]
          · rw [set_other _ _ _ _ same, grown_old pool type id (old id inside)]

theorem getbuf_granted (pool : Pool) (type : Int) (granted : pool.grants pool.tries = true) :
    getbuf pool type = (grown pool type, some pool.heap.mem.fresh) := by
  unfold getbuf
  rw [if_pos granted]
  rfl

theorem getbuf_refused (pool : Pool) (type : Int) (refused : pool.grants pool.tries = false) :
    getbuf pool type = ({ pool with tries := pool.tries + 1 }, none) := by
  unfold getbuf
  rw [refused]
  rfl

-- A long chain takes a block for its first mbuf, and the mbuf is not marked as external.
theorem getblk_cases (pool : Pool) (mb : Nat) : ∃ after, getblk zero pool (some mb) = some after ∧
    after.heap.live = pool.heap.live ∧ isext (after.heap.mem.bufs mb) = isext (pool.heap.mem.bufs mb) ∧
    (∀ id, id ≠ mb → after.heap.mem.bufs id = pool.heap.mem.bufs id) ∧
    after.blks = if pool.grants pool.tries then pool.nblk :: pool.blks else pool.blks := by
  unfold getblk
  cases granted : pool.grants pool.tries with
  | false => exact ⟨_, rfl, rfl, rfl, fun _ _ => rfl, rfl⟩
  | true =>
      cases zero with
      | true => exact ⟨_, rfl, rfl, rfl, fun _ _ => rfl, rfl⟩
      | false =>
          refine ⟨_, rfl, rfl, ?_, fun id other => set_other _ _ _ _ other, rfl⟩
          rw [set_here]
          rfl

theorem memgetchain_long (fuel : Nat) (pool : Pool) (buf : Option Nat) (len type : Int) (wf : Wf pool.heap)
    (granted : pool.grants pool.tries = true) (long : mbufpktlen < len) :
    ∃ last, memgetchain adr zero fuel pool buf len type = some (last, none) ∧ last.heap.live = pool.heap.live ∧
      (∀ id < pool.heap.mem.fresh, last.heap.mem.bufs id = pool.heap.mem.bufs id) ∧
      last.blks = if pool.grants (pool.tries + 1) then pool.nblk :: pool.blks else pool.blks := by
  have plain : isext ((grown pool type).heap.mem.bufs pool.heap.mem.fresh) = false := by
    show isext ((memgetbuf pool.heap.mem type).1.bufs pool.heap.mem.fresh) = false
    rw [getbuf_new]
    simp [isext]
  obtain ⟨after, got, live, ext, others, blks⟩ := getblk_cases zero (grown pool type) pool.heap.mem.fresh
  rw [plain] at ext
  have held : after.heap.live pool.heap.mem.fresh = true := by
    rw [live]
    exact Function.update_self _ _ _
  obtain ⟨done, released⟩ := memrelbuf_returns after.heap pool.heap.mem.fresh held
  obtain ⟨-, ⟨-, gone, kept, -⟩, -⟩ := memrelbuf_released _ _ _ released
  refine ⟨{ after with heap := done.1 }, ?_, ?_, ?_, blks⟩
  · unfold memgetchain
    simp only [getbuf_granted pool type granted, Option.elim_some, if_pos long, got, Option.bind_some, ext, Bool.false_eq_true, if_false, released,
      Option.map_some]
  · show done.1.live = pool.heap.live
    have absent : pool.heap.live pool.heap.mem.fresh = false := by
      rw [← Bool.not_eq_true]
      exact fun there => Nat.lt_irrefl _ (wf _ there)
    rw [gone, live]
    show Function.update (Function.update pool.heap.live pool.heap.mem.fresh true) pool.heap.mem.fresh false = pool.heap.live
    rw [Function.update_idem, ← absent, Function.update_eq_self]
  · intro id old
    have other : id ≠ pool.heap.mem.fresh := Nat.ne_of_lt old
    show done.1.mem.bufs id = _
    rw [kept id other, others id other]
    exact grown_old pool type id old

-- A first mbuf that asks for a block never gets it; the block is lost if there was one.
theorem memgetchain_gets_iff (pool : Pool) (buf : Option Nat) (ids : List Nat) (len type : Int) (wf : Wf pool.heap)
    (seg : Chains.Seg (fun id => (pool.heap.mem.bufs id).next) buf ids none) (old : ∀ id ∈ ids, id < pool.heap.mem.fresh) :
    GetsChain adr zero pool buf ids len type ↔
      pool.grants pool.tries = false ∨ len ≤ mbufpktlen ∨ pool.grants (pool.tries + 1) = false := by
  cases granted : pool.grants pool.tries with
  | false =>
      refine ⟨fun _ => Or.inl rfl, fun _ => ⟨0, { pool with tries := pool.tries + 1 }, none, ?_, rfl, rfl, fun _ _ => rfl⟩⟩
      unfold memgetchain
      rw [getbuf_refused pool type granted]
      rfl
  | true =>
      by_cases short : len ≤ mbufpktlen
      · refine ⟨fun _ => Or.inr (Or.inl short), fun _ => ?_⟩
        obtain ⟨fuel, last, top, done, extended⟩ := extended_one adr zero pool buf ids len type seg old short
        refine ⟨fuel, last, some top, ?_, _, extended⟩
        unfold memgetchain
        simp only [getbuf_granted pool type granted, Option.elim_some, if_neg (Int.not_lt.mpr short), done]
      · have long := Int.not_le.mp short
        constructor
        · rintro ⟨fuel, last, result, done, right⟩
          obtain ⟨after, same, -, -, blks⟩ := memgetchain_long adr zero fuel pool buf len type wf granted long
          rw [same] at done
          cases done
          refine Or.inr (Or.inr ?_)
          cases second : pool.grants (pool.tries + 1) with
          | false => rfl
          | true =>
              rw [second, if_pos rfl, right.blks] at blks
              exact absurd (congrArg List.length blks) (by simp)
        · rintro (first | short' | second)
          · cases first
          · exact absurd short' short
          · obtain ⟨after, done, live, kept, blks⟩ := memgetchain_long adr zero 0 pool buf len type wf granted long
            rw [second, if_neg Bool.false_ne_true] at blks
            exact ⟨0, after, none, done, live, blks, kept⟩

def emptyPool (grants : Nat → Bool) : Pool where
  heap := ⟨⟨fun _ => ⟨mbdata 0, 0, 0, 0, none, none, ⟨0, 0, none, 0, 0, none⟩, ⟨mbdata 0, 0, 0, 0, 0, 0⟩⟩, ⟨fun _ _ => 0, fun _ => mbufdatalen⟩, 0⟩,
    fun _ => false⟩
  blks := []
  nblk := 0
  grants := grants
  tries := 0

theorem memgetchain_gets_short : GetsChain mbdata false (emptyPool fun _ => true) none [] 100 1 :=
  (memgetchain_gets_iff mbdata false (emptyPool fun _ => true) none [] 100 1 (fun _ there => absurd there Bool.false_ne_true) rfl (by simp)).mpr
    (Or.inr (Or.inl (by decide)))

-- Every allocation succeeds, and NULL is returned with one block out.
theorem memgetchain_leaks :
    (∃ last, memgetchain mbdata false 0 (emptyPool fun _ => true) none 4009 1 = some (last, none) ∧ last.blks = [0]) ∧
      ¬GetsChain mbdata false (emptyPool fun _ => true) none [] 4009 1 := by
  have wf : Wf (emptyPool fun _ => true).heap := fun _ there => absurd there Bool.false_ne_true
  constructor
  · obtain ⟨last, done, -, -, blks⟩ := memgetchain_long mbdata false 0 (emptyPool fun _ => true) none 4009 1 wf rfl (by decide)
    exact ⟨last, done, blks⟩
  · rintro ⟨fuel, last, result, done, right⟩
    obtain ⟨after, same, -, -, blks⟩ := memgetchain_long mbdata false fuel (emptyPool fun _ => true) none 4009 1 wf rfl (by decide)
    rw [same] at done
    cases done
    have none_out : last.blks = [] := right.blks
    rw [none_out] at blks
    cases blks

end OsZero.Mbuf.Getchain

import OsZero.Mbuf.Getchain
import OsZero.Mbuf.Content

set_option autoImplicit false

namespace OsZero.Mbuf.Duppkt

open Sharing Getchain

-- while (nb < len && (buf)). The copy is made between the inner arrays of the two mbufs.
def fillLoop : Nat → Mem → Nat → Nat → Nat → Option Nat → Nat → Option (Mem × Nat × Option Nat × Nat)
  | 0, _, _, _, _, _, _ => none
  | fuel + 1, mem, mb, len, nb, buf, ofs =>
      if nb < len then
        buf.elim (some (mem, nb, none, ofs)) fun src =>
          let sz := (mem.bufs src).len
          let csz := min (len - nb) (sz - ofs)
          (kbcopy mem.bytes (mbdata src) ((mbdata mb).add nb) csz).bind fun bytes =>
            let mem := { mem with bytes := bytes }
            if ofs + csz = sz then fillLoop fuel mem mb len (nb + csz) (mem.bufs src).next 0
            else fillLoop fuel mem mb len (nb + csz) (some src) (ofs + csz)
      else some (mem, nb, buf, ofs)

def giveup (pool : Pool) (top : Option Nat) : Option (Pool × Option Nat) :=
  (memrelchain pool.heap.mem.fresh pool.heap top).map fun released => ({ pool with heap := released.1 }, none)

def Pool.mem (pool : Pool) (mem : Mem) : Pool := { pool with heap := { pool.heap with mem := mem } }

variable (adr : Nat → Adr) (zero : Bool)

-- The packet header of the first mbuf, and the block of one that is to hold much.
def furnish (pool : Pool) (top : Option Nat) (src mb : Nat) (nleft : Int) : Option Pool :=
  let pool := if top = none then Pool.mem pool (memcpypkthdr pool.heap.mem src mb) else pool
  if mbufpktlen < nleft then memgetblk adr zero pool mb else some pool

def roomFor (top : Option Nat) (nleft : Int) : Nat :=
  if mbufpktlen < nleft then mbufblksize.toNat else if top = none then mbufdatalen - sizeofmempkt else mbufdatalen

-- while (nleft > 0 || !top). No value of hi is &top.
def dupLoop : Nat → Pool → Option Nat → Option Nat → Option Nat → Nat → Int → Option (Pool × Option Nat)
  | 0, _, _, _, _, _, _ => none
  | fuel + 1, pool, top, hi, buf, ofs, nleft =>
      if 0 < nleft ∨ top = none then
        buf.bind fun src =>
          let got := getbuf pool (pool.heap.mem.bufs src).type
          got.2.elim (giveup got.1 top) fun mb =>
            (furnish adr zero got.1 top src mb nleft).bind fun pool =>
              if mbufpktlen < nleft ∧ isext (pool.heap.mem.bufs mb) = false then
                giveup { pool with heap := { pool.heap with live := Function.update pool.heap.live mb false } } top
              else
                let linked := setHi pool.heap.mem hi top mb
                let mem := linked.1.set mb fun buf => { buf with len := 0 }
                (fillLoop fuel mem mb (roomFor top nleft) 0 buf ofs).bind fun filled =>
                  let mem := filled.1.set mb fun buf => { buf with len := filled.2.1 }
                  dupLoop fuel (Pool.mem pool mem) linked.2 (some mb) filled.2.2.1 filled.2.2.2 (nleft - filled.2.1)
      else some (pool, top)

-- top has no value when the loop is first tested; garbage is what it holds.
def mduppkt (fuel : Nat) (pool : Pool) (garbage buf : Option Nat) : Option (Pool × Option Nat) :=
  buf.elim (some (pool, none)) fun first => dupLoop adr zero fuel pool garbage none buf 0 (pool.heap.mem.bufs first).pkt.len

-- A packet and the mbufs that hold it.
structure Packet (heap : Heap) (buf : Nat) (ids : List Nat) : Prop where
  wf : Wf heap
  live : ∀ id ∈ ids, heap.live id = true
  chain : WellFormed heap.mem buf ids
  header : ispkthdr (heap.mem.bufs buf) = true
  len : (heap.mem.bufs buf).pkt.len = total heap.mem ids

-- The mbuf's data lies in it, or in a block that is not the mbuf itself.
structure Stored (last : Pool) (id : Nat) : Prop where
  inline : isext (last.heap.mem.bufs id) = false → (last.heap.mem.bufs id).data.region = .mbuf id
  block : isext (last.heap.mem.bufs id) = true → (last.heap.mem.bufs id).ext.buf ≠ adr id
  fits : Fits last.heap.mem.bytes (last.heap.mem.bufs id).data (last.heap.mem.bufs id).len

structure Duplicated (heap : Heap) (last : Pool) (buf : Nat) (ids : List Nat) (top : Nat) (new : List Nat) : Prop where
  chain : Chains.Seg (fun id => (last.heap.mem.bufs id).next) (some top) new none
  made : ∀ id ∈ new, heap.mem.fresh ≤ id ∧ last.heap.live id = true
  stored : ∀ id ∈ new, Stored adr last id
  same : content last.heap.mem new = content heap.mem ids
  header : ispkthdr (last.heap.mem.bufs top) = true ∧ (last.heap.mem.bufs top).pkt = (heap.mem.bufs buf).pkt
  kept : ∀ id ∈ ids, last.heap.mem.bufs id = heap.mem.bufs id ∧ bytesOf last.heap.mem id = bytesOf heap.mem id

-- Where an allocation is refused, NULL; where none is, a copy.
def Duplicates (pool : Pool) (garbage : Option Nat) (buf : Nat) (ids : List Nat) : Prop :=
  ∀ grants, ∃ fuel last result, mduppkt adr zero fuel { pool with grants := grants } garbage (some buf) = some (last, result) ∧
    match result with
    | some top => ∃ new, Duplicated adr pool.heap last buf ids top new
    | none => Restored pool last ∧ ∃ n < last.tries, pool.tries ≤ n ∧ grants n = false

-- What later rounds of the loop leave of an mbuf.
def marks (buf : Membuf) : Adr × BitVec 64 × Memext := (buf.data, buf.flg, buf.ext)

theorem fillLoop_bufs (fuel : Nat) (mem : Mem) (mb len nb : Nat) (buf : Option Nat) (ofs : Nat) (done : Mem × Nat × Option Nat × Nat)
    (filled : fillLoop fuel mem mb len nb buf ofs = some done) : done.1.bufs = mem.bufs ∧ done.1.fresh = mem.fresh := by
  induction fuel generalizing mem nb buf ofs with
  | zero => cases filled
  | succ fuel ih =>
      rw [fillLoop] at filled
      split_ifs at filled with more
      · cases buf with
        | none =>
            cases filled
            exact ⟨rfl, rfl⟩
        | some src =>
            rw [Option.elim_some] at filled
            obtain ⟨bytes, -, filled⟩ := Option.bind_eq_some_iff.mp filled
            dsimp only at filled
            split_ifs at filled
            · exact ih { mem with bytes := bytes } _ _ _ filled
            · exact ih { mem with bytes := bytes } _ _ _ filled
      · cases filled
        exact ⟨rfl, rfl⟩

theorem memgetblk_here (pool after : Pool) (mb : Nat) (got : memgetblk adr zero pool mb = some after) :
    after.heap.mem.fresh = pool.heap.mem.fresh ∧ (∀ id, id ≠ mb → after.heap.mem.bufs id = pool.heap.mem.bufs id) ∧
      marks (after.heap.mem.bufs mb) = (adr mb, (pool.heap.mem.bufs mb).flg ||| mbufextbit,
        { (pool.heap.mem.bufs mb).ext with buf := adr mb, size := mbufblksize, type := mbufextblk }) := by
  obtain ⟨taken, blk, rfl⟩ := Option.map_eq_some_iff.mp got
  have heap : taken.heap = pool.heap := by
    unfold getblk at blk
    split_ifs at blk
    · cases blk
      rfl
    · cases blk
    · cases blk
      rfl
  refine ⟨?_, fun id other => ?_, ?_⟩
  · show taken.heap.mem.fresh = _
    rw [heap]
  · rw [set_other _ _ _ _ other, heap]
  · rw [set_here, heap]
    rfl

-- An mbuf that is no part of a copy: it has no packet header, or its data lies in
-- another mbuf, or it takes itself for its own block.
def Unfit (mb : Nat) (mark : Adr × BitVec 64 × Memext) : Prop :=
  mark.2.1 &&& mbufpkthdrbit = 0 ∨ mark.2.1 &&& mbufextbit = 0 ∧ mark.1.region ≠ .mbuf mb ∨ mark.2.1 &&& mbufextbit ≠ 0 ∧ mark.2.2.buf = adr mb

theorem unfit_copy (heap : Heap) (last : Pool) (buf mb : Nat) (ids new : List Nat) (unfit : Unfit adr mb (marks (last.heap.mem.bufs mb))) :
    ¬Duplicated adr heap last buf ids mb new := by
  intro duplicated
  obtain ⟨rest, rfl⟩ := Chains.seg_head _ mb new duplicated.chain
  have stored := duplicated.stored mb List.mem_cons_self
  rcases unfit with bare | ⟨inline, elsewhere⟩ | ⟨ext, itself⟩
  · have header := duplicated.header.1
    unfold ispkthdr at header
    exact of_decide_eq_true header bare
  · exact elsewhere (stored.inline (by unfold isext; exact decide_eq_false (not_not.mpr inline)))
  · exact stored.block (by unfold isext; exact decide_eq_true ext) itself

-- A round that ends in a copy leaves the marks of the old mbufs as they are.
theorem dupLoop_round (fuel : Nat) (pool last : Pool) (top hi buf : Option Nat) (ofs : Nat) (nleft : Int) (r : Nat)
    (enters : 0 < nleft ∨ top = none) (done : dupLoop adr zero (fuel + 1) pool top hi buf ofs nleft = some (last, some r)) :
    ∃ src ready next buf' ofs' nleft', buf = some src ∧ furnish adr zero (grown pool (pool.heap.mem.bufs src).type) top src pool.heap.mem.fresh nleft = some ready ∧
      dupLoop adr zero fuel next (hi.elim (some pool.heap.mem.fresh) fun _ => top) (some pool.heap.mem.fresh) buf' ofs' nleft' = some (last, some r) ∧
      next.heap.mem.fresh = ready.heap.mem.fresh ∧ ∀ id, marks (next.heap.mem.bufs id) = marks (ready.heap.mem.bufs id) := by
  have gone : ∀ pool : Pool, giveup pool top ≠ some (last, some r) := fun pool given => by
    obtain ⟨released, -, same⟩ := Option.map_eq_some_iff.mp given
    cases same
  rw [dupLoop, if_pos enters] at done
  obtain ⟨src, rfl, done⟩ := Option.bind_eq_some_iff.mp done
  cases granted : pool.grants pool.tries with
  | false =>
      rw [getbuf_refused pool _ granted] at done
      exact absurd done (gone _)
  | true =>
      rw [getbuf_granted pool _ granted] at done
      dsimp only [Option.elim_some] at done
      obtain ⟨ready, furnished, done⟩ := Option.bind_eq_some_iff.mp done
      split_ifs at done with lost
      · exact absurd done (gone _)
      · obtain ⟨⟨mem, nb, buf', ofs'⟩, filled, done⟩ := Option.bind_eq_some_iff.mp done
        obtain ⟨bufs, fresh⟩ := fillLoop_bufs _ _ _ _ _ _ _ _ filled
        dsimp only at bufs fresh done
        have linked : ∀ id, marks ((setHi ready.heap.mem hi top pool.heap.mem.fresh).1.bufs id) = marks (ready.heap.mem.bufs id) := fun id => by
          cases hi with
          | none => rfl
          | some last => exact set_kept marks ready.heap.mem last id (fun buf => { buf with next := some pool.heap.mem.fresh }) fun _ => rfl
        have second : (setHi ready.heap.mem hi top pool.heap.mem.fresh).2 = hi.elim (some pool.heap.mem.fresh) fun _ => top := by
          cases hi <;> rfl
        have size : (setHi ready.heap.mem hi top pool.heap.mem.fresh).1.fresh = ready.heap.mem.fresh := by
          cases hi <;> rfl
        refine ⟨src, ready, _, buf', ofs', _, rfl, furnished, second ▸ done, ?_, fun id => ?_⟩
        · exact fresh.trans size
        · refine (set_kept marks mem pool.heap.mem.fresh id (fun buf => { buf with len := nb }) fun _ => rfl).trans ?_
          rw [bufs]
          exact (set_kept marks _ pool.heap.mem.fresh id (fun buf => { buf with len := 0 }) fun _ => rfl).trans (linked id)

theorem extbit_set (flg : BitVec 64) : (flg ||| mbufextbit) &&& mbufextbit ≠ 0 := by
  intro clear
  have bit := congrArg (fun word : BitVec 64 => word.getLsbD 0) clear
  simp [mbufextbit] at bit

-- What memcpypkthdr leaves in the mbuf that it fills, and in the others.
theorem headed_here (mem : Mem) (src mb : Nat) (other : mb ≠ src) :
    marks ((memcpypkthdr mem src mb).bufs mb) = (mbpktbuf src, ((mem.bufs src).pkt.flg &&& mbufpktcopybits).zeroExtend 64, (mem.bufs mb).ext) := by
  unfold memcpypkthdr
  simp only [Mem.set, Function.update_of_ne other, Function.update_self]
  rfl

theorem headed_other (mem : Mem) (src mb id : Nat) (other : id ≠ mb) : marks ((memcpypkthdr mem src mb).bufs id) = marks (mem.bufs id) := by
  unfold memcpypkthdr
  refine (set_kept marks _ src id (fun buf => { buf with pkt := { buf.pkt with aux := none } }) fun _ => rfl).trans ?_
  exact congrArg marks (Function.update_of_ne other _ _)

-- The mbuf that a round adds has a fault, if it is the first.
theorem furnish_unfit (pool ready : Pool) (top : Option Nat) (src : Nat) (nleft : Int) (type : Int) (old : src < pool.heap.mem.fresh)
    (furnished : furnish adr zero (grown pool type) top src pool.heap.mem.fresh nleft = some ready) :
    Unfit adr pool.heap.mem.fresh (marks (ready.heap.mem.bufs pool.heap.mem.fresh)) := by
  have other : pool.heap.mem.fresh ≠ src := Nat.ne_of_gt old
  have bare : marks ((grown pool type).heap.mem.bufs pool.heap.mem.fresh) = (mbdata pool.heap.mem.fresh, 0, (pool.heap.mem.bufs pool.heap.mem.fresh).ext) := by
    show marks ((memgetbuf pool.heap.mem type).1.bufs pool.heap.mem.fresh) = _
    rw [getbuf_new]
    rfl
  unfold furnish at furnished
  dsimp only at furnished
  split_ifs at furnished with much first first
  · obtain ⟨-, -, here⟩ := memgetblk_here adr zero _ _ _ furnished
    rw [here]
    exact Or.inr (Or.inr ⟨extbit_set _, rfl⟩)
  · obtain ⟨-, -, here⟩ := memgetblk_here adr zero _ _ _ furnished
    rw [here, show ((grown pool type).heap.mem.bufs pool.heap.mem.fresh).flg = 0 from congrArg (fun mark => mark.2.1) bare]
    exact Or.inl (show (0 ||| mbufextbit) &&& mbufpkthdrbit = 0 by decide)
  · obtain rfl := Option.some.inj furnished
    refine Or.inr (Or.inl ?_)
    show (marks ((memcpypkthdr (grown pool type).heap.mem src pool.heap.mem.fresh).bufs pool.heap.mem.fresh)).2.1 &&& mbufextbit = 0 ∧
      (marks ((memcpypkthdr (grown pool type).heap.mem src pool.heap.mem.fresh).bufs pool.heap.mem.fresh)).1.region ≠ _
    rw [headed_here _ _ _ other]
    refine ⟨header_flags _, fun same => ?_⟩
    cases same
    exact other rfl
  · obtain rfl := Option.some.inj furnished
    rw [bare]
    exact Or.inl (show (0 : BitVec 64) &&& mbufpkthdrbit = 0 by decide)

-- The old mbufs keep their marks.
theorem furnish_old (pool ready : Pool) (top : Option Nat) (src id : Nat) (nleft : Int) (type : Int) (old : id < pool.heap.mem.fresh)
    (furnished : furnish adr zero (grown pool type) top src pool.heap.mem.fresh nleft = some ready) :
    marks (ready.heap.mem.bufs id) = marks (pool.heap.mem.bufs id) ∧ ready.heap.mem.fresh = pool.heap.mem.fresh + 1 := by
  have other : id ≠ pool.heap.mem.fresh := Nat.ne_of_lt old
  have grownSame : marks ((grown pool type).heap.mem.bufs id) = marks (pool.heap.mem.bufs id) := congrArg marks (grown_old pool type id old)
  unfold furnish at furnished
  dsimp only at furnished
  split_ifs at furnished with much first first
  · obtain ⟨fresh, others, -⟩ := memgetblk_here adr zero _ _ _ furnished
    rw [others id other]
    exact ⟨(headed_other _ _ _ id other).trans grownSame, fresh⟩
  · obtain ⟨fresh, others, -⟩ := memgetblk_here adr zero _ _ _ furnished
    rw [others id other]
    exact ⟨grownSame, fresh⟩
  · obtain rfl := Option.some.inj furnished
    exact ⟨(headed_other _ _ _ id other).trans grownSame, rfl⟩
  · obtain rfl := Option.some.inj furnished
    exact ⟨grownSame, rfl⟩

theorem dupLoop_keeps (fuel : Nat) (pool last : Pool) (top hi : Nat) (buf : Option Nat) (ofs : Nat) (nleft : Int) (r : Nat) (old : top < pool.heap.mem.fresh)
    (done : dupLoop adr zero fuel pool (some top) (some hi) buf ofs nleft = some (last, some r)) :
    r = top ∧ marks (last.heap.mem.bufs top) = marks (pool.heap.mem.bufs top) := by
  induction fuel generalizing pool hi buf ofs nleft with
  | zero => cases done
  | succ fuel ih =>
      by_cases enters : 0 < nleft ∨ some top = none
      · obtain ⟨src, ready, next, buf', ofs', nleft', -, furnished, later, fresh, same⟩ := dupLoop_round adr zero fuel pool last _ _ buf ofs nleft r enters done
        obtain ⟨kept, grows⟩ := furnish_old adr zero pool ready _ src top nleft _ old furnished
        obtain ⟨rfl, marked⟩ := ih next _ _ _ _ (by omega) later
        exact ⟨rfl, marked.trans ((same _).trans kept)⟩
      · rw [dupLoop, if_neg enters] at done
        cases done
        exact ⟨rfl, rfl⟩

-- What is returned is no copy, whatever top held.
theorem returned_spoils (fuel : Nat) (pool last : Pool) (garbage : Option Nat) (buf top : Nat) (ids new : List Nat) (wf : Wf pool.heap)
    (old : buf < pool.heap.mem.fresh) (done : mduppkt adr zero fuel pool garbage (some buf) = some (last, some top)) :
    ¬Duplicated adr pool.heap last buf ids top new := by
  rw [mduppkt, Option.elim_some] at done
  cases fuel with
  | zero => cases done
  | succ fuel =>
      by_cases enters : 0 < (pool.heap.mem.bufs buf).pkt.len ∨ garbage = none
      · obtain ⟨src, ready, next, buf', ofs', nleft', first, furnished, later, fresh, same⟩ := dupLoop_round adr zero fuel pool last _ _ _ _ _ top enters done
        obtain rfl := Option.some.inj first
        have unfit := furnish_unfit adr zero pool ready garbage buf _ _ old furnished
        obtain ⟨-, grows⟩ := furnish_old adr zero pool ready garbage buf buf _ _ old furnished
        obtain ⟨rfl, marked⟩ := dupLoop_keeps adr zero fuel next last pool.heap.mem.fresh _ _ _ _ top (by rw [fresh, grows]; exact Nat.lt_succ_self _) later
        apply unfit_copy
        rw [marked, same]
        exact unfit
      · rw [dupLoop, if_neg enters] at done
        cases done
        intro duplicated
        obtain ⟨rest, rfl⟩ := Chains.seg_head _ top new duplicated.chain
        obtain ⟨made, live⟩ := duplicated.made top List.mem_cons_self
        exact absurd (wf top live) (Nat.not_lt.mpr made)

-- No packet is duplicated.
theorem mduppkt_never (pool : Pool) (garbage : Option Nat) (buf : Nat) (ids : List Nat) (packet : Packet pool.heap buf ids) :
    ¬Duplicates adr zero pool garbage buf ids := by
  intro duplicates
  obtain ⟨fuel, last, result, done, right⟩ := duplicates fun _ => true
  cases result with
  | none =>
      obtain ⟨-, n, -, -, refused⟩ := right
      cases refused
  | some top =>
      obtain ⟨new, duplicated⟩ := right
      have old := packet.chain.chained.sound buf (by
        obtain ⟨rest, rfl⟩ := Chains.seg_head _ buf ids packet.chain.chained.seg
        exact List.mem_cons_self)
      exact returned_spoils adr zero fuel { pool with grants := fun _ => true } last garbage buf top ids new packet.wf old.old done duplicated

-- A packet of five bytes in one mbuf.
def small : Pool where
  heap := ⟨⟨fun id => ⟨mbpktbuf id, 5, 1, mbufpkthdrbit, none, none, ⟨0, 5, none, 0, 0, none⟩, ⟨mbdata id, 0, 0, 0, 0, 0⟩⟩,
    ⟨fun _ ofs => UInt8.ofNat ofs, fun _ => mbufdatalen⟩, 1⟩, fun id => decide (id < 1)⟩
  blks := []
  nblk := 0
  grants := fun _ => true
  tries := 0

theorem small_packet : Packet small.heap 0 [0] := by
  refine ⟨fun id there => of_decide_eq_true there, fun id inside => ?_, ⟨⟨⟨rfl, rfl⟩, fun id inside => ?_⟩, by decide, fun _ => rfl⟩, rfl, rfl⟩
  · cases List.mem_singleton.mp inside
    rfl
  · cases List.mem_singleton.mp inside
    exact ⟨by decide, fun _ => rfl, fun ext => absurd ext (by decide), by decide⟩

theorem mduppkt_never_small : ¬Duplicates mbdata false small none 0 [0] := mduppkt_never mbdata false small none 0 [0] small_packet

-- Though top is NULL and every allocation is granted.
theorem mduppkt_fails : ¬∀ (adr : Nat → Adr) (zero : Bool) (pool : Pool) (garbage : Option Nat) (buf : Nat) (ids : List Nat),
    Packet pool.heap buf ids → Duplicates adr zero pool garbage buf ids := by
  intro all
  obtain ⟨fuel, last, result, done, right⟩ := all mbdata false small none 0 [0] small_packet fun _ => true
  cases result with
  | none =>
      obtain ⟨-, n, -, -, refused⟩ := right
      cases refused
  | some top =>
      obtain ⟨new, duplicated⟩ := right
      exact returned_spoils mbdata false fuel small last none 0 top [0] new small_packet.wf (by decide) done duplicated

end OsZero.Mbuf.Duppkt

import OsZero.Mbuf.Catchain

set_option autoImplicit false

namespace OsZero.Mbuf.Catchain

open Sharing

def mbufpkthdr : BitVec 64 := 3

-- The test is for the type of a packet header, 3, and not for the flag. An mbuf
-- with external storage does not come to it.
def mbleadspace (buf : Membuf) : Int :=
  if isext buf then 0
  else if buf.flg &&& mbufpkthdr ≠ 0 then buf.data.ofs - sizeofmempkt
  else buf.data.ofs

def mbalignpkt (mem : Mem) (mb nb : Nat) : Mem :=
  mem.set mb fun buf => { buf with data := buf.data.add ((mbufdatalen - sizeofmempkt - nb) / longsize * longsize) }

-- granted is whether memgetbuf finds memory.
def memprependbuf (granted : Bool) (heap : Heap) (buf nb : Nat) : Option (Heap × Option Nat) :=
  if granted then
    let got := memgetbuf heap.mem (heap.mem.bufs buf).type
    let mb := got.2
    let mem := if ispkthdr (got.1.bufs buf) then (memcpypkthdr got.1 buf mb).set buf fun old => { old with flg := old.flg &&& ~~~mbufpkthdrbit } else got.1
    let mem := mem.set mb fun new => { new with next := some buf }
    let mem := if (nb : Int) < Getchain.mbufpktlen then mbalignpkt mem mb nb else mem
    some (⟨mem.set mb fun new => { new with len := nb }, Function.update heap.live mb true⟩, some mb)
  else (memrelchain heap.mem.fresh heap (some buf)).map fun released => (released.1, none)

-- pkt->len += nb
def raised (mem : Mem) (nb mb : Nat) : Mem :=
  if ispkthdr (mem.bufs mb) then mem.set mb fun buf => { buf with pkt := { buf.pkt with len := buf.pkt.len + nb } } else mem

def memprepend (granted : Bool) (heap : Heap) (buf nb : Nat) : Option (Heap × Option Nat) :=
  let got :=
    if nb ≤ mbleadspace (heap.mem.bufs buf) then
      some ({ heap with mem := heap.mem.set buf fun mb => { mb with data := ⟨mb.data.region, mb.data.ofs - nb⟩, len := mb.len + nb } }, some buf)
    else memprependbuf granted heap buf nb
  got.map fun done => ({ done.1 with mem := done.2.elim done.1.mem (raised done.1.mem nb) }, done.2)

-- An mbuf that keeps its data out of its own packet header.
structure Housed (mem : Mem) (id : Nat) : Prop where
  sound : Sound mem id
  header : isext (mem.bufs id) = false → ispkthdr (mem.bufs id) = true → sizeofmempkt ≤ (mem.bufs id).data.ofs

-- A chain of nb bytes that no other mbuf holds and of what was there.
structure Prepended (before after : Mem) (buf nb : Nat) (ids : List Nat) (top : Nat) (made : List Nat) : Prop where
  chain : Chains.Seg (fun id => (after.bufs id).next) (some top) made none
  housed : ∀ id ∈ made, Housed after id
  space : ∃ space, space.length = nb ∧ content after made = space ++ content before ids
  own : 0 < nb → nb ≤ (after.bufs top).len ∧ isext (after.bufs top) = false
  header : ispkthdr (before.bufs buf) = true →
    ispkthdr (after.bufs top) = true ∧ (after.bufs top).pkt = { (before.bufs buf).pkt with len := (before.bufs buf).pkt.len + nb }

def Prepends (heap : Heap) (buf nb : Nat) (ids : List Nat) : Prop :=
  ∃ after top made, memprepend true heap buf nb = some (after, some top) ∧ Prepended heap.mem after.mem buf nb ids top made

theorem raised_other (mem : Mem) (nb mb id : Nat) (other : id ≠ mb) : (raised mem nb mb).bufs id = mem.bufs id := by
  unfold raised
  split_ifs
  · exact Function.update_of_ne other _ _
  · rfl

theorem raised_bytes (mem : Mem) (nb mb : Nat) : (raised mem nb mb).bytes = mem.bytes := by
  unfold raised
  split_ifs <;> rfl

theorem raised_fresh (mem : Mem) (nb mb : Nat) : (raised mem nb mb).fresh = mem.fresh := by
  unfold raised
  split_ifs <;> rfl

theorem raised_here (mem : Mem) (nb mb : Nat) : (raised mem nb mb).bufs mb =
    if ispkthdr (mem.bufs mb) then { mem.bufs mb with pkt := { (mem.bufs mb).pkt with len := (mem.bufs mb).pkt.len + nb } } else mem.bufs mb := by
  unfold raised
  split_ifs
  · exact Function.update_self _ _ _
  · rfl

-- But for the length of the packet.
theorem raised_same (mem : Mem) (nb mb : Nat) : ∃ pkt, (raised mem nb mb).bufs mb = { mem.bufs mb with pkt := pkt } := by
  rw [raised_here]
  split_ifs
  · exact ⟨_, rfl⟩
  · exact ⟨(mem.bufs mb).pkt, rfl⟩

theorem housed_frame (mem after : Mem) (id : Nat) (housed : Housed mem id) (same : after.bufs id = mem.bufs id) (bytes : after.bytes = mem.bytes)
    (fresh : mem.fresh ≤ after.fresh) : Housed after id := by
  have fits := housed.sound.fits
  refine ⟨⟨Nat.lt_of_lt_of_le housed.sound.old fresh, ?_, ?_, ?_⟩, ?_⟩
  · rw [same]
    exact housed.sound.inline
  · rw [same]
    exact housed.sound.shared
  · unfold Fits at fits ⊢
    rw [same, bytes]
    exact fits
  · rw [same]
    exact housed.header

theorem bytesOf_frame (mem after : Mem) (id : Nat) (same : after.bufs id = mem.bufs id) (bytes : after.bytes = mem.bytes) :
    bytesOf after id = bytesOf mem id := by
  unfold bytesOf
  rw [same, bytes]

-- What memprepend may be given.
structure Ready (mem : Mem) (buf : Nat) (ids : List Nat) : Prop where
  seg : Chains.Seg (fun id => (mem.bufs id).next) (some buf) ids none
  housed : ∀ id ∈ ids, Housed mem id
  inlines : Inlines mem

theorem lead_ofs (mem : Mem) (id nb : Nat) (lead : nb ≤ mbleadspace (mem.bufs id)) : nb ≤ (mem.bufs id).data.ofs := by
  unfold mbleadspace at lead
  split_ifs at lead <;> omega

theorem lead_own (mem : Mem) (id nb : Nat) (lead : nb ≤ mbleadspace (mem.bufs id)) (some : 0 < nb) : isext (mem.bufs id) = false := by
  cases ext : isext (mem.bufs id) with
  | false => rfl
  | true =>
      rw [mbleadspace, if_pos ext] at lead
      omega

theorem lead_header (mem : Mem) (id nb : Nat) (lead : nb ≤ mbleadspace (mem.bufs id)) (ext : isext (mem.bufs id) = false)
    (header : ispkthdr (mem.bufs id) = true) : nb + sizeofmempkt ≤ (mem.bufs id).data.ofs := by
  have flagged : (mem.bufs id).flg &&& mbufpkthdr ≠ 0 := by
    intro clear
    have bit : (mem.bufs id).flg &&& mbufpkthdrbit = ((mem.bufs id).flg &&& mbufpkthdr) &&& mbufpkthdrbit := by
      rw [BitVec.and_assoc]
      rfl
    unfold ispkthdr at header
    rw [bit, clear] at header
    exact absurd header (by decide)
  rw [mbleadspace, if_neg (by rw [ext]; exact Bool.false_ne_true), if_pos flagged] at lead
  omega

-- The space is taken from before the data.
theorem memprepend_leads (heap : Heap) (buf nb : Nat) (ids : List Nat) (ready : Ready heap.mem buf ids)
    (lead : nb ≤ mbleadspace (heap.mem.bufs buf)) : Prepends heap buf nb ids := by
  obtain ⟨rest, rfl⟩ := Chains.seg_head _ buf ids ready.seg
  let moved := heap.mem.set buf fun mb => { mb with data := ⟨mb.data.region, mb.data.ofs - nb⟩, len := mb.len + nb }
  have before := lead_ofs heap.mem buf nb lead
  have housed := ready.housed buf List.mem_cons_self
  have here : moved.bufs buf =
      { heap.mem.bufs buf with data := ⟨(heap.mem.bufs buf).data.region, (heap.mem.bufs buf).data.ofs - nb⟩, len := (heap.mem.bufs buf).len + nb } :=
    Function.update_self _ _ _
  obtain ⟨pkt, same⟩ := raised_same moved nb buf
  rw [here] at same
  have bytes : (raised moved nb buf).bytes = heap.mem.bytes := raised_bytes moved nb buf
  have fresh : (raised moved nb buf).fresh = heap.mem.fresh := raised_fresh moved nb buf
  have others : ∀ id ∈ rest, (raised moved nb buf).bufs id = heap.mem.bufs id := fun id inside => by
    have other : id ≠ buf := by
      rintro rfl
      exact (List.nodup_cons.mp (Chains.seg_nodup _ _ _ ready.seg)).1 inside
    rw [raised_other moved nb buf id other]
    exact Function.update_of_ne other _ _
  refine ⟨{ heap with mem := raised moved nb buf }, buf, buf :: rest, ?_, ?_, ?_, ?_, ?_, ?_⟩
  · unfold memprepend
    rw [if_pos lead]
    rfl
  · refine Chains.seg_frame _ _ _ none _ ready.seg fun id inside => ?_
    rcases List.mem_cons.mp inside with rfl | later
    · dsimp only
      rw [same]
    · exact congrArg Membuf.next (others id later)
  · intro id inside
    rcases List.mem_cons.mp inside with rfl | later
    · have fits := housed.sound.fits
      refine ⟨⟨?_, ?_, ?_, ?_⟩, ?_⟩
      · dsimp only
        rw [fresh]
        exact housed.sound.old
      · dsimp only
        rw [same]
        exact housed.sound.inline
      · dsimp only
        rw [same]
        exact housed.sound.shared
      · unfold Fits at fits ⊢
        dsimp only
        rw [same, bytes]
        dsimp only
        omega
      · dsimp only
        rw [same]
        intro ext header
        have room := lead_header heap.mem id nb lead ext header
        dsimp only
        omega
    · exact housed_frame heap.mem _ id (ready.housed id inside) (others id later) bytes (Nat.le_of_eq fresh.symm)
  · refine ⟨stretch heap.mem.bytes ⟨(heap.mem.bufs buf).data.region, (heap.mem.bufs buf).data.ofs - nb⟩ nb, stretch_length _ _ _, ?_⟩
    show bytesOf (raised moved nb buf) buf ++ content (raised moved nb buf) rest = _ ++ (bytesOf heap.mem buf ++ content heap.mem rest)
    have back : (⟨(heap.mem.bufs buf).data.region, (heap.mem.bufs buf).data.ofs - nb⟩ : Adr).add nb = (heap.mem.bufs buf).data := by
      unfold Ptr.add
      rw [Nat.sub_add_cancel before]
    have top : bytesOf (raised moved nb buf) buf =
        stretch heap.mem.bytes ⟨(heap.mem.bufs buf).data.region, (heap.mem.bufs buf).data.ofs - nb⟩ (nb + (heap.mem.bufs buf).len) := by
      unfold bytesOf
      rw [same, bytes, Nat.add_comm nb]
      rfl
    rw [top, stretch_add, back, content_congr heap.mem _ rest fun id later => bytesOf_frame heap.mem _ id (others id later) bytes, List.append_assoc]
    rfl
  · intro some
    dsimp only
    rw [same]
    exact ⟨Nat.le_add_left _ _, lead_own heap.mem buf nb lead some⟩
  · intro header
    have flags : ispkthdr (moved.bufs buf) = true := by
      rw [here]
      exact header
    dsimp only
    rw [raised_here, if_pos flags, here]
    exact ⟨header, rfl⟩

theorem fresh_bare (mem : Mem) (type : Int) (buf : Nat) (old : buf < mem.fresh) : (memgetbuf mem type).1.bufs buf = mem.bufs buf :=
  Function.update_of_ne (Nat.ne_of_lt old) _ _

theorem flags_clear (buf : Membuf) (clear : buf.flg = 0) : isext buf = false ∧ ispkthdr buf = false := by
  unfold isext ispkthdr
  rw [clear]
  decide

-- A new mbuf is put before one without a packet header.
theorem memprepend_links (heap : Heap) (buf nb : Nat) (ids : List Nat) (ready : Ready heap.mem buf ids) (small : nb < 4008)
    (short : ¬nb ≤ mbleadspace (heap.mem.bufs buf)) (plain : ispkthdr (heap.mem.bufs buf) = false) : Prepends heap buf nb ids := by
  obtain ⟨rest, rfl⟩ := Chains.seg_head _ buf ids ready.seg
  have old := (ready.housed buf List.mem_cons_self).sound.old
  have size := ready.inlines heap.mem.fresh
  let made := ((mbalignpkt ((memgetbuf heap.mem (heap.mem.bufs buf).type).1.set heap.mem.fresh fun new => { new with next := some buf }) heap.mem.fresh nb).set
    heap.mem.fresh fun new => { new with len := nb })
  have here : made.bufs heap.mem.fresh = { heap.mem.bufs heap.mem.fresh with
      data := (mbdata heap.mem.fresh).add ((mbufdatalen - sizeofmempkt - nb) / longsize * longsize), len := nb, type := (heap.mem.bufs buf).type, flg := 0
      next := some buf, nextpkt := none } := by
    simp [made, mbalignpkt, Mem.set, memgetbuf]
  have others : ∀ id ∈ buf :: rest, made.bufs id = heap.mem.bufs id := fun id inside => by
    have other : id ≠ heap.mem.fresh := Nat.ne_of_lt (ready.housed id inside).sound.old
    simp [made, mbalignpkt, Mem.set, memgetbuf, Function.update_of_ne other]
  have unflagged : (made.bufs heap.mem.fresh).flg = 0 := by rw [here]
  obtain ⟨inline, bare⟩ := flags_clear _ unflagged
  have kept : raised made nb heap.mem.fresh = made := if_neg (by rw [bare]; exact Bool.false_ne_true)
  refine ⟨⟨made, Function.update heap.live heap.mem.fresh true⟩, heap.mem.fresh, heap.mem.fresh :: buf :: rest, ?_, ⟨rfl, ?_⟩, ?_, ?_, ?_, ?_⟩
  · have smaller : (nb : Int) < Getchain.mbufpktlen := by
      unfold Getchain.mbufpktlen
      omega
    have first : memprependbuf true heap buf nb = some (⟨made, Function.update heap.live heap.mem.fresh true⟩, some heap.mem.fresh) := by
      unfold memprependbuf
      rw [if_pos rfl]
      dsimp only
      rw [fresh_bare heap.mem _ buf old, plain, if_neg Bool.false_ne_true, if_pos smaller]
      rfl
    unfold memprepend
    rw [if_neg short, first]
    simp only [Option.map_some, Option.elim_some, kept]
  · dsimp only
    rw [here]
    exact Chains.seg_frame _ _ _ none _ ready.seg fun id inside => congrArg Membuf.next (others id inside)
  · intro id inside
    rcases List.mem_cons.mp inside with rfl | later
    · refine ⟨⟨Nat.lt_succ_self _, ?_, ?_, ?_⟩, ?_⟩
      · dsimp only
        rw [here]
        exact fun _ => rfl
      · dsimp only
        rw [inline]
        exact fun ext => absurd ext Bool.false_ne_true
      · dsimp only
        rw [here]
        show 0 + (mbufdatalen - sizeofmempkt - nb) / longsize * longsize + nb ≤ heap.mem.bytes.size (.mbuf heap.mem.fresh)
        have aligned := Nat.div_mul_le_self (mbufdatalen - sizeofmempkt - nb) longsize
        have room : mbufdatalen - sizeofmempkt = 4008 := rfl
        rw [size]
        omega
      · dsimp only
        rw [bare]
        exact fun _ header => absurd header Bool.false_ne_true
    · exact housed_frame heap.mem made id (ready.housed id later) (others id later) rfl (Nat.le_succ _)
  · refine ⟨bytesOf made heap.mem.fresh, ?_, ?_⟩
    · rw [bytesOf_length, here]
    · show bytesOf made heap.mem.fresh ++ content made (buf :: rest) = _
      rw [content_congr heap.mem made (buf :: rest) fun id inside => bytesOf_frame heap.mem made id (others id inside) rfl]
  · intro _
    dsimp only
    refine ⟨?_, inline⟩
    rw [here]
  · intro header
    rw [plain] at header
    cases header

def spot (buf : Membuf) : Region × BitVec 64 := (buf.data.region, buf.flg)

-- The data of the mbuf that takes a packet header over lies in the one that had it.
theorem memprependbuf_header (heap : Heap) (buf nb : Nat) (old : buf < heap.mem.fresh) (header : ispkthdr (heap.mem.bufs buf) = true) :
    ∃ after, memprependbuf true heap buf nb = some (after, some heap.mem.fresh) ∧
      spot (after.mem.bufs heap.mem.fresh) = (.mbuf buf, ((heap.mem.bufs buf).pkt.flg &&& mbufpktcopybits).zeroExtend 64) := by
  have apart : heap.mem.fresh ≠ buf := Nat.ne_of_gt old
  have bare := fresh_bare heap.mem (heap.mem.bufs buf).type buf old
  have moved : (memcpypkthdr (memgetbuf heap.mem (heap.mem.bufs buf).type).1 buf heap.mem.fresh).bufs heap.mem.fresh =
      { (memgetbuf heap.mem (heap.mem.bufs buf).type).1.bufs heap.mem.fresh with
        data := mbpktbuf buf, flg := ((heap.mem.bufs buf).pkt.flg &&& mbufpktcopybits).zeroExtend 64, pkt := (heap.mem.bufs buf).pkt } := by
    unfold memcpypkthdr
    dsimp only
    rw [bare]
    simp [Mem.set, Function.update_of_ne apart]
  have cleared : ∀ mem : Mem, ((mem.set buf fun old => { old with flg := old.flg &&& ~~~mbufpkthdrbit }).bufs heap.mem.fresh) = mem.bufs heap.mem.fresh :=
    fun mem => Function.update_of_ne apart _ _
  have linked : ∀ mem : Mem, spot ((mem.set heap.mem.fresh fun new => { new with next := some buf }).bufs heap.mem.fresh) = spot (mem.bufs heap.mem.fresh) :=
    fun mem => set_kept spot mem _ _ _ fun _ => rfl
  have aligned : ∀ mem : Mem, spot ((mbalignpkt mem heap.mem.fresh nb).bufs heap.mem.fresh) = spot (mem.bufs heap.mem.fresh) :=
    fun mem => set_kept spot mem _ _ _ fun _ => rfl
  have sized : ∀ mem : Mem, spot ((mem.set heap.mem.fresh fun new => { new with len := nb }).bufs heap.mem.fresh) = spot (mem.bufs heap.mem.fresh) :=
    fun mem => set_kept spot mem _ _ _ fun _ => rfl
  unfold memprependbuf
  rw [if_pos rfl]
  dsimp only
  rw [bare, header, if_pos rfl]
  refine ⟨_, rfl, ?_⟩
  dsimp only [memgetbuf] at moved ⊢
  rw [sized]
  split_ifs
  · rw [aligned, linked, cleared, moved]
    rfl
  · rw [linked, cleared, moved]
    rfl

theorem memprepend_header (heap : Heap) (buf nb : Nat) (ids : List Nat) (old : buf < heap.mem.fresh)
    (short : ¬nb ≤ mbleadspace (heap.mem.bufs buf)) (header : ispkthdr (heap.mem.bufs buf) = true) : ¬Prepends heap buf nb ids := by
  rintro ⟨after, top, made, done, prepended⟩
  obtain ⟨last, got, moved⟩ := memprependbuf_header heap buf nb old header
  obtain ⟨data, flg⟩ := Prod.mk.inj moved
  have apart : heap.mem.fresh ≠ buf := Nat.ne_of_gt old
  rw [memprepend, if_neg short, got, Option.map_some, Option.some.injEq, Prod.mk.injEq] at done
  obtain ⟨rfl, same⟩ := done
  obtain rfl := Option.some.inj same
  obtain ⟨pkt, held⟩ := raised_same last.mem nb heap.mem.fresh
  obtain ⟨rest, rfl⟩ := Chains.seg_head _ heap.mem.fresh made prepended.chain
  have sound := (prepended.housed heap.mem.fresh List.mem_cons_self).sound
  have inline := pktflg_inline (last.mem.bufs heap.mem.fresh) _ flg
  have home := sound.inline
  dsimp only [Option.elim_some] at home
  rw [held] at home
  have ext : isext (last.mem.bufs heap.mem.fresh) = false := by
    unfold storage at inline
    simpa using inline
  have here := home ext
  dsimp only at here
  rw [data] at here
  cases here
  exact apart rfl

-- Merged bytes are kept where none is linked behind them, and a packet header where its
-- mbuf has the space.
theorem edits_keep_iff (heap : Heap) :
    (∀ (src : Option Nat) (sids : List Nat) (dest : Nat) (front : List Nat) (last : Nat), Catchable heap src sids dest front last →
      (CatKeeps heap src sids dest (front ++ [last]) ↔
        ((heap.mem.bufs last).flg = 0 → Joins heap.mem last heap.mem.bytes (heap.mem.bufs last).len sids))) ∧
    (∀ (buf nb : Nat) (ids : List Nat), Ready heap.mem buf ids → nb < 4008 →
      (Prepends heap buf nb ids ↔ nb ≤ mbleadspace (heap.mem.bufs buf) ∨ ispkthdr (heap.mem.bufs buf) = false)) := by
  refine ⟨memcatchain_keeps_iff heap, fun buf nb ids ready small => ⟨fun prepends => ?_, ?_⟩⟩
  · by_cases lead : nb ≤ mbleadspace (heap.mem.bufs buf)
    · exact Or.inl lead
    · refine Or.inr ?_
      cases header : ispkthdr (heap.mem.bufs buf) with
      | false => rfl
      | true =>
          obtain ⟨rest, rfl⟩ := Chains.seg_head _ buf ids ready.seg
          exact absurd prepends (memprepend_header heap buf nb _ (ready.housed buf List.mem_cons_self).sound.old lead header)
  · rintro (lead | plain)
    · exact memprepend_leads heap buf nb ids ready lead
    · by_cases lead : nb ≤ mbleadspace (heap.mem.bufs buf)
      · exact memprepend_leads heap buf nb ids ready lead
      · exact memprepend_links heap buf nb ids ready small lead plain

def plainbuf (id len : Nat) (next : Option Nat) : Membuf :=
  ⟨mbdata id, len, 1, 0, next, none, ⟨0, 0, none, 0, 0, none⟩, ⟨mbdata id, 0, 0, 0, 0, 0⟩⟩

-- An empty mbuf, a chain of two, of 64 and 4000 bytes, a packet of five bytes with eight
-- before them, and an mbuf of 64 bytes.
def parts : Heap where
  mem := {
    bufs := fun id => match id with
      | 1 => plainbuf 1 64 (some 2)
      | 2 => plainbuf 2 4000 none
      | 3 => { plainbuf 3 5 none with data := ⟨.mbuf 3, 48⟩, flg := mbufpkthdrbit, pkt := ⟨0, 5, none, 0, 0, none⟩ }
      | 4 => plainbuf 4 64 none
      | id => plainbuf id 0 none
    bytes := ⟨fun _ ofs => UInt8.ofNat ofs, fun _ => mbufdatalen⟩
    fresh := 5 }
  live := fun _ => true

theorem plain_sound (id : Nat) (old : id < 5) (other : id ≠ 3) : Sound parts.mem id := by
  obtain rfl | rfl | rfl | rfl : id = 0 ∨ id = 1 ∨ id = 2 ∨ id = 4 := by omega
  all_goals exact ⟨by decide, fun _ => rfl, fun ext => absurd ext (by decide), by decide⟩

theorem packet_ready : Ready parts.mem 3 [3] := by
  refine ⟨⟨rfl, rfl⟩, fun id inside => ?_, fun _ => rfl⟩
  cases List.mem_singleton.mp inside
  exact ⟨⟨by decide, fun _ => rfl, fun ext => absurd ext (by decide), by decide⟩, fun _ _ => by decide⟩

theorem parts_catchable (src : Nat) (sids : List Nat) (seg : Chains.Seg (fun id => (parts.mem.bufs id).next) (some src) sids none)
    (plain : ∀ id ∈ sids, id < 5 ∧ id ≠ 3 ∧ id ≠ 0) : Catchable parts (some src) sids 0 [] 0 := by
  refine ⟨⟨⟨rfl, rfl⟩, fun id inside => ?_⟩, ⟨seg, fun id inside => plain_sound id (plain id inside).1 (plain id inside).2.1⟩, fun _ _ => rfl, ?_⟩
  · cases List.mem_singleton.mp inside
    exact plain_sound 0 (by decide) (by decide)
  · exact fun id inside same => (plain id inside).2.2 (List.mem_singleton.mp same)

theorem edits_keep_parts : CatKeeps parts (some 4) [4] 0 [0] ∧ Prepends parts 3 8 [3] := by
  refine ⟨((edits_keep_iff parts).1 (some 4) [4] 0 [] 0 (parts_catchable 4 [4] ⟨rfl, rfl⟩ (by decide))).mpr fun _ => ?_,
    ((edits_keep_iff parts).2 3 8 [3] packet_ready (by decide)).mpr (Or.inl (by decide))⟩
  unfold Joins
  rw [if_neg (by decide)]
  exact ⟨⟨by decide, fun ofs far inside => absurd inside (Nat.not_lt.mpr far)⟩, trivial⟩

-- The 64 bytes of the first mbuf are merged and lost, as the second is linked; the header
-- of a packet is moved to an mbuf whose data lies in the old one.
theorem edits_lose :
    ¬(∀ (heap : Heap) (src : Option Nat) (sids : List Nat) (dest : Nat) (front : List Nat) (last : Nat), Catchable heap src sids dest front last →
      CatKeeps heap src sids dest (front ++ [last])) ∧
    ¬(∀ (heap : Heap) (buf nb : Nat) (ids : List Nat), Ready heap.mem buf ids → nb < 4008 → Prepends heap buf nb ids) := by
  refine ⟨fun all => ?_, fun all => ?_⟩
  · have catchable := parts_catchable 1 [1, 2] ⟨rfl, rfl, rfl⟩ (by decide)
    have joins := (memcatchain_keeps_iff parts (some 1) [1, 2] 0 [] 0 catchable).mp (all parts (some 1) [1, 2] 0 [] 0 catchable) rfl
    unfold Joins at joins
    rw [if_neg (by decide)] at joins
    have linked := joins.2
    unfold Joins at linked
    rw [if_pos (by decide)] at linked
    exact absurd linked (by decide)
  · exact memprepend_header parts 3 9 [3] (by decide) (by decide) rfl (all parts 3 9 [3] packet_ready (by decide))

end OsZero.Mbuf.Catchain

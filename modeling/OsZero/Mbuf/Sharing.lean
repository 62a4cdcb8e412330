import OsZero.Mbuf.Release
import OsZero.Mbuf.Pieces
import Mathlib.Data.List.Flatten
import Mathlib.Data.List.Perm.Subperm

set_option autoImplicit false

namespace OsZero.Mbuf.Sharing

open Runs

-- The counts that the mbufs which refer to one area carry in their descriptors, and
-- the number of the next mbuf.
structure Ledger where
  fresh : Nat
  counts : Nat → Option Int

def play (ledger : Ledger) : Event → Ledger
  | .copied src mb =>
      ⟨ledger.fresh + 1, Function.update (Function.update ledger.counts mb (ledger.counts src)) src ((ledger.counts src).map (· + 1))⟩
  | .dropped mb _ => ⟨ledger.fresh, Function.update ledger.counts mb none⟩

-- The storage that an mbuf frees is its own, and it is freed where its own count is one.
def Told (area : Adr) (ledger : Ledger) : List Event → Prop
  | [] => True
  | .copied src mb :: events => mb = ledger.fresh ∧ src < ledger.fresh ∧ Told area (play ledger (.copied src mb)) events
  | .dropped mb freed :: events => ((∃ call, freed = some call ∧ call.buf = area) ↔ ledger.counts mb = some 1) ∧
      Told area (play ledger (.dropped mb freed)) events

theorem told_append (area : Adr) (ledger : Ledger) (first second : List Event) :
    Told area ledger (first ++ second) ↔ Told area ledger first ∧ Told area (first.foldl play ledger) second := by
  induction first generalizing ledger with
  | nil => simp [Told]
  | cons event first ih =>
      cases event with
      | copied src mb => simp only [List.cons_append, Told, ih, List.foldl_cons, and_assoc]
      | dropped mb freed => simp only [List.cons_append, Told, ih, List.foldl_cons, and_assoc]

-- The mbufs that refer to the area, and what is left of them.
def referring (refers : Nat → Prop) : Event → Nat → Prop
  | .copied src mb => fun id => refers id ∨ id = mb ∧ refers src
  | .dropped mb _ => fun id => refers id ∧ id ≠ mb

-- The area has to be freed with the last of them alone.
def Exact (area : Adr) (refers : Nat → Prop) : List Event → Prop
  | [] => True
  | .copied src mb :: events => Exact area (referring refers (.copied src mb)) events
  | .dropped mb freed :: events =>
      ((∃ call, freed = some call ∧ call.buf = area) ↔ refers mb ∧ ∀ id, refers id → id = mb) ∧
        Exact area (referring refers (.dropped mb freed)) events

-- The bearer of the count of one is the mbuf that the area was attached to, until it
-- is copied; then the copy is.
def bearing (bearer : Nat) : Event → Nat
  | .copied src mb => if src = bearer then mb else bearer
  | .dropped _ _ => bearer

def BearerLast (refers : Nat → Prop) (bearer : Nat) : List Event → Prop
  | [] => True
  | .copied src mb :: events => BearerLast (referring refers (.copied src mb)) (bearing bearer (.copied src mb)) events
  | .dropped mb freed :: events => (mb = bearer → ∀ id, refers id → id = mb) ∧
      BearerLast (referring refers (.dropped mb freed)) (bearing bearer (.dropped mb freed)) events

-- The counts tell the bearer from the others, for as long as any mbuf refers to the area.
structure Lined (ledger : Ledger) (refers : Nat → Prop) (bearer : Nat) : Prop where
  refer : ∀ id, refers id ↔ ledger.counts id ≠ none
  below : ∀ id, refers id → id < ledger.fresh
  least : ∀ id c, ledger.counts id = some c → 1 ≤ c
  one : ∀ id c, ledger.counts id = some c → (c = 1 ↔ id = bearer)
  borne : ∀ id, refers id → refers bearer

theorem lined_copied (ledger : Ledger) (refers : Nat → Prop) (bearer src mb : Nat) (lined : Lined ledger refers bearer)
    (new : mb = ledger.fresh) (old : src < ledger.fresh) :
    Lined (play ledger (.copied src mb)) (referring refers (.copied src mb)) (bearing bearer (.copied src mb)) := by
  have apart : mb ≠ src := by omega
  have unborn : ledger.counts mb = none := by
    by_contra present
    have early := lined.below mb ((lined.refer mb).mpr present)
    omega
  have bearer_old : ∀ c, ledger.counts src = some c → bearer ≠ mb := fun c present => by
    have early := lined.below bearer (lined.borne src ((lined.refer src).mpr (by simp [present])))
    omega
  have counts : ∀ id, (play ledger (.copied src mb)).counts id =
      if id = src then (ledger.counts src).map (· + 1) else if id = mb then ledger.counts src else ledger.counts id := fun id => by
    simp only [play, Function.update_apply]
  constructor
  · intro id
    rw [counts]
    simp only [referring]
    rw [lined.refer id, lined.refer src]
    by_cases source : id = src
    · simp [source]
    · rw [if_neg source]
      by_cases copy : id = mb
      · simp [copy, unborn]
      · simp [copy]
  · rintro id (present | ⟨rfl, present⟩)
    · exact Nat.lt_succ_of_lt (lined.below id present)
    · exact Nat.lt_succ_of_le (Nat.le_of_eq new)
  · intro id c present
    rw [counts] at present
    split_ifs at present with source copy
    · obtain ⟨d, carried, rfl⟩ := Option.map_eq_some_iff.mp present
      have least := lined.least src d carried
      omega
    · exact lined.least src c present
    · exact lined.least id c present
  · intro id c present
    rw [counts] at present
    simp only [bearing]
    split_ifs at present with source copy
    · obtain ⟨d, carried, rfl⟩ := Option.map_eq_some_iff.mp present
      have least := lined.least src d carried
      have once := lined.one src d carried
      have other : id ≠ (if src = bearer then mb else bearer) := by
        split_ifs with borne
        · exact source ▸ apart.symm
        · exact source ▸ borne
      exact iff_of_false (by omega) other
    · rw [lined.one src c present]
      split_ifs with borne
      · exact iff_of_true borne copy
      · exact iff_of_false borne fun same => bearer_old c present (same.symm.trans copy)
    · rw [lined.one id c present]
      split_ifs with borne
      · exact iff_of_false (borne ▸ source) copy
      · exact Iff.rfl
  · intro id present
    have any : refers bearer := present.elim (lined.borne id) fun new => lined.borne src new.2
    simp only [bearing, referring]
    split_ifs with borne
    · exact Or.inr ⟨rfl, borne ▸ any⟩
    · exact Or.inl any

theorem lined_dropped (ledger : Ledger) (refers : Nat → Prop) (bearer mb : Nat) (freed : Option Freed) (lined : Lined ledger refers bearer)
    (last : mb = bearer → ∀ id, refers id → id = mb) :
    Lined (play ledger (.dropped mb freed)) (referring refers (.dropped mb freed)) (bearing bearer (.dropped mb freed)) := by
  have kept : ∀ id c, (play ledger (.dropped mb freed)).counts id = some c → id ≠ mb ∧ ledger.counts id = some c := fun id c present => by
    simp only [play, Function.update_apply] at present
    split_ifs at present with gone
    exact ⟨gone, present⟩
  constructor
  · intro id
    simp only [referring, play]
    rw [lined.refer id, Function.update_apply]
    by_cases gone : id = mb
    · simp [gone]
    · simp [gone]
  · exact fun id present => lined.below id present.1
  · exact fun id c present => lined.least id c (kept id c present).2
  · exact fun id c present => lined.one id c (kept id c present).2
  · rintro id ⟨present, other⟩
    exact ⟨lined.borne id present, fun gone => other (last gone.symm id present)⟩

theorem freed_iff (ledger : Ledger) (refers : Nat → Prop) (bearer mb : Nat) (lined : Lined ledger refers bearer) :
    ((ledger.counts mb = some 1) ↔ refers mb ∧ ∀ id, refers id → id = mb) ↔ (mb = bearer → ∀ id, refers id → id = mb) := by
  have counted : ledger.counts mb = some 1 ↔ refers mb ∧ mb = bearer := by
    rw [lined.refer mb]
    cases present : ledger.counts mb with
    | none => simp
    | some c => simp [← lined.one mb c present]
  rw [counted]
  constructor
  · rintro exact_drop rfl id present
    exact (exact_drop.mp ⟨lined.borne id present, rfl⟩).2 id present
  · refine fun last => ⟨fun ⟨present, bears⟩ => ⟨present, last bears⟩, fun ⟨present, alone⟩ => ⟨present, ?_⟩⟩
    exact (alone bearer (lined.borne mb present)).symm

theorem exact_iff (area : Adr) (ledger : Ledger) (refers : Nat → Prop) (bearer : Nat) (events : List Event)
    (lined : Lined ledger refers bearer) (told : Told area ledger events) :
    Exact area refers events ↔ BearerLast refers bearer events := by
  induction events generalizing ledger refers bearer with
  | nil => exact Iff.rfl
  | cons event events ih =>
      cases event with
      | copied src mb => exact ih _ _ _ (lined_copied ledger refers bearer src mb lined told.1 told.2.1) told.2.2
      | dropped mb freed =>
          have once := freed_iff ledger refers bearer mb lined
          rw [← told.1] at once
          refine (and_congr_left' once).trans (and_congr_right fun last => ?_)
          exact ih _ _ _ (lined_dropped ledger refers bearer mb freed lined last) told.2

theorem lined_events (area : Adr) (ledger : Ledger) (refers : Nat → Prop) (bearer : Nat) (events : List Event)
    (lined : Lined ledger refers bearer) (told : Told area ledger events) (last : BearerLast refers bearer events) :
    Lined (events.foldl play ledger) (events.foldl referring refers) (events.foldl bearing bearer) := by
  induction events generalizing ledger refers bearer with
  | nil => exact lined
  | cons event events ih =>
      cases event with
      | copied src mb => exact ih _ _ _ (lined_copied ledger refers bearer src mb lined told.1 told.2.1) told.2.2 last
      | dropped mb freed => exact ih _ _ _ (lined_dropped ledger refers bearer mb freed lined last.1) told.2 last.2

-- The storage that an mbuf refers to.
def storage (buf : Membuf) : Option Memext := if isext buf = true then some buf.ext else none

def ledger (area : Adr) (heap : Heap) : Ledger :=
  ⟨heap.mem.fresh, fun id => if heap.live id = true then
    (storage (heap.mem.bufs id)).bind fun ext => if ext.buf = area then some ext.nref else none else none⟩

def Refers (area : Adr) (heap : Heap) (id : Nat) : Prop :=
  heap.live id = true ∧ isext (heap.mem.bufs id) = true ∧ (heap.mem.bufs id).ext.buf = area

def Wf (heap : Heap) : Prop := ∀ id, heap.live id = true → id < heap.mem.fresh

theorem refers_iff (area : Adr) (heap : Heap) (id : Nat) : Refers area heap id ↔ (ledger area heap).counts id ≠ none := by
  unfold Refers ledger storage
  dsimp only
  split_ifs with live ext
  · simp [live, ext]
  · simp [ext]
  · simp [live]

-- What a call did to the heap, as the ledger of the area sees it.
structure Follows (area : Adr) (heap : Heap) (events : List Event) (last : Heap) : Prop where
  wf : Wf last
  told : Told area (ledger area heap) events
  played : ledger area last = events.foldl play (ledger area heap)

theorem follows_nil (area : Adr) (heap last : Heap) (wf : Wf heap) (live : last.live = heap.live) (fresh : last.mem.fresh = heap.mem.fresh)
    (stored : ∀ id, storage (last.mem.bufs id) = storage (heap.mem.bufs id)) : Follows area heap [] last := by
  refine ⟨fun id present => ?_, trivial, ?_⟩
  · rw [live] at present
    exact fresh ▸ wf id present
  · unfold ledger
    rw [live, fresh]
    simp only [stored, List.foldl_nil]

theorem follows_append (area : Adr) (heap next last : Heap) (first second : List Event) (early : Follows area heap first next)
    (late : Follows area next second last) : Follows area heap (first ++ second) last := by
  refine ⟨late.wf, (told_append area _ first second).mpr ⟨early.told, ?_⟩, ?_⟩
  · exact early.played ▸ late.told
  · rw [late.played, early.played, List.foldl_append]

-- A new mbuf has been made room for, and refers to no storage yet.
structure Readied (mem next : Mem) : Prop where
  fresh : next.fresh = mem.fresh + 1
  bare : storage (next.bufs mem.fresh) = none
  others : ∀ id, id ≠ mem.fresh → storage (next.bufs id) = storage (mem.bufs id)

theorem readied_getbuf (mem : Mem) (type : Int) : Readied mem (memgetbuf mem type).1 := by
  refine ⟨rfl, ?_, fun id other => ?_⟩
  · simp [memgetbuf, Mem.set, storage, isext]
  · simp [memgetbuf, Mem.set, Function.update_of_ne other]

theorem readied_set (mem next : Mem) (mb : Nat) (change : Membuf → Membuf) (readied : Readied mem next)
    (kept : ∀ buf, storage (change buf) = storage buf) : Readied mem (next.set mb change) :=
  ⟨readied.fresh, (set_kept storage next mb mem.fresh change kept).trans readied.bare,
    fun id other => (set_kept storage next mb id change kept).trans (readied.others id other)⟩

theorem header_flags (flg : BitVec 32) : (flg &&& mbufpktcopybits).zeroExtend 64 &&& mbufextbit = 0 := by
  unfold mbufextbit mbufpktcopybits
  ext place bound
  by_cases first : place = 0
  · subst first
    simp
  · simp [first, BitVec.getElem_one]

theorem pktflg_inline (buf : Membuf) (flg : BitVec 32) (same : buf.flg = (flg &&& mbufpktcopybits).zeroExtend 64) : storage buf = none := by
  unfold storage isext
  rw [same, header_flags]
  rfl

theorem readied_hdr (mem next : Mem) (src : Nat) (readied : Readied mem next) : Readied mem (memcpypkthdr next src mem.fresh) := by
  unfold memcpypkthdr
  refine readied_set mem _ src _ ⟨readied.fresh, ?_, fun id other => ?_⟩ fun buf => rfl
  · exact pktflg_inline _ (next.bufs src).pkt.flg (by simp [Mem.set])
  · simp only [Mem.set, Function.update_of_ne other]
    exact readied.others id other

structure CopyOf (mem next : Mem) (src : Nat) : Prop where
  fresh : next.fresh = mem.fresh + 1
  new : storage (next.bufs mem.fresh) = storage (mem.bufs src)
  source : storage (next.bufs src) = (storage (mem.bufs src)).map fun ext => { ext with nref := ext.nref + 1 }
  others : ∀ id, id ≠ mem.fresh → id ≠ src → storage (next.bufs id) = storage (mem.bufs id)

theorem copyOf_copybuf (mem next last : Mem) (src ofs : Nat) (readied : Readied mem next) (old : src < mem.fresh)
    (copied : copybuf next src mem.fresh ofs = some last) : CopyOf mem last src := by
  have apart : mem.fresh ≠ src := Nat.ne_of_gt old
  have kept := readied.others src apart.symm
  unfold copybuf at copied
  split_ifs at copied with ext
  · obtain rfl := Option.some.inj copied
    have stored : storage (mem.bufs src) = some (next.bufs src).ext := by
      rw [← kept]
      exact if_pos ext
    refine ⟨readied.fresh, ?_, ?_, fun id new other => ?_⟩
    · rw [sharepkt_new next src mem.fresh ofs apart, stored]
      exact if_pos (isext_or _)
    · rw [sharepkt_old next src mem.fresh ofs src apart.symm, if_pos rfl, stored]
      exact if_pos ext
    · rw [sharepkt_old next src mem.fresh ofs id new, if_neg other]
      exact readied.others id new
  · obtain ⟨bytes, -, rfl⟩ := Option.map_eq_some_iff.mp copied
    have bare : storage (mem.bufs src) = none := by
      rw [← kept]
      exact if_neg ext
    exact ⟨readied.fresh, by rw [bare]; exact readied.bare, by rw [bare]; exact kept.trans bare, fun id new _ => readied.others id new⟩

theorem follows_copied (area : Adr) (heap : Heap) (next : Mem) (src : Nat) (wf : Wf heap) (live : heap.live src = true)
    (copy : CopyOf heap.mem next src) :
    Follows area heap [.copied src heap.mem.fresh] ⟨next, Function.update heap.live heap.mem.fresh true⟩ := by
  have old := wf src live
  have apart : src ≠ heap.mem.fresh := Nat.ne_of_lt old
  refine ⟨fun id present => ?_, ⟨rfl, old, trivial⟩, ?_⟩
  · dsimp only at present ⊢
    rw [Function.update_apply] at present
    rw [copy.fresh]
    split_ifs at present with new
    · omega
    · exact Nat.lt_succ_of_lt (wf id present)
  · simp only [List.foldl_cons, List.foldl_nil, play, ledger, copy.fresh, Ledger.mk.injEq, true_and]
    funext id
    by_cases source : id = src
    · subst source
      rw [Function.update_self, Function.update_of_ne apart, if_pos live, if_pos live, copy.source]
      cases storage (heap.mem.bufs id) with
      | none => rfl
      | some ext => by_cases inside : ext.buf = area <;> simp [inside]
    · rw [Function.update_of_ne source]
      by_cases new : id = heap.mem.fresh
      · subst new
        rw [Function.update_self, Function.update_self, if_pos rfl, if_pos live, copy.new]
      · rw [Function.update_of_ne new, Function.update_of_ne new, copy.others id new source]

theorem memrelext_others (mem : Mem) (mb id : Nat) (other : id ≠ mb) : (memrelext mem mb).1.bufs id = mem.bufs id := by
  unfold memrelext
  dsimp only
  split_ifs <;> simp [Mem.set, Function.update_of_ne other]

theorem memrelext_links (mem : Mem) (mb id : Nat) : ((memrelext mem mb).1.bufs id).next = (mem.bufs id).next := by
  by_cases same : id = mb
  · subst same
    unfold memrelext
    dsimp only
    split_ifs <;> simp [Mem.set]
  · rw [memrelext_others mem mb id same]

theorem memrelext_fresh (mem : Mem) (mb : Nat) : (memrelext mem mb).1.fresh = mem.fresh := by
  unfold memrelext
  dsimp only
  split_ifs <;> rfl

theorem memrelext_freed (mem : Mem) (mb : Nat) (area : Adr) :
    (∃ call, (memrelext mem mb).2 = some call ∧ call.buf = area) ↔ (mem.bufs mb).ext.nref = 1 ∧ (mem.bufs mb).ext.buf = area := by
  have spent : (mem.bufs mb).ext.nref - 1 = 0 ↔ (mem.bufs mb).ext.nref = 1 := by omega
  unfold memrelext
  simp only [Mem.set, Function.update_self, spent]
  split_ifs <;> simp_all [Freed.buf]

-- What releasing one mbuf leaves of the others.
structure Released (heap : Heap) (mb : Nat) (last : Heap) : Prop where
  fresh : last.mem.fresh = heap.mem.fresh
  live : last.live = Function.update heap.live mb false
  others : ∀ id, id ≠ mb → last.mem.bufs id = heap.mem.bufs id
  links : ∀ id, (last.mem.bufs id).next = (heap.mem.bufs id).next

theorem memrelbuf_released (heap : Heap) (mb : Nat) (done : Heap × List Event × Option Nat) (released : memrelbuf heap (some mb) = some done) :
    heap.live mb = true ∧ Released heap mb done.1 ∧ done.2.2 = (heap.mem.bufs mb).next ∧ ∃ freed, done.2.1 = [.dropped mb freed] := by
  unfold memrelbuf at released
  rw [Option.bind_some] at released
  dsimp only at released
  split_ifs at released with live ext
  · obtain rfl := Option.some.inj released
    exact ⟨live, ⟨memrelext_fresh heap.mem mb, rfl, memrelext_others heap.mem mb, memrelext_links heap.mem mb⟩, rfl, _, rfl⟩
  · obtain rfl := Option.some.inj released
    exact ⟨live, ⟨rfl, rfl, fun id other => rfl, fun id => rfl⟩, rfl, _, rfl⟩

theorem memrelbuf_returns (heap : Heap) (mb : Nat) (live : heap.live mb = true) : ∃ done, memrelbuf heap (some mb) = some done := by
  unfold memrelbuf
  rw [Option.bind_some, if_pos live]
  exact ⟨_, rfl⟩

theorem memrelbuf_told (area : Adr) (heap : Heap) (mb : Nat) (done : Heap × List Event × Option Nat) (released : memrelbuf heap (some mb) = some done) :
    Told area (ledger area heap) done.2.1 := by
  have counted : (ledger area heap).counts mb = some 1 ↔ Refers area heap mb ∧ (heap.mem.bufs mb).ext.nref = 1 := by
    unfold ledger storage Refers
    dsimp only
    split_ifs with live ext <;> simp_all
  have live := (memrelbuf_released heap mb done released).1
  unfold memrelbuf at released
  rw [Option.bind_some, if_pos live] at released
  obtain rfl := Option.some.inj released
  refine ⟨?_, trivial⟩
  rw [counted]
  unfold Refers
  split_ifs with ext
  · rw [memrelext_freed]
    simp [live, ext, and_comm]
  · simp [ext]

theorem memrelbuf_follows (area : Adr) (heap : Heap) (mb : Nat) (done : Heap × List Event × Option Nat) (wf : Wf heap)
    (released : memrelbuf heap (some mb) = some done) : Follows area heap done.2.1 done.1 := by
  obtain ⟨live, frame, -, freed, event⟩ := memrelbuf_released heap mb done released
  refine ⟨fun id present => ?_, memrelbuf_told area heap mb done released, ?_⟩
  · rw [frame.live, Function.update_apply] at present
    split_ifs at present
    exact frame.fresh ▸ wf id present
  · rw [event]
    simp only [List.foldl_cons, List.foldl_nil, play, ledger, frame.fresh, frame.live, Ledger.mk.injEq, true_and]
    funext id
    by_cases gone : id = mb
    · subst gone
      simp
    · rw [Function.update_of_ne gone, Function.update_of_ne gone, frame.others id gone]

theorem memrelaux_cases (heap : Heap) (mb : Nat) (done : Heap × List Event) (released : memrelaux heap mb = some done) :
    (ispkthdr (heap.mem.bufs mb) = false ∧ done = (heap, [])) ∨
      ispkthdr (heap.mem.bufs mb) = true ∧ ∃ aux freed, (heap.mem.bufs mb).pkt.aux = some aux ∧ memrelbuf heap (some aux) = some freed ∧
        done = ({ freed.1 with mem := freed.1.mem.set mb fun buf => { buf with pkt := { buf.pkt with aux := none } } }, freed.2.1) := by
  unfold memrelaux at released
  split_ifs at released with pkthdr
  · cases present : (heap.mem.bufs mb).pkt.aux with
    | none =>
        rw [present] at released
        cases released
    | some aux =>
        rw [present] at released
        obtain ⟨freed, taken, rfl⟩ := Option.map_eq_some_iff.mp released
        exact Or.inr ⟨pkthdr, aux, freed, rfl, taken, rfl⟩
  · exact Or.inl ⟨by simpa using pkthdr, (Option.some.inj released).symm⟩

theorem memrelaux_follows (area : Adr) (heap : Heap) (mb : Nat) (done : Heap × List Event) (wf : Wf heap)
    (released : memrelaux heap mb = some done) : Follows area heap done.2 done.1 := by
  obtain ⟨-, rfl⟩ | ⟨-, aux, freed, -, taken, rfl⟩ := memrelaux_cases heap mb done released
  · exact follows_nil area heap heap wf rfl rfl fun id => rfl
  · have early := memrelbuf_follows area heap aux freed wf taken
    have late := follows_nil area freed.1 { freed.1 with mem := freed.1.mem.set mb fun buf => { buf with pkt := { buf.pkt with aux := none } } }
      early.wf rfl rfl fun id => set_kept storage freed.1.mem mb id (fun buf => { buf with pkt := { buf.pkt with aux := none } }) fun buf => rfl
    simpa using follows_append area heap freed.1 _ _ _ early late

theorem memrelchain_follows (area : Adr) (fuel : Nat) (heap : Heap) (buf : Option Nat) (done : Heap × List Event) (wf : Wf heap)
    (released : memrelchain fuel heap buf = some done) : Follows area heap done.2 done.1 := by
  induction fuel generalizing heap buf done with
  | zero =>
      cases buf with
      | none =>
          obtain rfl := Option.some.inj released
          exact follows_nil area heap heap wf rfl rfl fun id => rfl
      | some mb => cases released
  | succ fuel ih =>
      cases buf with
      | none =>
          obtain rfl := Option.some.inj released
          exact follows_nil area heap heap wf rfl rfl fun id => rfl
      | some mb =>
          unfold memrelchain at released
          split_ifs at released with live
          simp only [Option.bind_eq_bind, Option.bind_eq_some_iff] at released
          obtain ⟨aux, first, next, second, rest, third, same⟩ := released
          obtain rfl := Option.some.inj same
          have early := memrelaux_follows area heap mb aux wf first
          have middle := memrelbuf_follows area aux.1 mb next early.wf second
          have late := ih next.1 next.2.2 rest middle.wf third
          exact follows_append area heap next.1 _ _ _ (follows_append area heap aux.1 _ _ _ early middle) late

theorem readied_setHi (mem next : Mem) (hi top : Option Nat) (mb : Nat) (readied : Readied mem next) : Readied mem (setHi next hi top mb).1 := by
  cases hi with
  | none => exact readied
  | some last => exact readied_set mem next last (fun buf => { buf with next := some mb }) readied fun buf => rfl

theorem copyStep_copyOf (mem : Mem) (cpyhdr : Bool) (ofs0 src ofs : Nat) (nb : Int) (hi top : Option Nat) (next : Mem × Option Nat)
    (old : src < mem.fresh) (copied : copyStep mem cpyhdr ofs0 src ofs nb hi top = some next) : CopyOf mem next.1 src := by
  unfold copyStep at copied
  obtain ⟨last, shared, rfl⟩ := Option.map_eq_some_iff.mp copied
  have linked := readied_setHi mem _ hi top mem.fresh (readied_getbuf mem (mem.bufs src).type)
  cases cpyhdr with
  | true =>
      rw [if_pos rfl] at shared
      have header := readied_set mem _ mem.fresh (fun copy => { copy with pkt := { copy.pkt with
        len := if nb = mbufcopyall then copy.pkt.len - ofs0 else nb } }) (readied_hdr mem _ src linked) fun buf => rfl
      have sized := readied_set mem _ mem.fresh (fun copy => { copy with len := min nb.toNat ((mem.bufs src).len - ofs) }) header fun buf => rfl
      exact copyOf_copybuf mem _ last src ofs sized old shared
  | false =>
      rw [if_neg Bool.false_ne_true] at shared
      have sized := readied_set mem _ mem.fresh (fun copy => { copy with len := min nb.toNat ((mem.bufs src).len - ofs) }) linked fun buf => rfl
      exact copyOf_copybuf mem _ last src ofs sized old shared

theorem memcpyfail_follows (area : Adr) (fuel : Nat) (heap : Heap) (hi top : Option Nat) (done : Heap × List Event) (wf : Wf heap)
    (released : memcpyfail fuel heap hi top = some done) : Follows area heap done.2 done.1 := by
  cases hi with
  | none => exact memrelchain_follows area fuel heap none done wf released
  | some last =>
      have cut := follows_nil area heap { heap with mem := heap.mem.set last fun buf => { buf with next := none } } wf rfl rfl
        fun id => set_kept storage heap.mem last id (fun buf => { buf with next := none }) fun buf => rfl
      have freed := memrelchain_follows area fuel _ top done cut.wf released
      simpa using follows_append area heap _ _ _ _ cut freed

theorem copyLoopFor_follows (area : Adr) (fuel avail : Nat) (heap : Heap) (cpyhdr : Bool) (ofs0 : Nat) (buf : Option Nat) (ofs : Nat) (nb : Int)
    (hi top : Option Nat) (done : Heap × List Event) (wf : Wf heap)
    (copied : copyLoopFor fuel avail heap cpyhdr ofs0 buf ofs nb hi top = some done) : Follows area heap done.2 done.1 := by
  induction fuel generalizing avail heap cpyhdr ofs0 buf ofs nb hi top done with
  | zero => cases copied
  | succ fuel ih =>
      unfold copyLoopFor at copied
      by_cases more : nb > 0
      · rw [if_pos more] at copied
        cases buf with
        | none =>
            obtain rfl := Option.some.inj copied
            exact follows_nil area heap heap wf rfl rfl fun id => rfl
        | some src =>
            rw [Option.elim_some] at copied
            by_cases dead : ¬heap.live src = true
            · rw [if_pos dead] at copied
              cases copied
            rw [if_neg dead] at copied
            have live : heap.live src = true := by simpa using dead
            cases avail with
            | zero => exact memcpyfail_follows area heap.mem.fresh heap hi top done wf copied
            | succ avail =>
                simp only [Option.bind_eq_bind, Option.bind_eq_some_iff] at copied
                obtain ⟨next, step, rest, onward, same⟩ := copied
                obtain rfl := Option.some.inj same
                have first := follows_copied area heap next.1 src wf live (copyStep_copyOf heap.mem cpyhdr ofs0 src ofs nb hi top next (wf src live) step)
                have later := ih avail _ false ofs0 _ 0 _ _ _ rest first.wf onward
                exact follows_append area heap _ _ [_] rest.2 first later
      · rw [if_neg more] at copied
        obtain rfl := Option.some.inj copied
        exact follows_nil area heap heap wf rfl rfl fun id => rfl

theorem pktLoopFor_follows (area : Adr) (fuel avail : Nat) (heap : Heap) (buf : Option Nat) (mb1 top : Nat) (done : Heap × List Event) (wf : Wf heap)
    (copied : pktLoopFor fuel avail heap buf mb1 top = some done) : Follows area heap done.2 done.1 := by
  induction fuel generalizing avail heap buf mb1 done with
  | zero => cases copied
  | succ fuel ih =>
      unfold pktLoopFor at copied
      cases buf with
      | none =>
          obtain rfl := Option.some.inj copied
          exact follows_nil area heap heap wf rfl rfl fun id => rfl
      | some src =>
          rw [Option.elim_some] at copied
          by_cases dead : ¬heap.live src = true
          · rw [if_pos dead] at copied
            cases copied
          rw [if_neg dead] at copied
          have live : heap.live src = true := by simpa using dead
          cases avail with
          | zero => exact memrelchain_follows area heap.mem.fresh heap (some top) done wf copied
          | succ avail =>
              simp only [Option.bind_eq_bind, Option.bind_eq_some_iff] at copied
              obtain ⟨next, step, rest, onward, same⟩ := copied
              obtain rfl := Option.some.inj same
              have linked := readied_set heap.mem _ mb1 (fun last => { last with next := some heap.mem.fresh })
                (readied_getbuf heap.mem (heap.mem.bufs src).type) fun buf => rfl
              have sized := readied_set heap.mem _ heap.mem.fresh (fun copy => { copy with len := (heap.mem.bufs src).len }) linked fun buf => rfl
              have first := follows_copied area heap next src wf live (copyOf_copybuf heap.mem _ next src 0 sized (wf src live) step)
              have later := ih avail _ _ _ rest first.wf onward
              exact follows_append area heap _ _ [_] rest.2 first later

theorem memcpychainFor_follows (area : Adr) (fuel avail : Nat) (heap : Heap) (buf ofs0 : Nat) (nb : Int) (done : Heap × List Event) (wf : Wf heap)
    (copied : memcpychainFor fuel avail heap buf ofs0 nb = some done) : Follows area heap done.2 done.1 := by
  unfold memcpychainFor at copied
  obtain ⟨place, -, looped⟩ := Option.bind_eq_some_iff.mp copied
  exact copyLoopFor_follows area fuel avail heap _ ofs0 place.1 place.2 nb none none done wf looped

theorem memcpypktFor_follows (area : Adr) (fuel avail : Nat) (heap : Heap) (buf : Nat) (done : Heap × List Event) (wf : Wf heap)
    (copied : memcpypktFor fuel avail heap buf = some done) : Follows area heap done.2 done.1 := by
  unfold memcpypktFor at copied
  by_cases dead : ¬heap.live buf = true
  · rw [if_pos dead] at copied
    cases copied
  rw [if_neg dead] at copied
  have live : heap.live buf = true := by simpa using dead
  cases avail with
  | zero => exact memrelchain_follows area fuel heap none done wf copied
  | succ avail =>
      simp only [Option.bind_eq_bind, Option.bind_eq_some_iff] at copied
      obtain ⟨next, step, rest, onward, same⟩ := copied
      obtain rfl := Option.some.inj same
      have header := readied_hdr heap.mem _ buf (readied_getbuf heap.mem (heap.mem.bufs buf).type)
      have sized := readied_set heap.mem _ heap.mem.fresh (fun copy => { copy with len := (heap.mem.bufs buf).len }) header fun buf => rfl
      have placed := readied_set heap.mem _ heap.mem.fresh
        (fun copy => { copy with data := (mbpktbuf heap.mem.fresh).add ((heap.mem.bufs buf).data.ofs - sizeofmempkt) }) sized fun buf => rfl
      have copy : CopyOf heap.mem next buf := by
        by_cases ext : isext (heap.mem.bufs buf) = true
        · rw [if_pos ext] at step
          exact copyOf_copybuf heap.mem _ next buf 0 sized (wf buf live) step
        · rw [if_neg ext] at step
          exact copyOf_copybuf heap.mem _ next buf 0 placed (wf buf live) step
      have first := follows_copied area heap next buf wf live copy
      have later := pktLoopFor_follows area fuel avail _ _ _ _ rest first.wf onward
      exact follows_append area heap _ _ [_] rest.2 first later

theorem storeStep_follows (area : Adr) (heap : Heap) (op : Op) (done : Heap × List Event) (wf : Wf heap) (taken : storeStep heap op = some done) :
    Follows area heap done.2 done.1 := by
  cases op with
  | cpychain buf ofs0 nb fuel avail => exact memcpychainFor_follows area fuel avail heap buf ofs0 nb done wf taken
  | cpypkt buf fuel avail => exact memcpypktFor_follows area fuel avail heap buf done wf taken
  | relbuf buf =>
      obtain ⟨freed, released, rfl⟩ := Option.map_eq_some_iff.mp taken
      exact memrelbuf_follows area heap buf freed wf released
  | relchain buf => exact memrelchain_follows area heap.mem.fresh heap (some buf) done wf taken

-- The mbufs that are released, in order, with the auxiliary mbuf of a packet before it.
def drops (heap : Heap) (items : List Nat) : List Nat := items.flatMap fun mb => auxof heap mb ++ [mb]

def Drops (events : List Event) (mbs : List Nat) : Prop := List.Forall₂ (fun event mb => ∃ freed, event = .dropped mb freed) events mbs

def Auxed (heap : Heap) (mb : Nat) : Prop := ispkthdr (heap.mem.bufs mb) = true → (heap.mem.bufs mb).pkt.aux ≠ none

-- The mbufs go in this order; when the bearer does, no other one refers to the area.
def GoesLast (refers : Nat → Prop) (bearer : Nat) (gone : List Nat) : Prop :=
  ∀ early late, gone = early ++ bearer :: late → ∀ id, refers id → id = bearer ∨ id ∈ early

theorem bearerLast_drops (refers : Nat → Prop) (bearer : Nat) (events : List Event) (mbs : List Nat) (dropped : Drops events mbs) :
    BearerLast refers bearer events ↔ GoesLast refers bearer mbs := by
  unfold GoesLast
  induction dropped generalizing refers with
  | nil => simp [BearerLast]
  | @cons event mb events mbs first rest ih =>
      obtain ⟨freed, rfl⟩ := first
      unfold BearerLast
      rw [bearing, ih]
      constructor
      · rintro ⟨now, later⟩ early late split id present
        cases early with
        | nil =>
            obtain ⟨same, -⟩ := List.cons.inj split
            exact Or.inl ((now same id present).trans same)
        | cons head early =>
            obtain ⟨rfl, tail⟩ := List.cons.inj split
            by_cases gone : id = mb
            · exact Or.inr (gone ▸ List.mem_cons_self)
            · exact (later early late tail id ⟨present, gone⟩).imp_right fun inside => List.mem_cons_of_mem mb inside
      · refine fun whole => ⟨fun same id present => ?_, fun early late split id present => ?_⟩
        · have only := whole [] mbs (by rw [same, List.nil_append]) id present
          exact (only.resolve_right List.not_mem_nil).trans same.symm
        · have found := whole (mb :: early) late (by rw [split, List.cons_append]) id present.1
          exact found.imp_right fun inside => (List.mem_cons.mp inside).resolve_left present.2

theorem memrelaux_none (heap : Heap) (mb : Nat) (missing : ¬Auxed heap mb) : memrelaux heap mb = none := by
  unfold Auxed at missing
  obtain ⟨pkthdr, absent⟩ := Classical.not_imp.mp missing
  unfold memrelaux
  rw [if_pos pkthdr, not_not.mp absent]
  rfl

theorem memrelaux_drops (heap : Heap) (mb : Nat) (auxed : Auxed heap mb) (live : ∀ id ∈ auxof heap mb, heap.live id = true) :
    ∃ done, memrelaux heap mb = some done ∧ Drops done.2 (auxof heap mb) ∧ (∀ id, (done.1.mem.bufs id).next = (heap.mem.bufs id).next) ∧
      ∀ id ∉ auxof heap mb, done.1.live id = heap.live id ∧ (id ≠ mb → done.1.mem.bufs id = heap.mem.bufs id) := by
  unfold memrelaux auxof hdraux at *
  by_cases pkthdr : ispkthdr (heap.mem.bufs mb) = true
  · simp only [if_pos pkthdr] at *
    obtain ⟨aux, present⟩ := Option.ne_none_iff_exists'.mp (auxed pkthdr)
    rw [present] at live ⊢
    obtain ⟨freed, taken⟩ := memrelbuf_returns heap aux (live aux (by simp))
    obtain ⟨-, frame, -, call, event⟩ := memrelbuf_released heap aux freed taken
    rw [taken, Option.map_some]
    refine ⟨_, rfl, ?_, fun id => ?_, fun id outside => ?_⟩
    · rw [event]
      exact List.Forall₂.cons ⟨call, rfl⟩ List.Forall₂.nil
    · rw [← frame.links id]
      by_cases same : id = mb
      · subst same
        simp [Mem.set]
      · simp [Mem.set, Function.update_of_ne same]
    · have other : id ≠ aux := fun same => outside (by simp [same])
      refine ⟨?_, fun apart => ?_⟩
      · exact (congrFun frame.live id).trans (Function.update_of_ne other _ _)
      · simp only [Mem.set, Function.update_of_ne apart]
        exact frame.others id other
  · simp only [if_neg pkthdr] at *
    exact ⟨_, rfl, List.Forall₂.nil, fun id => rfl, fun id _ => ⟨rfl, fun _ => rfl⟩⟩

theorem auxof_congr (heap last : Heap) (mb : Nat) (same : last.mem.bufs mb = heap.mem.bufs mb) : auxof last mb = auxof heap mb := by
  unfold auxof
  rw [same]

theorem mem_drops (heap : Heap) (items : List Nat) (mb : Nat) (inside : mb ∈ items) : mb ∈ drops heap items :=
  List.mem_flatMap.mpr ⟨mb, inside, by simp⟩

-- A chain of mbufs that are there, each of them once.
structure Releasable (heap : Heap) (buf : Option Nat) (items : List Nat) : Prop where
  seg : Chains.Seg (fun id => (heap.mem.bufs id).next) buf items none
  nodup : (drops heap items).Nodup
  live : ∀ id ∈ drops heap items, heap.live id = true

-- What releasing the first mbuf of a chain leaves of the rest.
structure Rest (heap : Heap) (items : List Nat) (last : Heap) (buf : Option Nat) : Prop where
  releasable : Releasable last buf items
  same : drops last items = drops heap items
  bufs : ∀ id ∈ items, last.mem.bufs id = heap.mem.bufs id

theorem releasable_rest (heap last : Heap) (mb : Nat) (items : List Nat) (releasable : Releasable heap (some mb) (mb :: items))
    (kept : ∀ id ∉ auxof heap mb ++ [mb], last.mem.bufs id = heap.mem.bufs id ∧ last.live id = heap.live id) :
    Rest heap items last (heap.mem.bufs mb).next := by
  obtain ⟨⟨-, seg⟩, nodup, live⟩ := releasable
  have whole : drops heap (mb :: items) = auxof heap mb ++ [mb] ++ drops heap items := rfl
  rw [whole] at nodup live
  obtain ⟨-, back, apart⟩ := List.nodup_append.mp nodup
  have others : ∀ id ∈ drops heap items, last.mem.bufs id = heap.mem.bufs id ∧ last.live id = heap.live id := fun id inside =>
    kept id fun early => apart id early id inside rfl
  have bufs : ∀ id ∈ items, last.mem.bufs id = heap.mem.bufs id := fun id inside => (others id (mem_drops heap items id inside)).1
  have same : drops last items = drops heap items := List.flatMap_congr fun id inside => by rw [auxof_congr heap last id (bufs id inside)]
  refine ⟨⟨?_, same ▸ back, ?_⟩, same, bufs⟩
  · exact Chains.seg_frame _ _ _ _ items seg fun id inside => by rw [bufs id inside]
  · rw [same]
    exact fun id inside => (others id inside).2.trans (live id (List.mem_append_right _ inside))

theorem memrelitem_drops (heap : Heap) (mb : Nat) (items : List Nat) (releasable : Releasable heap (some mb) (mb :: items)) (auxed : Auxed heap mb) :
    ∃ aux released, memrelaux heap mb = some aux ∧ memrelbuf aux.1 (some mb) = some released ∧
      Drops (aux.2 ++ released.2.1) (auxof heap mb ++ [mb]) ∧ Rest heap items released.1 released.2.2 := by
  have live : ∀ id ∈ auxof heap mb ++ [mb], heap.live id = true := fun id inside => releasable.live id (List.mem_append_left _ inside)
  have front : (auxof heap mb ++ [mb]).Nodup := (List.nodup_append.mp releasable.nodup).1
  have here : mb ∉ auxof heap mb := fun inside => (List.nodup_append.mp front).2.2 mb inside mb (by simp) rfl
  obtain ⟨aux, first, dropped, links, others⟩ := memrelaux_drops heap mb auxed fun id inside => live id (List.mem_append_left _ inside)
  have alive : aux.1.live mb = true := (others mb here).1.trans (live mb (by simp))
  obtain ⟨released, second⟩ := memrelbuf_returns aux.1 mb alive
  obtain ⟨-, frame, onward, call, event⟩ := memrelbuf_released aux.1 mb released second
  refine ⟨aux, released, first, second, ?_, ?_⟩
  · rw [event]
    exact List.rel_append dropped (List.Forall₂.cons ⟨call, rfl⟩ List.Forall₂.nil)
  · rw [onward, links mb]
    refine releasable_rest heap released.1 mb items releasable fun id outside => ?_
    have off : id ∉ auxof heap mb := fun early => outside (List.mem_append_left _ early)
    have other : id ≠ mb := fun same => outside (by simp [same])
    have before := others id off
    refine ⟨(frame.others id other).trans (before.2 other), ?_⟩
    rw [frame.live, Function.update_of_ne other, before.1]

theorem auxed_rest (heap last : Heap) (items : List Nat) (buf : Option Nat) (rest : Rest heap items last buf) :
    (∀ mb ∈ items, Auxed last mb) ↔ ∀ mb ∈ items, Auxed heap mb := by
  refine forall_congr' fun mb => forall_congr' fun inside => ?_
  unfold Auxed
  rw [rest.bufs mb inside]

-- The chain is released as long as every packet header on it has its auxiliary mbuf.
theorem memrelchain_drops (fuel : Nat) (heap : Heap) (buf : Option Nat) (items : List Nat) (releasable : Releasable heap buf items)
    (enough : items.length ≤ fuel) (auxed : ∀ mb ∈ items, Auxed heap mb) :
    ∃ done, memrelchain fuel heap buf = some done ∧ Drops done.2 (drops heap items) := by
  induction items generalizing fuel heap buf with
  | nil =>
      cases releasable.seg
      cases fuel <;> exact ⟨_, rfl, List.Forall₂.nil⟩
  | cons mb items ih =>
      obtain ⟨rfl, -⟩ := releasable.seg
      cases fuel with
      | zero => cases enough
      | succ fuel =>
          obtain ⟨aux, released, first, second, dropped, rest⟩ := memrelitem_drops heap mb items releasable (auxed mb List.mem_cons_self)
          have later := (auxed_rest heap released.1 items _ rest).mpr fun id inside => auxed id (List.mem_cons_of_mem mb inside)
          obtain ⟨done, third, others⟩ := ih fuel released.1 released.2.2 rest.releasable (Nat.le_of_succ_le_succ enough) later
          refine ⟨(done.1, aux.2 ++ released.2.1 ++ done.2), ?_, ?_⟩
          · unfold memrelchain
            rw [if_pos (releasable.live mb (mem_drops heap _ mb List.mem_cons_self))]
            simp only [Option.bind_eq_bind, first, second, third, Option.bind_some]
          · rw [rest.same] at others
            exact List.rel_append dropped others

theorem memrelchain_auxed (fuel : Nat) (heap : Heap) (buf : Option Nat) (items : List Nat) (done : Heap × List Event)
    (releasable : Releasable heap buf items) (released : memrelchain fuel heap buf = some done) : ∀ mb ∈ items, Auxed heap mb := by
  induction items generalizing fuel heap buf done with
  | nil => simp
  | cons mb items ih =>
      obtain ⟨rfl, -⟩ := releasable.seg
      cases fuel with
      | zero => cases released
      | succ fuel =>
          unfold memrelchain at released
          rw [if_pos (releasable.live mb (mem_drops heap _ mb List.mem_cons_self))] at released
          by_cases auxed : Auxed heap mb
          · obtain ⟨aux, next, first, second, -, rest⟩ := memrelitem_drops heap mb items releasable auxed
            simp only [Option.bind_eq_bind, first, second, Option.bind_some, Option.bind_eq_some_iff] at released
            obtain ⟨last, third, -⟩ := released
            have later := (auxed_rest heap next.1 items _ rest).mp (ih fuel next.1 next.2.2 last rest.releasable third)
            exact List.forall_mem_cons.mpr ⟨auxed, later⟩
          · rw [memrelaux_none heap mb auxed] at released
            cases released

theorem memrelext_hdraux (mem : Mem) (mb id : Nat) : hdraux ((memrelext mem mb).1.bufs id) = hdraux (mem.bufs id) := by
  have bit : ~~~mbufextbit &&& mbufpkthdrbit = mbufpkthdrbit := by decide
  have flags : ∀ flg : BitVec 64, flg &&& ~~~mbufextbit &&& mbufpkthdrbit = flg &&& mbufpkthdrbit := fun flg => by
    rw [BitVec.and_assoc, bit]
  by_cases same : id = mb
  · subst same
    unfold memrelext
    dsimp only
    split_ifs <;> simp [Mem.set, hdraux, ispkthdr, flags]
  · rw [memrelext_others mem mb id same]

theorem memrelbuf_auxof (heap : Heap) (mb : Nat) (done : Heap × List Event × Option Nat) (released : memrelbuf heap (some mb) = some done) (id : Nat) :
    auxof done.1 id = auxof heap id := by
  unfold memrelbuf at released
  rw [Option.bind_some] at released
  split_ifs at released with live ext
  all_goals obtain rfl := Option.some.inj released
  · exact memrelext_hdraux heap.mem mb id
  · rfl

-- What releasing the auxiliary mbuf leaves of the links and of the other headers.
theorem memrelaux_kept (heap : Heap) (mb : Nat) (done : Heap × List Event) (released : memrelaux heap mb = some done) :
    Drops done.2 (auxof heap mb) ∧ ∀ id, (done.1.mem.bufs id).next = (heap.mem.bufs id).next ∧ (id ≠ mb → auxof done.1 id = auxof heap id) := by
  obtain ⟨plain, rfl⟩ | ⟨pkthdr, aux, freed, present, taken, rfl⟩ := memrelaux_cases heap mb done released
  · refine ⟨?_, fun id => ⟨rfl, fun _ => rfl⟩⟩
    unfold auxof hdraux
    rw [if_neg (by simp [plain])]
    exact List.Forall₂.nil
  · obtain ⟨-, frame, -, call, event⟩ := memrelbuf_released heap aux freed taken
    refine ⟨?_, fun id => ⟨?_, fun other => ?_⟩⟩
    · unfold auxof hdraux
      rw [if_pos pkthdr, present, event]
      exact List.Forall₂.cons ⟨call, rfl⟩ List.Forall₂.nil
    · exact (set_kept Membuf.next freed.1.mem mb id (fun buf => { buf with pkt := { buf.pkt with aux := none } }) fun buf => rfl).trans (frame.links id)
    · rw [← memrelbuf_auxof heap aux freed taken id]
      unfold auxof
      simp only [Mem.set, Function.update_of_ne other]

theorem memrelchain_plain (fuel : Nat) (heap : Heap) (buf : Option Nat) (items : List Nat) (done : Heap × List Event)
    (seg : Chains.Seg (fun id => (heap.mem.bufs id).next) buf items none) (plain : ∀ id ∈ items, auxof heap id = [])
    (released : memrelchain fuel heap buf = some done) : Drops done.2 items := by
  induction items generalizing fuel heap buf done with
  | nil =>
      cases seg
      cases fuel with
      | zero =>
          obtain rfl := Option.some.inj released
          exact List.Forall₂.nil
      | succ fuel =>
          obtain rfl := Option.some.inj released
          exact List.Forall₂.nil
  | cons mb items ih =>
      obtain ⟨rfl, behind⟩ := seg
      cases fuel with
      | zero => cases released
      | succ fuel =>
          unfold memrelchain at released
          split_ifs at released with live
          simp only [Option.bind_eq_bind, Option.bind_eq_some_iff] at released
          obtain ⟨aux, first, next, second, rest, third, same⟩ := released
          obtain rfl := Option.some.inj same
          obtain ⟨dropped, -⟩ := memrelaux_kept heap mb aux first
          obtain ⟨-, rfl⟩ | ⟨pkthdr, other, -, present, -⟩ := memrelaux_cases heap mb aux first
          · obtain ⟨-, frame, onward, call, event⟩ := memrelbuf_released heap mb next second
            have later := ih fuel next.1 next.2.2 rest ?_ (fun id inside => ?_) third
            · rw [event]
              exact List.Forall₂.cons ⟨call, rfl⟩ later
            · rw [onward]
              exact Chains.seg_frame _ _ _ _ items behind fun id _ => frame.links id
            · exact (memrelbuf_auxof heap mb next second id).trans (plain id (List.mem_cons_of_mem mb inside))
          · have bare := plain mb List.mem_cons_self
            unfold auxof hdraux at bare
            rw [if_pos pkthdr, present] at bare
            cases bare

theorem made_seg (first : Mem) (aux : List Nat) (heap : Heap) (place count : Nat) (made : Made first aux heap) (low : first.fresh ≤ place)
    (size : place + count + 1 = heap.mem.fresh) :
    Chains.Seg (fun id => (heap.mem.bufs id).next) (some place) (List.range' place (count + 1)) none := by
  induction count generalizing place with
  | zero =>
      have bare := made.last (by omega)
      have last : heap.mem.fresh - 1 = place := by omega
      rw [last] at bare
      exact single_seg heap.mem place bare
  | succ count ih =>
      have link : (heap.mem.bufs place).next = some (place + 1) := by
        rw [made.links place (Or.inr (by omega))]
        exact if_neg (Nat.not_lt_of_le low)
      refine ⟨rfl, ?_⟩
      dsimp only
      rw [link]
      exact ih (place + 1) (Nat.le_succ_of_le low) (by omega)

-- What has been copied is given back in the order it was made in, behind the auxiliary mbuf of the header.
theorem memrelchain_made (first : Mem) (aux : List Nat) (fuel : Nat) (heap : Heap) (count : Nat) (done : Heap × List Event) (made : Made first aux heap)
    (size : heap.mem.fresh = first.fresh + count) (released : memrelchain fuel heap (madeTop first heap) = some done) :
    Drops done.2 (if count = 0 then [] else aux ++ List.range' first.fresh count) := by
  unfold madeTop at released
  cases count with
  | zero =>
      rw [if_neg (by omega)] at released
      rw [if_pos rfl]
      exact memrelchain_plain fuel heap none [] done rfl (by simp) released
  | succ count =>
      have more : first.fresh < heap.mem.fresh := by omega
      rw [if_pos more] at released
      rw [if_neg (Nat.succ_ne_zero count), ← made.head more]
      obtain ⟨-, behind⟩ := made_seg first aux heap first.fresh count made (Nat.le_refl _) (by omega)
      cases fuel with
      | zero => cases released
      | succ fuel =>
          unfold memrelchain at released
          split_ifs at released with live
          simp only [Option.bind_eq_bind, Option.bind_eq_some_iff] at released
          obtain ⟨given, one, next, two, rest, three, same⟩ := released
          obtain rfl := Option.some.inj same
          obtain ⟨dropped, kept⟩ := memrelaux_kept heap first.fresh given one
          obtain ⟨-, frame, onward, call, event⟩ := memrelbuf_released given.1 first.fresh next two
          have later : Drops rest.2 (List.range' (first.fresh + 1) count) := by
            refine memrelchain_plain fuel next.1 next.2.2 _ rest ?_ (fun id inside => ?_) three
            · rw [onward, (kept first.fresh).1]
              exact Chains.seg_frame _ _ _ _ _ behind fun id _ => (frame.links id).trans (kept id).1
            · obtain ⟨low, high⟩ := List.mem_range'_1.mp inside
              have other : id ≠ first.fresh := by omega
              exact (memrelbuf_auxof given.1 first.fresh next two id).trans (((kept id).2 other).trans (made.auxes id (by omega) (by omega)))
          rw [event, List.append_assoc]
          exact List.rel_append dropped (List.Forall₂.cons ⟨call, rfl⟩ later)

theorem bearerLast_copies (refers : Nat → Prop) (bearer fresh : Nat) (srcs : List Nat) (events : List Event) :
    BearerLast refers bearer (copies fresh srcs ++ events) ↔
      BearerLast ((copies fresh srcs).foldl referring refers) ((copies fresh srcs).foldl bearing bearer) events := by
  induction srcs generalizing refers bearer fresh with
  | nil => exact Iff.rfl
  | cons src srcs ih =>
      rw [copies_cons]
      exact ih _ _ _

theorem releasable_length (heap : Heap) (buf : Option Nat) (items : List Nat) (wf : Wf heap) (releasable : Releasable heap buf items) :
    items.length ≤ heap.mem.fresh := by
  have once : items.Nodup := by
    refine releasable.nodup.sublist ?_
    have each := List.Sublist.flatMap_right items fun mb _ => List.sublist_append_right (auxof heap mb) [mb]
    rwa [List.flatMap_singleton'] at each
  have below : items ⊆ List.range heap.mem.fresh := fun id inside =>
    List.mem_range.mpr (wf id (releasable.live id (mem_drops heap items id inside)))
  simpa using (List.subperm_of_subset once below).length_le

-- A run keeps account of the bearer.
def watched (state : Heap × Nat) (op : Op) : Option (Heap × Nat) :=
  (storeStep state.1 op).map fun done => (done.1, done.2.foldl bearing state.2)

-- What is released is there.
def Permitted (state : Heap × Nat) : Op → Prop
  | .relbuf buf => state.1.live buf = true
  | .relchain buf => ∃ items, Releasable state.1 (some buf) items
  | .cpychain .. => True
  | .cpypkt .. => True

def Releases : Op → Prop
  | .relbuf _ => True
  | .relchain _ => True
  | .cpychain .. => False
  | .cpypkt .. => False

-- A release returns, and a call frees the area exactly where the last mbuf that refers
-- to it goes.
def FreedWithLast (area : Adr) (state : Heap × Nat) (op : Op) : Prop :=
  (Releases op → storeStep state.1 op ≠ none) ∧
    ∀ done, storeStep state.1 op = some done → Exact area (Refers area state.1) done.2

-- What a copy gives back where there is no memory for the rest of it.
def givenBack (heap : Heap) (op : Op) : List Nat :=
  if (reads heap op).1.length = 0 then [] else headaux heap op ++ List.range' heap.mem.fresh (reads heap op).1.length

-- Where a copy runs out of mbufs, each of those that it has read before is copied by then.
def CopyGoesLast (area : Adr) (state : Heap × Nat) (op : Op) : Prop :=
  (reads state.1 op).2 = true → GoesLast ((copies state.1.mem.fresh (reads state.1 op).1).foldl referring (Refers area state.1))
    ((copies state.1.mem.fresh (reads state.1 op).1).foldl bearing state.2) (givenBack state.1 op)

-- The bearer goes last, and every packet on a chain to be released has an auxiliary
-- mbuf. A copy that faults ends the run.
def BearerGoesLast (area : Adr) (state : Heap × Nat) : Op → Prop
  | .relbuf buf => buf = state.2 → ∀ id, Refers area state.1 id → id = buf
  | .relchain buf => ∀ items, Releasable state.1 (some buf) items → (∀ mb ∈ items, Auxed state.1 mb) ∧
      GoesLast (Refers area state.1) state.2 (drops state.1 items)
  | op => storeStep state.1 op ≠ none → CopyGoesLast area state op

structure Tallied (area : Adr) (state : Heap × Nat) : Prop where
  wf : Wf state.1
  lined : Lined (ledger area state.1) (Refers area state.1) state.2

theorem copyGoesLast_iff (area : Adr) (state : Heap × Nat) (op : Op) (done : Heap × List Event)
    (rounds : Rounds state.1.mem (headaux state.1 op) state.1.mem.fresh (reads state.1 op) done.2) :
    BearerLast (Refers area state.1) state.2 done.2 ↔ CopyGoesLast area state op := by
  obtain ⟨back, same, ended, spent⟩ := rounds
  rw [same, bearerLast_copies]
  unfold CopyGoesLast
  cases more : (reads state.1 op).2 with
  | false =>
      rw [ended more]
      exact iff_of_true trivial fun absent => absurd absent (by simp)
  | true =>
      obtain ⟨last, fuel, result, made, size, released, rfl⟩ := spent more
      have given := memrelchain_made state.1.mem _ fuel last _ result made size released
      rw [bearerLast_drops _ _ _ _ given]
      exact ⟨fun goes _ => goes, fun goes => goes rfl⟩

theorem freedWithLast_iff (area : Adr) (state : Heap × Nat) (op : Op) (tallied : Tallied area state) (permitted : Permitted state op) :
    FreedWithLast area state op ↔ BearerGoesLast area state op := by
  have events : ∀ done, storeStep state.1 op = some done →
      (Exact area (Refers area state.1) done.2 ↔ BearerLast (Refers area state.1) state.2 done.2) := fun done taken =>
    exact_iff area _ _ state.2 done.2 tallied.lined (storeStep_follows area state.1 op done tallied.wf taken).told
  have copy : (∀ done, storeStep state.1 op = some done →
      Rounds state.1.mem (headaux state.1 op) state.1.mem.fresh (reads state.1 op) done.2) →
      ((∀ done, storeStep state.1 op = some done → Exact area (Refers area state.1) done.2) ↔
        (storeStep state.1 op ≠ none → CopyGoesLast area state op)) := fun rounds => by
    refine ⟨fun whole returns => ?_, fun goes done taken => ?_⟩
    · obtain ⟨done, taken⟩ := Option.ne_none_iff_exists'.mp returns
      exact (copyGoesLast_iff area state op done (rounds done taken)).mp ((events done taken).mp (whole done taken))
    · have returns : storeStep state.1 op ≠ none := taken ▸ Option.some_ne_none done
      exact (events done taken).mpr ((copyGoesLast_iff area state op done (rounds done taken)).mpr (goes returns))
  unfold FreedWithLast
  cases op with
  | cpychain buf ofs0 nb fuel avail =>
      have same := copy fun done taken => memcpychainFor_reads fuel avail state.1 buf ofs0 nb done tallied.wf taken
      exact ⟨fun whole => same.mp whole.2, fun goes => ⟨False.elim, same.mpr goes⟩⟩
  | cpypkt buf fuel avail =>
      have same := copy fun done taken => memcpypktFor_reads fuel avail state.1 buf done tallied.wf taken
      exact ⟨fun whole => same.mp whole.2, fun goes => ⟨False.elim, same.mpr goes⟩⟩
  | relbuf buf =>
      obtain ⟨freed, released⟩ := memrelbuf_returns state.1 buf permitted
      obtain ⟨-, -, -, call, event⟩ := memrelbuf_released state.1 buf freed released
      have taken : storeStep state.1 (.relbuf buf) = some (freed.1, freed.2.1) := by
        simp only [storeStep, released, Option.map_some]
      have once := events _ taken
      rw [taken]
      rw [event] at once ⊢
      simp only [Option.some.injEq, forall_eq']
      rw [once]
      simp [BearerGoesLast, BearerLast]
  | relchain buf =>
      have bound : ∀ items, Releasable state.1 (some buf) items → items.length ≤ state.1.mem.fresh := fun items releasable =>
        releasable_length state.1 (some buf) items tallied.wf releasable
      constructor
      · rintro ⟨returns, freed⟩ items releasable
        obtain ⟨done, taken⟩ := Option.ne_none_iff_exists'.mp (returns trivial)
        have auxed := memrelchain_auxed _ state.1 (some buf) items done releasable taken
        obtain ⟨other, same, dropped⟩ := memrelchain_drops _ state.1 (some buf) items releasable (bound items releasable) auxed
        obtain rfl := Option.some.inj (taken.symm.trans same)
        exact ⟨auxed, (bearerLast_drops _ state.2 done.2 _ dropped).mp ((events done taken).mp (freed done taken))⟩
      · intro last
        obtain ⟨items, releasable⟩ := permitted
        obtain ⟨auxed, order⟩ := last items releasable
        obtain ⟨done, taken, dropped⟩ := memrelchain_drops _ state.1 (some buf) items releasable (bound items releasable) auxed
        have exact_drops := (events done taken).mpr ((bearerLast_drops _ state.2 done.2 _ dropped).mpr order)
        refine ⟨fun _ => Option.ne_none_iff_exists'.mpr ⟨done, taken⟩, fun other same => ?_⟩
        obtain rfl := Option.some.inj (taken.symm.trans same)
        exact exact_drops

theorem tallied_step (area : Adr) (state next : Heap × Nat) (op : Op) (tallied : Tallied area state)
    (freed : FreedWithLast area state op) (taken : watched state op = some next) : Tallied area next := by
  obtain ⟨done, stepped, rfl⟩ := Option.map_eq_some_iff.mp taken
  have follows := storeStep_follows area state.1 op done tallied.wf stepped
  have last := (exact_iff area _ _ state.2 done.2 tallied.lined follows.told).mp (freed.2 done stepped)
  have lined := lined_events area _ _ state.2 done.2 tallied.lined follows.told last
  rw [← follows.played] at lined
  have same : done.2.foldl referring (Refers area state.1) = Refers area done.1 := by
    funext id
    exact propext ((lined.refer id).trans (refers_iff area done.1 id).symm)
  exact ⟨follows.wf, same ▸ lined⟩

theorem tallied_memsetext (area : Adr) (heap : Heap) (buf : Nat) (size : Int) (rel args : Nat) (type : Int) (flg : BitVec 64) (wf : Wf heap)
    (live : heap.live buf = true) (one : (heap.mem.bufs buf).ext.nref = 1) (alone : ∀ id, Refers area heap id → id = buf) :
    Tallied area (⟨memsetext heap.mem buf area size rel args type flg, heap.live⟩, buf) := by
  have ext : isext ((memsetext heap.mem buf area size rel args type flg).bufs buf) = true := by
    simp only [memsetext, Mem.set, Function.update_self, isext, mbufextbit, decide_eq_true_eq]
    intro zero
    have bit := congrArg (fun word : BitVec 64 => word.getLsbD 0) zero
    simp at bit
  have counts : ∀ id, (ledger area ⟨memsetext heap.mem buf area size rel args type flg, heap.live⟩).counts id = if id = buf then some 1 else none := fun id => by
    by_cases same : id = buf
    · subst same
      rw [if_pos rfl]
      unfold ledger storage
      dsimp only
      rw [if_pos live, if_pos ext]
      simp [memsetext, Mem.set, one]
    · have other := mt (refers_iff area heap id).mpr (mt (alone id) same)
      rw [not_not] at other
      simpa [ledger, memsetext, Mem.set, Function.update_of_ne same, same] using other
  refine ⟨wf, fun id => refers_iff area _ id, fun id present => wf id present.1, fun id c present => ?_, fun id c present => ?_, fun id present => ?_⟩
  · rw [counts] at present
    split_ifs at present
    exact Int.le_of_eq (Option.some.inj present)
  · rw [counts] at present
    split_ifs at present with same
    exact iff_of_true (Option.some.inj present).symm same
  · rw [refers_iff, counts, if_pos rfl]
    exact Option.some_ne_none 1

-- SMP is 0, so the counts are plain words.
theorem ext_release_iff (area : Adr) (heap : Heap) (buf : Nat) (size : Int) (rel args : Nat) (type : Int) (flg : BitVec 64) (ops : List Op)
    (wf : Wf heap) (live : heap.live buf = true) (one : (heap.mem.bufs buf).ext.nref = 1) (alone : ∀ id, Refers area heap id → id = buf)
    (permitted : Meets watched Permitted (⟨memsetext heap.mem buf area size rel args type flg, heap.live⟩, buf) ops) :
    Meets watched (FreedWithLast area) (⟨memsetext heap.mem buf area size rel args type flg, heap.live⟩, buf) ops ↔
      Meets watched (BearerGoesLast area) (⟨memsetext heap.mem buf area size rel args type flg, heap.live⟩, buf) ops := by
  refine meets_congr watched (Tallied area) Permitted _ _ ?_ ?_ _ ops (tallied_memsetext area heap buf size rel args type flg wf live one alone) permitted
  · exact fun state op next tallied allowed last taken =>
      tallied_step area state next op tallied ((freedWithLast_iff area state op tallied allowed).mpr last) taken
  · exact fun state op tallied allowed => freedWithLast_iff area state op tallied allowed

def area : Adr := ⟨.ext 0, 0⟩

-- One mbuf with a count of one and no storage yet.
def lone : Heap :=
  ⟨⟨fun _ => ⟨⟨.ext 1, 0⟩, 100, 0, 0, none, none, ⟨0, 0, none, 0, 0, none⟩, ⟨⟨.ext 1, 0⟩, 1, 0, 0, 0, 0⟩⟩, ⟨fun _ _ => 0, fun _ => mbufdatalen⟩, 1⟩,
    fun id => id == 0⟩

def attached : Heap := ⟨memsetext lone.mem 0 area 2048 7 0 2 0, lone.live⟩

theorem copy_released_first : Meets watched Permitted (attached, 0) [.cpychain 0 0 100 2 1, .relbuf 1] ∧
    ¬Meets watched (FreedWithLast area) (attached, 0) [.cpychain 0 0 100 2 1, .relbuf 1] := by
  constructor
  · refine ⟨trivial, fun next taken => ⟨?_, fun next taken => trivial⟩⟩
    obtain rfl := Option.some.inj taken
    rfl
  · intro meets
    have freed := ((meets.2 _ rfl).1.2 _ rfl).1.mp ⟨.rel 7 area 0, rfl, rfl⟩
    exact absurd (freed.2 0 ⟨rfl, rfl, rfl⟩) (by decide)

theorem source_released_first : Meets watched (FreedWithLast area) (attached, 0) [.cpychain 0 0 100 2 1, .relbuf 0, .relbuf 1] := by
  have wf : Wf lone := fun id present => by
    have zero : id = 0 := by simpa [lone] using present
    exact zero ▸ Nat.one_pos
  refine (ext_release_iff area lone 0 2048 7 0 2 0 _ wf rfl rfl (fun id refers => by simpa [lone] using refers.1) ?_).mpr ?_
  · refine ⟨trivial, fun next taken => ?_⟩
    obtain rfl := Option.some.inj taken
    refine ⟨rfl, fun next taken => ?_⟩
    obtain rfl := Option.some.inj taken
    exact ⟨rfl, fun next taken => trivial⟩
  · refine ⟨fun _ spent => absurd spent (by decide), fun next taken => ?_⟩
    · obtain rfl := Option.some.inj taken
      refine ⟨fun same => absurd same (by decide), fun next taken => ?_⟩
      obtain rfl := Option.some.inj taken
      refine ⟨fun _ id refers => ?_, fun next taken => trivial⟩
      have live : Function.update (Function.update lone.live 1 true) 0 false id = true := refers.1
      by_contra other
      rw [Function.update_apply, Function.update_of_ne other] at live
      split_ifs at live with zero
      exact zero (by simpa [lone] using live)

end OsZero.Mbuf.Sharing

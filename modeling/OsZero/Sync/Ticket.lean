import Mathlib.Data.BitVec
import Mathlib.Data.Fintype.Card
import OsZero.Lib.Threads
import OsZero.Sync.Atomic

set_option autoImplicit false

namespace OsZero.Sync.Ticket

open Runs Threads

variable {Thread : Type} [DecidableEq Thread]

-- The union of the word uval with the two counters, on a little-endian machine
-- with words of eight bytes. drawn and got are no part of the lock: the threads
-- in the order in which they drew tickets and in which they obtained it.
structure Tktlk (Thread : Type) where
  val : BitVec 32
  nref : BitVec 32
  drawn : List Thread
  got : List Thread

def Tktlk.uval (tp : Tktlk Thread) : BitVec 64 := tp.nref ++ tp.val

def Tktlk.setuval (tp : Tktlk Thread) (uval : BitVec 64) : Tktlk Thread :=
  { tp with val := uval.extractLsb' 0 32, nref := uval.extractLsb' 32 32 }

-- What a thread does next. Held is the time between a return that says that the
-- lock is held and the call of tktunlk.
inductive Pc where
  | out
  | spin (val : BitVec 32)
  | trylk (val : BitVec 32)
  | held
  | unlk
  | store (val : BitVec 32)
deriving DecidableEq

-- eax is what the register holds when the ticket is drawn.
inductive Call where
  | tktlk (eax : BitVec 32)
  | tkttrylk
deriving DecidableEq

-- The xadd of m_xaddu32 has the addend as an output only, so the 1 that tktlk
-- passes is never loaded: the counter grows by whatever eax holds. The old
-- counter comes back in eax.
def m_xaddu32 (p eax : BitVec 32) : BitVec 32 × BitVec 32 := (p + eax, p)

def tktdraw (thread : Thread) (eax : BitVec 32) (tp : Tktlk Thread) : Tktlk Thread × Pc :=
  ({ tp with nref := (m_xaddu32 tp.nref eax).1, drawn := tp.drawn ++ [thread] }, .spin (m_xaddu32 tp.nref eax).2)

def tktspin (thread : Thread) (tp : Tktlk Thread) (val : BitVec 32) : Tktlk Thread × Pc :=
  if tp.val ≠ val then (tp, .spin val) else ({ tp with got := tp.got ++ [thread] }, .held)

def trycmp (val : BitVec 32) : BitVec 64 := (val.setWidth 64 <<< 32) ||| val.setWidth 64

def trynew (val : BitVec 32) : BitVec 64 := ((val.setWidth 64 + 1) <<< 32) ||| val.setWidth 64

-- The result of m_cmpswapu is compared with the expected word.
def trypassed (tp : Tktlk Thread) (val : BitVec 32) : Bool :=
  (if (mcmpswap tp.uval (trycmp val) (trynew val)).2 then 1 else 0 : BitVec 64) == trycmp val

def trytakes (tp : Tktlk Thread) (val : BitVec 32) : Bool := (mcmpswap tp.uval (trycmp val) (trynew val)).2

def tktswap (thread : Thread) (tp : Tktlk Thread) (val : BitVec 32) : Tktlk Thread × Pc :=
  let next := tp.setuval (mcmpswap tp.uval (trycmp val) (trynew val)).1
  (if trytakes tp val then { next with drawn := tp.drawn ++ [thread], got := tp.got ++ [thread] } else next,
    if trypassed tp val then .held else .out)

-- tp->s.val++ is a load and a store.
def tktstep (op : Thread × Call) (tp : Tktlk Thread) (pc : Pc) : Tktlk Thread × Pc :=
  match pc with
  | .out =>
      match op.2 with
      | .tktlk eax => tktdraw op.1 eax tp
      | .tkttrylk => (tp, .trylk tp.nref)
  | .spin val => tktspin op.1 tp val
  | .trylk val => tktswap op.1 tp val
  | .held => (tp, .unlk)
  | .unlk => (tp, .store tp.val)
  | .store val => ({ tp with val := val + 1 }, .out)

-- A lock whose counters have come round to the same number.
def start (count : BitVec 32) : World Thread (Tktlk Thread) Pc := ⟨⟨count, count, [], []⟩, fun _ => .out⟩

def Pc.holds : Pc → Bool
  | .held => true
  | .unlk => true
  | .store _ => true
  | _ => false

structure Good (world : World Thread (Tktlk Thread) Pc) : Prop where
  exclusive : ∀ one two, (world.own one).holds = true → (world.own two).holds = true → one = two
  fifo : world.shared.got <+: world.shared.drawn

-- The step that decides a tkttrylk: it returns 1 exactly when it has taken the
-- ticket that is being served, and leaves the word alone when it returns 0.
def Tried (world : World Thread (Tktlk Thread) Pc) (op : Thread × Call) : Prop :=
  ∀ val, world.own op.1 = .trylk val →
    (trypassed world.shared val = true ↔ trytakes world.shared val = true) ∧
      (trypassed world.shared val = false → (after Prod.fst tktstep world op).shared.uval = world.shared.uval)

def Call.adds : Call → Bool
  | .tktlk eax => eax == 1
  | .tkttrylk => true

def Pc.sound (tp : Tktlk Thread) (call : Call) : Pc → Bool
  | .out => call.adds
  | .trylk val => val != 0 && tp.uval != trycmp val
  | _ => true

-- A draw adds 1, and a tkttrylk makes its compare-and-swap with a ticket other
-- than 0, and it fails.
def Sound (world : World Thread (Tktlk Thread) Pc) (op : Thread × Call) : Prop :=
  (world.own op.1).sound world.shared op.2 = true

instance (world : World Thread (Tktlk Thread) Pc) (op : Thread × Call) : Decidable (Sound world op) :=
  inferInstanceAs (Decidable (_ = true))

structure Placed (count : BitVec 32) (tp : Tktlk Thread) (holder : Option Thread) (waiting : List Thread) (thread : Thread) (pc : Pc) :
    Prop where
  ticket : ∀ val, pc = .spin val →
    ∃ place, waiting[place]? = some thread ∧ val = count + BitVec.ofNat 32 (tp.got.length + place)
  spins : thread ∈ waiting → ∃ val, pc = .spin val
  holds : pc.holds = true ↔ holder = some thread
  stores : ∀ val, pc = .store val → val = tp.val

-- The threads that wait are those that have drawn a ticket and not obtained the
-- lock yet, each with the number of its place.
structure Queued (count : BitVec 32) (world : World Thread (Tktlk Thread) Pc) (holder : Option Thread) (waiting : List Thread) :
    Prop where
  order : world.shared.drawn = world.shared.got ++ waiting
  single : waiting.Nodup
  nref : world.shared.nref = count + BitVec.ofNat 32 world.shared.drawn.length
  served : world.shared.val + BitVec.ofNat 32 holder.toList.length = count + BitVec.ofNat 32 world.shared.got.length
  placed : ∀ thread, Placed count world.shared holder waiting thread (world.own thread)

def Inv (count : BitVec 32) (world : World Thread (Tktlk Thread) Pc) : Prop := ∃ holder waiting, Queued count world holder waiting

omit [DecidableEq Thread] in
theorem queued_good (count : BitVec 32) (world : World Thread (Tktlk Thread) Pc) (inv : Inv count world) : Good world := by
  obtain ⟨holder, waiting, queued⟩ := inv
  constructor
  · intro one two left right
    have first := (queued.placed one).holds.mp left
    have second := (queued.placed two).holds.mp right
    rw [first] at second
    exact Option.some.inj second
  · exact ⟨waiting, queued.order.symm⟩

-- The counters differ by less than 2^32, so equal numbers are the same ticket.
theorem place_served (count val : BitVec 32) (got place held : Nat) (bound : place + held < 2 ^ 32)
    (served : val + BitVec.ofNat 32 held = count + BitVec.ofNat 32 got) (drawn : val = count + BitVec.ofNat 32 (got + place)) :
    place = 0 ∧ held = 0 := by
  have whole : count + BitVec.ofNat 32 (got + (place + held)) = count + BitVec.ofNat 32 got := by
    rw [← Nat.add_assoc, BitVec.ofNat_add (got + place), ← BitVec.add_assoc, ← drawn, served]
  have same := congrArg BitVec.toNat whole
  simp only [BitVec.toNat_add, BitVec.toNat_ofNat] at same
  omega

theorem trycmp_nonzero (val : BitVec 32) (nonzero : val ≠ 0) : trycmp val ≠ 0 := by
  intro zero
  apply nonzero
  have low := congrArg BitVec.toNat (BitVec.or_eq_zero_iff.mp zero).2
  have small := val.isLt
  simp only [BitVec.toNat_setWidth, BitVec.toNat_zero] at low
  apply BitVec.eq_of_toNat_eq
  change val.toNat = 0
  omega

theorem low_half (width : Nat) (high low : BitVec width) : (high ++ low).extractLsb' 0 width = low := by
  apply BitVec.eq_of_getLsbD_eq
  intro i small
  simp [BitVec.getLsbD_append, small]

theorem high_half (width : Nat) (high low : BitVec width) : (high ++ low).extractLsb' width width = high := by
  apply BitVec.eq_of_getLsbD_eq
  intro i small
  rw [BitVec.getLsbD_extractLsb', BitVec.getLsbD_append]
  simp [small]

omit [DecidableEq Thread] in
theorem setuval_uval (tp : Tktlk Thread) : tp.setuval tp.uval = tp := by
  have low : tp.uval.extractLsb' 0 32 = tp.val := low_half 32 tp.nref tp.val
  have high : tp.uval.extractLsb' 32 32 = tp.nref := high_half 32 tp.nref tp.val
  rw [Tktlk.setuval, low, high]

omit [DecidableEq Thread] in
theorem swap_fails (tp : Tktlk Thread) (call : Call) (val : BitVec 32) (sound : (Pc.trylk val).sound tp call = true) :
    trytakes tp val = false ∧ trypassed tp val = false := by
  obtain ⟨nonzero, other⟩ := Bool.and_eq_true_iff.mp sound
  have failed : (mcmpswap tp.uval (trycmp val) (trynew val)).2 = false := by
    rw [cmpswap_other _ _ _ (by simpa using other)]
  constructor
  · exact failed
  · have different := (trycmp_nonzero val (by simpa using nonzero)).symm
    simpa [trypassed, failed] using different

omit [DecidableEq Thread] in
theorem swap_quiet (thread : Thread) (tp : Tktlk Thread) (call : Call) (val : BitVec 32)
    (sound : (Pc.trylk val).sound tp call = true) :
    tktswap thread tp val = (tp, .out) := by
  obtain ⟨takes, passed⟩ := swap_fails tp call val sound
  have other := (Bool.and_eq_true_iff.mp sound).2
  rw [tktswap, takes, passed, cmpswap_other _ _ _ (by simpa using other)]
  simp [setuval_uval]

theorem queued_moved (count : BitVec 32) (world : World Thread (Tktlk Thread) Pc) (holder : Option Thread) (waiting : List Thread)
    (thread : Thread) (next : Pc) (queued : Queued count world holder waiting) (before : ∀ val, world.own thread ≠ .spin val)
    (away : ∀ val, next ≠ .spin val) (holds : next.holds = (world.own thread).holds)
    (stores : ∀ val, next = .store val → val = world.shared.val) :
    Queued count (world.put thread (world.shared, next)) holder waiting where
  order := queued.order
  single := queued.single
  nref := queued.nref
  served := queued.served
  placed := by
    apply put_all world thread _ (Placed count world.shared holder waiting)
    · have old := queued.placed thread
      constructor
      · exact fun val spins => absurd spins (away val)
      · intro waits
        obtain ⟨val, spins⟩ := old.spins waits
        exact absurd spins (before val)
      · rw [holds]
        exact old.holds
      · exact stores
    · exact fun other _ => queued.placed other

theorem queued_draw (count : BitVec 32) (world : World Thread (Tktlk Thread) Pc) (holder : Option Thread) (waiting : List Thread)
    (thread : Thread) (queued : Queued count world holder waiting) (here : world.own thread = .out) :
    Queued count (world.put thread (tktdraw thread 1 world.shared)) holder (waiting ++ [thread]) where
  order := by simp [put_shared, tktdraw, queued.order]
  single := by
    have fresh : thread ∉ waiting := by
      intro waits
      obtain ⟨val, spins⟩ := (queued.placed thread).spins waits
      rw [here] at spins
      cases spins
    exact List.nodup_append'.mpr ⟨queued.single, List.nodup_singleton thread, by simpa using fresh⟩
  nref := by
    dsimp only [put_shared, tktdraw, m_xaddu32]
    rw [queued.nref, List.length_append, BitVec.ofNat_add, BitVec.add_assoc]
    rfl
  served := queued.served
  placed := by
    apply put_all world thread _ (Placed count _ holder (waiting ++ [thread]))
    · constructor
      · intro val spins
        refine ⟨waiting.length, by simp, ?_⟩
        cases spins
        rw [m_xaddu32, queued.nref, queued.order, List.length_append]
        rfl
      · exact fun _ => ⟨_, rfl⟩
      · have free := (queued.placed thread).holds
        rw [here] at free
        exact free
      · intro val stored
        cases stored
    · intro other different
      have old := queued.placed other
      constructor
      · intro val spins
        obtain ⟨place, found, ticket⟩ := old.ticket val spins
        refine ⟨place, ?_, ticket⟩
        rw [List.getElem?_append_left (List.getElem?_eq_some_iff.mp found).1, found]
      · exact fun waits => old.spins (by simpa [different] using waits)
      · exact old.holds
      · exact old.stores

omit [DecidableEq Thread] in
-- A ticket that is being served belongs to the first of the waiting threads,
-- and nobody holds the lock.
theorem served_first [Fintype Thread] (few : Fintype.card Thread < 2 ^ 32) (count : BitVec 32) (world : World Thread (Tktlk Thread) Pc)
    (holder : Option Thread) (waiting : List Thread) (thread : Thread) (queued : Queued count world holder waiting)
    (here : world.own thread = .spin world.shared.val) : holder = none ∧ ∃ rest, waiting = thread :: rest := by
  obtain ⟨place, found, ticket⟩ := (queued.placed thread).ticket _ here
  have inside := (List.getElem?_eq_some_iff.mp found).1
  have short : waiting.length ≤ Fintype.card Thread := queued.single.length_le_card
  have one : holder.toList.length ≤ 1 := by cases holder <;> simp
  obtain ⟨first, free⟩ := place_served count world.shared.val world.shared.got.length place holder.toList.length (by omega)
    queued.served ticket
  constructor
  · simpa using free
  · subst first
    cases waiting with
    | nil => cases inside
    | cons head rest => exact ⟨rest, by rw [Option.some.inj found]⟩

theorem queued_obtain (count : BitVec 32) (world : World Thread (Tktlk Thread) Pc) (thread : Thread) (rest : List Thread)
    (queued : Queued count world none (thread :: rest)) :
    Queued count (world.put thread ({ world.shared with got := world.shared.got ++ [thread] }, .held)) (some thread) rest where
  order := by simp [put_shared, queued.order]
  single := queued.single.of_cons
  nref := queued.nref
  served := by
    have served := queued.served
    simp only [Option.toList_none, List.length_nil, BitVec.add_zero] at served
    dsimp only [put_shared]
    rw [List.length_append, BitVec.ofNat_add, ← BitVec.add_assoc, ← served]
    rfl
  placed := by
    apply put_all world thread _ (Placed count _ (some thread) rest)
    · constructor
      · intro val spins
        cases spins
      · exact fun waits => absurd waits (List.nodup_cons.mp queued.single).1
      · exact ⟨fun _ => rfl, fun _ => rfl⟩
      · intro val stored
        cases stored
    · intro other different
      have old := queued.placed other
      constructor
      · intro val spins
        obtain ⟨place, found, ticket⟩ := old.ticket val spins
        cases place with
        | zero => exact absurd (Option.some.inj found).symm different
        | succ place =>
            refine ⟨place, found, ?_⟩
            dsimp only [put_shared]
            rw [ticket, List.length_append, List.length_singleton, Nat.add_assoc, Nat.add_comm 1 place]
      · exact fun waits => old.spins (List.mem_cons_of_mem thread waits)
      · rw [old.holds]
        constructor
        · intro held
          cases held
        · intro held
          exact absurd (Option.some.inj held).symm different
      · exact old.stores

theorem queued_store (count val : BitVec 32) (world : World Thread (Tktlk Thread) Pc) (holder : Option Thread) (waiting : List Thread)
    (thread : Thread) (queued : Queued count world holder waiting) (here : world.own thread = .store val) :
    Queued count (world.put thread ({ world.shared with val := val + 1 }, .out)) none waiting := by
  have mine : holder = some thread := (queued.placed thread).holds.mp (by rw [here]; rfl)
  subst mine
  have current := (queued.placed thread).stores val here
  refine ⟨queued.order, queued.single, queued.nref, ?_, ?_⟩
  · have served := queued.served
    rw [← current] at served
    exact (BitVec.add_zero _).trans served
  · apply put_all world thread _ (Placed count _ none waiting)
    · constructor
      · intro val spins
        cases spins
      · intro waits
        obtain ⟨ticket, spins⟩ := (queued.placed thread).spins waits
        rw [here] at spins
        cases spins
      · constructor <;> exact fun holds => by cases holds
      · intro val stored
        cases stored
    · intro other different
      have old := queued.placed other
      have away : (world.own other).holds = true → False := fun holds => different (Option.some.inj (old.holds.mp holds)).symm
      constructor
      · exact old.ticket
      · exact old.spins
      · exact ⟨fun holds => (away holds).elim, fun holds => by cases holds⟩
      · intro stored stores
        exact (away (by rw [stores]; rfl)).elim

theorem inv_step [Fintype Thread] (few : Fintype.card Thread < 2 ^ 32) (count : BitVec 32) (world : World Thread (Tktlk Thread) Pc)
    (op : Thread × Call) (inv : Inv count world) (sound : Sound world op) : Inv count (after Prod.fst tktstep world op) := by
  obtain ⟨holder, waiting, queued⟩ := inv
  obtain ⟨thread, call⟩ := op
  have moved := queued_moved count world holder waiting thread
  unfold after tktstep
  unfold Sound at sound
  cases here : world.own thread with
  | out =>
      cases call with
      | tktlk eax =>
          rw [here] at sound
          have one : eax = 1 := eq_of_beq sound
          subst one
          exact ⟨holder, waiting ++ [thread], queued_draw count world holder waiting thread queued here⟩
      | tkttrylk => exact ⟨holder, waiting, moved (.trylk _) queued (by simp [here]) (by simp) (by rw [here]; rfl) (by simp)⟩
  | spin val =>
      dsimp only [tktspin]
      by_cases turn : world.shared.val = val
      · subst turn
        obtain ⟨free, rest, first⟩ := served_first few count world holder waiting thread queued here
        subst free first
        rw [if_neg (by simp)]
        exact ⟨some thread, rest, queued_obtain count world thread rest queued⟩
      · rw [if_pos turn, ← here, put_same]
        exact ⟨holder, waiting, queued⟩
  | trylk val =>
      dsimp only at sound ⊢
      rw [here] at sound
      rw [swap_quiet thread world.shared call val sound]
      exact ⟨holder, waiting, moved .out queued (by simp [here]) (by simp) (by rw [here]; rfl) (by simp)⟩
  | held => exact ⟨holder, waiting, moved .unlk queued (by simp [here]) (by simp) (by rw [here]; rfl) (by simp)⟩
  | unlk => exact ⟨holder, waiting, moved (.store _) queued (by simp [here]) (by simp) (by rw [here]; rfl) (by simp)⟩
  | store val => exact ⟨none, waiting, queued_store count val world holder waiting thread queued here⟩

theorem sound_tried (world : World Thread (Tktlk Thread) Pc) (op : Thread × Call) (sound : Sound world op) : Tried world op := by
  intro val here
  unfold Sound at sound
  rw [here] at sound
  obtain ⟨takes, passed⟩ := swap_fails world.shared op.2 val sound
  refine ⟨by rw [takes, passed], fun _ => ?_⟩
  unfold after tktstep
  rw [here, put_shared]
  dsimp only
  rw [swap_quiet op.1 world.shared op.2 val sound]

theorem tktlk_fifo [Fintype Thread] (few : Fintype.card Thread < 2 ^ 32) (count : BitVec 32) (steps : List (Thread × Call))
    (sound : Meets (act Prod.fst tktstep) Sound (start count) steps) :
    Holds (act Prod.fst tktstep) Good Tried (start count) steps := by
  apply act_holds Prod.fst tktstep (Inv count) Good Tried Sound (queued_good count) ?_ (start count) steps ?_ sound
  · exact fun world op inv sound => ⟨sound_tried world op sound, inv_step few count world op inv sound⟩
  · refine ⟨none, [], rfl, List.nodup_nil, by simp [start], by simp [start], fun thread => ?_⟩
    constructor <;> simp [start, Pc.holds]

-- Two threads draw the last ticket before the counters wrap and the one after
-- it, and a third one's tkttrylk fails in between.
theorem tktlk_fifo_wrapped :
    Meets (act Prod.fst tktstep) Sound (start (-1))
        [((0 : Fin 3), Call.tktlk 1), (1, .tktlk 1), (1, .tktlk 1), (2, .tkttrylk), (2, .tkttrylk), (0, .tktlk 1), (0, .tktlk 1),
          (0, .tktlk 1), (0, .tktlk 1), (1, .tktlk 1)] ∧
      Holds (act Prod.fst tktstep) Good Tried (start (-1))
        [((0 : Fin 3), Call.tktlk 1), (1, .tktlk 1), (1, .tktlk 1), (2, .tkttrylk), (2, .tkttrylk), (0, .tktlk 1), (0, .tktlk 1),
          (0, .tktlk 1), (0, .tktlk 1), (1, .tktlk 1)] := by
  have sound : Meets (act Prod.fst tktstep) Sound (start (-1))
      [((0 : Fin 3), Call.tktlk 1), (1, .tktlk 1), (1, .tktlk 1), (2, .tkttrylk), (2, .tkttrylk), (0, .tktlk 1), (0, .tktlk 1),
        (0, .tktlk 1), (0, .tktlk 1), (1, .tktlk 1)] := meets_every Prod.fst tktstep Sound _ _ (by decide +kernel)
  exact ⟨sound, tktlk_fifo (by decide +kernel) _ _ sound⟩

-- On a new lock tkttrylk takes the ticket and returns 0; and where eax is 0, two
-- threads draw the same ticket and both hold the lock.
theorem tkttrylk_leaks :
    ¬ Holds (act Prod.fst tktstep) Good Tried (start 0) [((0 : Fin 1), Call.tkttrylk), (0, .tkttrylk)] ∧
      ¬ Holds (act Prod.fst tktstep) Good Tried (start 0)
        [((0 : Fin 2), Call.tktlk 0), (1, .tktlk 0), (0, .tktlk 0), (1, .tktlk 0)] := by
  constructor
  · rintro ⟨-, -, next, taken, -, tried, -⟩
    cases taken
    exact absurd (tried 0 (by decide +kernel)).1 (by decide +kernel)
  · rintro ⟨-, -, _, first, -, -, _, second, -, -, _, third, -, -, _, fourth, good⟩
    cases first
    cases second
    cases third
    cases fourth
    exact absurd (good.exclusive 0 1 (by decide +kernel) (by decide +kernel)) (by decide)

end OsZero.Sync.Ticket

import OsZero.Lib.Chains
import OsZero.Lib.Threads
import OsZero.Sync.Atomic

set_option autoImplicit false

namespace OsZero.Mbuf.Bufpool

open Chains Threads Runs

variable {Thread : Type}

def MBUF_SIZE : Nat := 4096
def MEMNBUFBLK : Nat := 8192
def MEMNBUF : Nat := 4 * MEMNBUFBLK
def MEM_WAIT : Nat := 1 <<< 2

-- Where a buf is; the code itself does not keep this.
inductive Place (Thread : Type) where
  | outside
  | listed
  | lent
  | carried (thread : Thread)

-- membufbkt, hdr.next of each buf by its address, and the places.
structure Membufbkt (Thread : Type) where
  lk : Bool
  nbuf : Int
  buflist : Option Nat
  next : Nat → Option Nat
  place : Nat → Place Thread

-- while (n--), from the end of the wired memory down.
def bufloop : Nat → Nat → (Nat → Option Nat) → Option Nat → (Nat → Option Nat) × Option Nat
  | 0, _, next, last => (next, last)
  | n + 1, u8ptr, next, last => bufloop n (u8ptr - MBUF_SIZE) (Function.update next (u8ptr - MBUF_SIZE) last) (some (u8ptr - MBUF_SIZE))

def bufadr (u8ptr n : Nat) : Nat := u8ptr + n * MBUF_SIZE

def isbuf (u8ptr buf : Nat) : Bool := (List.range MEMNBUF).any fun n => bufadr u8ptr n = buf

-- What kwalloc returns is given.
def meminitbuf (wired : Option Nat) : Option (Membufbkt Thread) :=
  wired.map fun u8ptr =>
    let bufs := bufloop MEMNBUF (u8ptr + MEMNBUF * MBUF_SIZE) (fun _ => none) none
    ⟨false, MEMNBUF, bufs.2, bufs.1, fun buf => if isbuf u8ptr buf then .listed else .outside⟩

inductive Call where
  | memallocbuf (how : Nat)
  | memfreebuf (buf : Nat)

-- What a thread does next, with its variables: at most one access to the memory at a time.
inductive Pc where
  | out
  | alloclk (loop : Bool)
  | getlist (loop : Bool)
  | getnext (loop : Bool) (ret : Nat)
  | setlist (loop : Bool) (ret : Nat) (next : Option Nat)
  | getnbuf (loop : Bool) (ret : Nat)
  | decnbuf (loop : Bool) (ret : Nat) (nbuf : Int)
  | allocunlk (loop : Bool) (ret : Option Nat)
  | freelk (buf : Nat)
  | readlist (buf : Nat)
  | setnext (buf : Nat) (list : Option Nat)
  | putlist (buf : Nat)
  | readnbuf
  | incnbuf (nbuf : Int)
  | freeunlk

def setplace (bkt : Membufbkt Thread) (buf : Nat) (place : Place Thread) : Nat → Place Thread := Function.update bkt.place buf place

-- One turn of fmtxlk.
def fmtxlk (bkt : Membufbkt Thread) (wait inside : Pc) : Membufbkt Thread × Pc :=
  let res := Sync.mcmpswap bkt.lk false true
  ({ bkt with lk := res.1 }, if res.2 then inside else wait)

def bufstep (op : Thread × Call) (bkt : Membufbkt Thread) : Pc → Membufbkt Thread × Pc
  | .out =>
      match op.2 with
      | .memallocbuf how => (bkt, .alloclk (how &&& MEM_WAIT ≠ 0))
      | .memfreebuf buf => ({ bkt with place := setplace bkt buf (.carried op.1) }, .freelk buf)
  | .alloclk loop => fmtxlk bkt (.alloclk loop) (.getlist loop)
  | .getlist loop => (bkt, bkt.buflist.elim (.allocunlk loop none) (.getnext loop))
  | .getnext loop ret => (bkt, .setlist loop ret (bkt.next ret))
  | .setlist loop ret next => ({ bkt with buflist := next, place := setplace bkt ret (.carried op.1) }, .getnbuf loop ret)
  | .getnbuf loop ret => (bkt, .decnbuf loop ret bkt.nbuf)
  | .decnbuf loop ret nbuf => ({ bkt with nbuf := nbuf - 1 }, .allocunlk loop (some ret))
  | .allocunlk loop none => ({ bkt with lk := false }, if loop then .alloclk loop else .out)
  | .allocunlk _ (some ret) => ({ bkt with lk := false, place := setplace bkt ret .lent }, .out)
  | .freelk buf => fmtxlk bkt (.freelk buf) (.readlist buf)
  | .readlist buf => (bkt, .setnext buf bkt.buflist)
  | .setnext buf list => ({ bkt with next := Function.update bkt.next buf list }, .putlist buf)
  | .putlist buf => ({ bkt with buflist := some buf, place := setplace bkt buf .listed }, .readnbuf)
  | .readnbuf => (bkt, .incnbuf bkt.nbuf)
  | .incnbuf nbuf => ({ bkt with nbuf := nbuf + 1 }, .freeunlk)
  | .freeunlk => ({ bkt with lk := false }, .out)

def inside : Pc → Bool
  | .out | .alloclk _ | .freelk _ => false
  | _ => true

-- The buf that a thread has taken off the list or is to put on it.
def hand : Pc → Option Nat
  | .getnbuf _ ret | .decnbuf _ ret _ => some ret
  | .allocunlk _ ret => ret
  | .freelk buf | .readlist buf | .setnext buf _ | .putlist buf => some buf
  | _ => none

abbrev Pool (Thread : Type) := World Thread (Membufbkt Thread) Pc

structure Rest (bkt : Membufbkt Thread) (free : List Nat) : Prop where
  list : Seg bkt.next bkt.buflist free none
  count : bkt.nbuf = free.length

-- What the list and its count are while a thread that has the lock is where it is.
def Fits (bkt : Membufbkt Thread) (free : List Nat) : Pc → Prop
  | .getnext _ ret => Rest bkt free ∧ bkt.buflist = some ret
  | .setlist _ ret next => Rest bkt free ∧ bkt.buflist = some ret ∧ bkt.next ret = next
  | .getnbuf _ _ => Seg bkt.next bkt.buflist free none ∧ bkt.nbuf = free.length + 1
  | .decnbuf _ _ nbuf => Seg bkt.next bkt.buflist free none ∧ nbuf = free.length + 1
  | .setnext _ list => Rest bkt free ∧ bkt.buflist = list
  | .putlist buf => Rest bkt free ∧ bkt.next buf = bkt.buflist
  | .readnbuf => Seg bkt.next bkt.buflist free none ∧ bkt.nbuf + 1 = free.length
  | .incnbuf nbuf => Seg bkt.next bkt.buflist free none ∧ nbuf + 1 = free.length
  | .getlist _ | .allocunlk _ _ | .readlist _ | .freeunlk => Rest bkt free
  | .out | .alloclk _ | .freelk _ => True

-- bufs are the bufs of the pool: each of them is listed, lent, or in one thread's hand.
structure Accounted (bufs : Nat → Prop) (pool : Pool Thread) : Prop where
  kept : ∀ buf, pool.shared.place buf ≠ .outside ↔ bufs buf
  carried : ∀ buf thread, pool.shared.place buf = .carried thread ↔ hand (pool.own thread) = some buf
  alone : ∀ thread, inside (pool.own thread) = true → pool.shared.lk = true ∧
    ∀ other, inside (pool.own other) = true → other = thread
  stocked : pool.shared.lk = false → ∃ free, Rest pool.shared free ∧ ∀ buf, buf ∈ free ↔ pool.shared.place buf = .listed

structure Inv (bufs : Nat → Prop) (pool : Pool Thread) (free : List Nat) : Prop where
  kept : ∀ buf, pool.shared.place buf ≠ .outside ↔ bufs buf
  carried : ∀ buf thread, pool.shared.place buf = .carried thread ↔ hand (pool.own thread) = some buf
  alone : ∀ thread, inside (pool.own thread) = true → pool.shared.lk = true ∧
    ∀ other, inside (pool.own other) = true → other = thread
  listed : ∀ buf, buf ∈ free ↔ pool.shared.place buf = .listed
  rest : pool.shared.lk = false → Rest pool.shared free
  fits : ∀ thread, Fits pool.shared free (pool.own thread)

-- Nothing is freed that is not lent.
def Legal (pool : Pool Thread) (op : Thread × Call) : Prop :=
  pool.own op.1 = .out → ∀ buf, op.2 = .memfreebuf buf → pool.shared.place buf = .lent

-- What is taken off the list is nobody else's, and NULL is found only where nothing is listed.
def Fair (pool : Pool Thread) (op : Thread × Call) : Prop :=
  (∀ loop ret next, pool.own op.1 = .setlist loop ret next → pool.shared.place ret = .listed) ∧
    (∀ loop, pool.own op.1 = .getlist loop → pool.shared.buflist = none → ∀ buf, pool.shared.place buf ≠ .listed)

section Steps

variable [DecidableEq Thread] (bufs : Nat → Prop) (pool : Pool Thread) (free : List Nat) (thread : Thread)

omit [DecidableEq Thread] in
theorem fits_outside (bkt : Membufbkt Thread) (free : List Nat) (pc : Pc) (outside : inside pc = false) : Fits bkt free pc := by
  cases pc <;> trivial

omit [DecidableEq Thread] in
theorem fits_unplaced (bkt : Membufbkt Thread) (free : List Nat) (pc : Pc) (place : Nat → Place Thread) (fits : Fits bkt free pc) :
    Fits { bkt with place := place } free pc := by
  cases pc with
  | getnext loop ret => exact ⟨⟨fits.1.list, fits.1.count⟩, fits.2⟩
  | setlist loop ret next => exact ⟨⟨fits.1.list, fits.1.count⟩, fits.2⟩
  | setnext buf list => exact ⟨⟨fits.1.list, fits.1.count⟩, fits.2⟩
  | putlist buf => exact ⟨⟨fits.1.list, fits.1.count⟩, fits.2⟩
  | getlist | allocunlk | readlist | freeunlk => exact ⟨fits.list, fits.count⟩
  | getnbuf | decnbuf | readnbuf | incnbuf => exact fits
  | out | alloclk | freelk => trivial

omit [DecidableEq Thread] in
theorem place_moved (bkt : Membufbkt Thread) (buf other : Nat) (before after target : Place Thread) (was : bkt.place buf = before)
    (left : target ≠ before) (entered : target ≠ after) : setplace bkt buf after other = target ↔ bkt.place other = target := by
  by_cases same : other = buf
  · rw [same, setplace, Function.update_self, was]
    exact ⟨fun is => absurd is.symm entered, fun is => absurd is.symm left⟩
  · rw [setplace, Function.update_of_ne same]

theorem inv_put (inv : Inv bufs pool free) (next : Membufbkt Thread × Pc) (after : List Nat)
    (kept : ∀ buf, next.1.place buf ≠ .outside ↔ pool.shared.place buf ≠ .outside)
    (others : ∀ buf other, other ≠ thread → (next.1.place buf = .carried other ↔ pool.shared.place buf = .carried other))
    (mine : ∀ buf, next.1.place buf = .carried thread ↔ hand next.2 = some buf)
    (listed : ∀ buf, buf ∈ after ↔ next.1.place buf = .listed)
    (alone : inside next.2 = true → next.1.lk = true ∧ ∀ other, other ≠ thread → inside (pool.own other) = false)
    (locked : ∀ other, other ≠ thread → inside (pool.own other) = true → inside next.2 = false ∧ next.1.lk = true)
    (rest : next.1.lk = false → Rest next.1 after) (mineFits : Fits next.1 after next.2)
    (othersFit : ∀ other, other ≠ thread → Fits next.1 after (pool.own other)) : Inv bufs (pool.put thread next) after := by
  refine ⟨?_, ?_, ?_, listed, rest, ?_⟩
  · intro buf
    rw [put_shared, kept buf]
    exact inv.kept buf
  · intro buf
    rw [put_shared]
    apply put_all pool thread next fun other pc => next.1.place buf = .carried other ↔ hand pc = some buf
    · exact mine buf
    · intro other different
      rw [others buf other different]
      exact inv.carried buf other
  · intro one
    rw [put_shared]
    by_cases same : one = thread
    · rw [same, put_here]
      intro enters
      refine ⟨(alone enters).1, fun other => ?_⟩
      by_cases this : other = thread
      · exact fun _ => this
      · rw [put_there _ _ _ _ this, (alone enters).2 other this]
        exact fun impossible => absurd impossible Bool.false_ne_true
    · rw [put_there _ _ _ _ same]
      intro enters
      obtain ⟨out, lk⟩ := locked one same enters
      refine ⟨lk, fun other => ?_⟩
      by_cases this : other = thread
      · rw [this, put_here, out]
        exact fun impossible => absurd impossible Bool.false_ne_true
      · rw [put_there _ _ _ _ this]
        exact (inv.alone one enters).2 other
  · rw [put_shared]
    exact put_all pool thread next (fun _ pc => Fits next.1 after pc) mineFits othersFit

-- A thread that is alone in there, or goes in while nobody is.
theorem inv_alone (inv : Inv bufs pool free) (next : Membufbkt Thread × Pc) (after : List Nat)
    (apart : ∀ other, other ≠ thread → inside (pool.own other) = false)
    (kept : ∀ buf, next.1.place buf ≠ .outside ↔ pool.shared.place buf ≠ .outside)
    (others : ∀ buf other, other ≠ thread → (next.1.place buf = .carried other ↔ pool.shared.place buf = .carried other))
    (mine : ∀ buf, next.1.place buf = .carried thread ↔ hand next.2 = some buf)
    (listed : ∀ buf, buf ∈ after ↔ next.1.place buf = .listed) (locked : inside next.2 = true → next.1.lk = true)
    (rest : next.1.lk = false → Rest next.1 after) (fits : Fits next.1 after next.2) : Inv bufs (pool.put thread next) after := by
  apply inv_put bufs pool free thread inv next after kept others mine listed (fun enters => ⟨locked enters, apart⟩) ?_ rest fits
  · exact fun other different => fits_outside next.1 after _ (apart other different)
  · intro other different enters
    exact absurd ((apart other different).symm.trans enters) Bool.false_ne_true

theorem inv_placed (inv : Inv bufs pool free) (next : Membufbkt Thread × Pc) (apart : ∀ other, other ≠ thread → inside (pool.own other) = false)
    (place : next.1.place = pool.shared.place) (held : hand next.2 = hand (pool.own thread)) (locked : inside next.2 = true → next.1.lk = true)
    (rest : next.1.lk = false → Rest next.1 free) (fits : Fits next.1 free next.2) : Inv bufs (pool.put thread next) free := by
  refine inv_alone bufs pool free thread inv next free apart ?_ ?_ ?_ ?_ locked rest fits
  · exact fun buf => by rw [place]
  · exact fun buf other _ => by rw [place]
  · exact fun buf => by rw [place, held, inv.carried]
  · exact fun buf => by rw [place, inv.listed]

omit [DecidableEq Thread] in
theorem apart_inside (inv : Inv bufs pool free) (enters : inside (pool.own thread) = true) (other : Thread) (different : other ≠ thread) :
    inside (pool.own other) = false := by
  rw [Bool.eq_false_iff]
  exact fun too => different ((inv.alone thread enters).2 other too)

omit [DecidableEq Thread] in
theorem apart_free (inv : Inv bufs pool free) (unlocked : pool.shared.lk = false) (other : Thread) : inside (pool.own other) = false := by
  rw [Bool.eq_false_iff]
  intro enters
  exact absurd ((inv.alone other enters).1.symm.trans unlocked) (by decide)

-- A step in there that moves no buf.
theorem inv_within (inv : Inv bufs pool free) (enters : inside (pool.own thread) = true) (next : Membufbkt Thread × Pc)
    (place : next.1.place = pool.shared.place) (lk : next.1.lk = pool.shared.lk) (held : hand next.2 = hand (pool.own thread))
    (fits : Fits next.1 free next.2) : Inv bufs (pool.put thread next) free := by
  have taken : next.1.lk = true := lk.trans (inv.alone thread enters).1
  refine inv_placed bufs pool free thread inv next (apart_inside bufs pool free thread inv enters) place held (fun _ => taken) ?_ fits
  exact fun unlocked => absurd (taken.symm.trans unlocked) (by decide)

theorem inv_unlocks (inv : Inv bufs pool free) (enters : inside (pool.own thread) = true) (next : Pc) (outside : inside next = false)
    (held : hand next = hand (pool.own thread)) (rest : Rest pool.shared free) :
    Inv bufs (pool.put thread ({ pool.shared with lk := false }, next)) free := by
  refine inv_placed bufs pool free thread inv _ (apart_inside bufs pool free thread inv enters) rfl held ?_ (fun _ => ⟨rest.list, rest.count⟩)
    (fits_outside _ free next outside)
  exact fun still => absurd (outside.symm.trans still) Bool.false_ne_true

-- A thread that is out, and stays out.
theorem inv_outside (inv : Inv bufs pool free) (next : Pc) (outside : inside next = false) (held : hand next = hand (pool.own thread)) :
    Inv bufs (pool.put thread (pool.shared, next)) free := by
  refine inv_put bufs pool free thread inv _ free (fun _ => Iff.rfl) (fun _ _ _ => Iff.rfl) ?_ inv.listed ?_ ?_ inv.rest
    (fits_outside _ free next outside) (fun other _ => inv.fits other)
  · exact fun buf => by rw [held, inv.carried]
  · exact fun enters => absurd (outside.symm.trans enters) Bool.false_ne_true
  · exact fun other _ enters => ⟨outside, (inv.alone other enters).1⟩

theorem inv_locks (inv : Inv bufs pool free) (wait next : Pc) (waits : inside wait = false)
    (own : pool.own thread = wait) (held : hand next = hand wait) (fits : ∀ bkt : Membufbkt Thread, Rest bkt free → Fits bkt free next) :
    Inv bufs (pool.put thread (fmtxlk pool.shared wait next)) free := by
  cases lk : pool.shared.lk with
  | true =>
      have same : ({ pool.shared with lk := true } : Membufbkt Thread) = pool.shared := by rw [← lk]
      have missed : fmtxlk pool.shared wait next = ({ pool.shared with lk := true }, wait) := by simp [fmtxlk, Sync.mcmpswap, lk]
      rw [missed, same]
      exact inv_outside bufs pool free thread inv wait waits (by rw [own])
  | false =>
      have taken : fmtxlk pool.shared wait next = ({ pool.shared with lk := true }, next) := by simp [fmtxlk, Sync.mcmpswap, lk]
      rw [taken]
      have rest := inv.rest lk
      refine inv_placed bufs pool free thread inv _ (fun other _ => apart_free bufs pool free inv lk other) rfl (by rw [own, held]) (fun _ => rfl) ?_
        (fits _ ⟨rest.list, rest.count⟩)
      exact fun unlocked => by cases unlocked

theorem setlist_kept (inv : Inv bufs pool free) (loop : Bool) (ret : Nat) (next : Option Nat) (own : pool.own thread = .setlist loop ret next) :
    ∃ rest, free = ret :: rest ∧ Inv bufs (pool.put thread
      ({ pool.shared with buflist := next, place := setplace pool.shared ret (.carried thread) }, .getnbuf loop ret)) rest := by
  have enters : inside (pool.own thread) = true := by rw [own]; rfl
  have fits := inv.fits thread
  rw [own] at fits
  obtain ⟨⟨list, count⟩, first, second⟩ := fits
  have nodup := seg_nodup _ _ _ list
  rw [first] at list
  obtain ⟨rest, rfl⟩ := seg_head _ ret free list
  refine ⟨rest, rfl, ?_⟩
  have was : pool.shared.place ret = .listed := (inv.listed ret).mp List.mem_cons_self
  refine inv_alone bufs pool (ret :: rest) thread inv _ rest (apart_inside bufs pool _ thread inv enters) ?_ ?_ ?_ ?_ ?_ ?_ ?_
  · exact fun buf => not_congr (place_moved pool.shared ret buf .listed (.carried thread) .outside was (by simp) (by simp))
  · intro buf other different
    exact place_moved pool.shared ret buf .listed (.carried thread) (.carried other) was (by simp) (by simpa using different)
  · intro buf
    have none : pool.shared.place buf ≠ .carried thread := by
      rw [ne_eq, inv.carried, own]
      simp [hand]
    by_cases same : buf = ret
    · simp [same, setplace, hand]
    · simp [setplace, Function.update_of_ne same, none, hand, Ne.symm same]
  · intro buf
    by_cases same : buf = ret
    · have out := (List.nodup_cons.mp nodup).1
      simp [same, setplace, out]
    · have listed := inv.listed buf
      simpa [setplace, Function.update_of_ne same, same] using listed
  · exact fun _ => (inv.alone thread enters).1
  · exact fun unlocked => absurd ((inv.alone thread enters).1.symm.trans unlocked) (by decide)
  · refine ⟨?_, by rw [count, List.length_cons]; rfl⟩
    rw [← second]
    exact list.2

theorem putlist_kept (inv : Inv bufs pool free) (buf : Nat) (own : pool.own thread = .putlist buf) :
    Inv bufs (pool.put thread ({ pool.shared with buflist := some buf, place := setplace pool.shared buf .listed }, .readnbuf)) (buf :: free) := by
  have enters : inside (pool.own thread) = true := by rw [own]; rfl
  have fits := inv.fits thread
  rw [own] at fits
  obtain ⟨⟨list, count⟩, link⟩ := fits
  have was : pool.shared.place buf = .carried thread := by
    rw [inv.carried, own]
    rfl
  refine inv_alone bufs pool free thread inv _ (buf :: free) (apart_inside bufs pool _ thread inv enters) ?_ ?_ ?_ ?_ ?_ ?_ ?_
  · exact fun other => not_congr (place_moved pool.shared buf other (.carried thread) .listed .outside was (by simp) (by simp))
  · intro other one different
    exact place_moved pool.shared buf other (.carried thread) .listed (.carried one) was (by simpa using different) (by simp)
  · intro other
    by_cases same : other = buf
    · simp [same, setplace, hand]
    · have only : pool.shared.place other ≠ .carried thread := by
        rw [ne_eq, inv.carried, own]
        simpa [hand] using Ne.symm same
      simp [setplace, Function.update_of_ne same, only, hand]
  · intro other
    by_cases same : other = buf
    · simp [same, setplace]
    · have listed := inv.listed other
      simpa [setplace, Function.update_of_ne same, same] using listed
  · exact fun _ => (inv.alone thread enters).1
  · exact fun unlocked => absurd ((inv.alone thread enters).1.symm.trans unlocked) (by decide)
  · exact ⟨⟨rfl, by rw [link]; exact list⟩, by rw [count, List.length_cons]; rfl⟩

-- The return of memallocbuf with a buf, and the call of memfreebuf.
theorem lend_kept (inv : Inv bufs pool free) (loop : Bool) (ret : Nat) (own : pool.own thread = .allocunlk loop (some ret)) :
    Inv bufs (pool.put thread ({ pool.shared with lk := false, place := setplace pool.shared ret .lent }, .out)) free := by
  have enters : inside (pool.own thread) = true := by rw [own]; rfl
  have fits := inv.fits thread
  rw [own] at fits
  have was : pool.shared.place ret = .carried thread := by
    rw [inv.carried, own]
    rfl
  refine inv_alone bufs pool free thread inv _ free (apart_inside bufs pool _ thread inv enters) ?_ ?_ ?_ ?_ ?_ ?_ trivial
  · exact fun other => not_congr (place_moved pool.shared ret other (.carried thread) .lent .outside was (by simp) (by simp))
  · intro other one different
    exact place_moved pool.shared ret other (.carried thread) .lent (.carried one) was (by simpa using different) (by simp)
  · intro other
    by_cases same : other = ret
    · simp [same, setplace, hand]
    · have only : pool.shared.place other ≠ .carried thread := by
        rw [ne_eq, inv.carried, own]
        simpa [hand] using Ne.symm same
      simp [setplace, Function.update_of_ne same, only, hand]
  · intro other
    rw [inv.listed other]
    exact (place_moved pool.shared ret other (.carried thread) .lent .listed was (by simp) (by simp)).symm
  · exact fun still => by cases still
  · exact fun _ => ⟨fits.list, fits.count⟩

theorem giveback_kept (inv : Inv bufs pool free) (buf : Nat) (own : pool.own thread = .out) (lent : pool.shared.place buf = .lent) :
    Inv bufs (pool.put thread ({ pool.shared with place := setplace pool.shared buf (.carried thread) }, .freelk buf)) free := by
  refine inv_put bufs pool free thread inv _ free ?_ ?_ ?_ ?_ ?_ ?_ ?_ trivial ?_
  · exact fun other => not_congr (place_moved pool.shared buf other .lent (.carried thread) .outside lent (by simp) (by simp))
  · intro other one different
    exact place_moved pool.shared buf other .lent (.carried thread) (.carried one) lent (by simp) (by simpa using different)
  · intro other
    by_cases same : other = buf
    · simp [same, setplace, hand]
    · have none : pool.shared.place other ≠ .carried thread := by
        rw [ne_eq, inv.carried, own]
        simp [hand]
      simp [setplace, Function.update_of_ne same, none, hand, Ne.symm same]
  · intro other
    rw [inv.listed other]
    exact (place_moved pool.shared buf other .lent (.carried thread) .listed lent (by simp) (by simp)).symm
  · exact fun enters => by cases enters
  · exact fun other _ enters => ⟨rfl, (inv.alone other enters).1⟩
  · exact fun unlocked => ⟨(inv.rest unlocked).list, (inv.rest unlocked).count⟩
  · exact fun other _ => fits_unplaced _ free _ _ (inv.fits other)

-- One case for each place in the code.
theorem step_kept (inv : Inv bufs pool free) (call : Call) (legal : Legal pool (thread, call)) :
    Fair pool (thread, call) ∧ ∃ after, Inv bufs (Threads.after Prod.fst bufstep pool (thread, call)) after := by
  have fits := inv.fits thread
  constructor
  · constructor
    · intro loop ret next own
      simp only at own
      obtain ⟨rest, rfl, -⟩ := setlist_kept bufs pool free thread inv loop ret next own
      exact (inv.listed ret).mp List.mem_cons_self
    · intro loop own empty buf listed
      simp only at own
      rw [own] at fits
      have list := fits.list
      have member := (inv.listed buf).mpr listed
      rw [empty] at list
      cases free with
      | nil => cases member
      | cons first rest => cases list.1
  · simp only [Threads.after]
    cases own : pool.own thread with
    | out =>
        cases call with
        | memallocbuf how => exact ⟨free, inv_outside bufs pool free thread inv _ rfl (by rw [own]; rfl)⟩
        | memfreebuf buf => exact ⟨free, giveback_kept bufs pool free thread inv buf own (legal own buf rfl)⟩
    | alloclk loop => exact ⟨free, inv_locks bufs pool free thread inv _ (.getlist loop) rfl own rfl fun _ rest => rest⟩
    | freelk buf => exact ⟨free, inv_locks bufs pool free thread inv _ (.readlist buf) rfl own rfl fun _ rest => rest⟩
    | setlist loop ret next =>
        obtain ⟨rest, -, kept⟩ := setlist_kept bufs pool free thread inv loop ret next own
        exact ⟨rest, kept⟩
    | putlist buf => exact ⟨buf :: free, putlist_kept bufs pool free thread inv buf own⟩
    | getlist loop =>
        rw [own] at fits
        refine ⟨free, inv_within bufs pool free thread inv (by rw [own]; rfl) _ rfl rfl ?_ ?_⟩
        · rw [own]
          simp only [bufstep]
          cases pool.shared.buflist <;> rfl
        · simp only [bufstep]
          cases list : pool.shared.buflist with
          | none => exact fits
          | some ret => exact ⟨fits, list⟩
    | getnext loop ret =>
        rw [own] at fits
        exact ⟨free, inv_within bufs pool free thread inv (by rw [own]; rfl) _ rfl rfl (by rw [own]; rfl) ⟨fits.1, fits.2, rfl⟩⟩
    | getnbuf loop ret =>
        rw [own] at fits
        exact ⟨free, inv_within bufs pool free thread inv (by rw [own]; rfl) _ rfl rfl (by rw [own]; rfl) fits⟩
    | decnbuf loop ret nbuf =>
        rw [own] at fits
        refine ⟨free, inv_within bufs pool free thread inv (by rw [own]; rfl) _ rfl rfl (by rw [own]; rfl) ⟨fits.1, ?_⟩⟩
        rw [fits.2]
        exact Int.add_sub_cancel _ _
    | allocunlk loop ret =>
        rw [own] at fits
        cases ret with
        | none =>
            cases loop <;> exact ⟨free, inv_unlocks bufs pool free thread inv (by rw [own]; rfl) _ rfl (by rw [own]; rfl) fits⟩
        | some ret => exact ⟨free, lend_kept bufs pool free thread inv loop ret own⟩
    | readlist buf =>
        rw [own] at fits
        exact ⟨free, inv_within bufs pool free thread inv (by rw [own]; rfl) _ rfl rfl (by rw [own]; rfl) ⟨fits, rfl⟩⟩
    | setnext buf list =>
        rw [own] at fits
        have out : buf ∉ free := by
          rw [inv.listed, (inv.carried buf thread).mpr (by rw [own]; rfl)]
          simp
        have linked := seg_update pool.shared.next pool.shared.buflist none list free buf fits.1.list out
        exact ⟨free, inv_within bufs pool free thread inv (by rw [own]; rfl) _ rfl rfl (by rw [own]; rfl)
          ⟨⟨linked, fits.1.count⟩, (Function.update_self _ _ _).trans fits.2.symm⟩⟩
    | readnbuf =>
        rw [own] at fits
        exact ⟨free, inv_within bufs pool free thread inv (by rw [own]; rfl) _ rfl rfl (by rw [own]; rfl) fits⟩
    | incnbuf nbuf =>
        rw [own] at fits
        exact ⟨free, inv_within bufs pool free thread inv (by rw [own]; rfl) _ rfl rfl (by rw [own]; rfl) ⟨fits.1, fits.2⟩⟩
    | freeunlk =>
        rw [own] at fits
        exact ⟨free, inv_unlocks bufs pool free thread inv (by rw [own]; rfl) _ rfl (by rw [own]; rfl) fits⟩

end Steps

theorem bufloop_seg (base n : Nat) (next : Nat → Option Nat) (last : Option Nat) (tail : List Nat) (seg : Seg next last tail none)
    (above : ∀ buf ∈ tail, bufadr base n ≤ buf) :
    Seg (bufloop n (bufadr base n) next last).1 (bufloop n (bufadr base n) next last).2 ((List.range n).map (bufadr base) ++ tail) none := by
  induction n generalizing next last tail with
  | zero => exact seg
  | succ n ih =>
      have down : bufadr base (n + 1) - MBUF_SIZE = bufadr base n := by
        simp only [bufadr, MBUF_SIZE]
        omega
      have higher : bufadr base n < bufadr base (n + 1) := by
        simp only [bufadr, MBUF_SIZE]
        omega
      have out : bufadr base n ∉ tail := fun member => absurd (above _ member) (by omega)
      rw [bufloop, down, List.range_succ, List.map_append, List.append_assoc]
      apply ih
      · exact ⟨rfl, by rw [Function.update_self]; exact seg_update next last none last tail _ seg out⟩
      · intro buf member
        rcases List.mem_cons.mp member with rfl | member
        · exact Nat.le_refl _
        · exact Nat.le_trans (Nat.le_of_lt higher) (above buf member)

theorem init_rest (u8ptr n : Nat) (place : Nat → Place Thread) :
    Rest ⟨false, n, (bufloop n (bufadr u8ptr n) (fun _ => none) none).2, (bufloop n (bufadr u8ptr n) (fun _ => none) none).1, place⟩
      ((List.range n).map (bufadr u8ptr)) := by
  have seg := bufloop_seg u8ptr n (fun _ => none) none [] rfl fun buf member => absurd member List.not_mem_nil
  rw [List.append_nil] at seg
  exact ⟨seg, by simp⟩

theorem init_inv (u8ptr : Nat) (bkt : Membufbkt Thread) (made : meminitbuf (some u8ptr) = some bkt) :
    Inv (fun buf => isbuf u8ptr buf = true) (⟨bkt, fun _ => .out⟩ : Pool Thread) ((List.range MEMNBUF).map (bufadr u8ptr)) := by
  simp only [meminitbuf, Option.map_some, Option.some.injEq] at made
  subst made
  have places : ∀ buf, (if isbuf u8ptr buf = true then Place.listed else Place.outside : Place Thread) = .listed ↔ isbuf u8ptr buf = true := by
    intro buf
    cases isbuf u8ptr buf <;> simp
  refine ⟨fun buf => ?_, fun buf thread => ?_, fun _ enters => absurd enters Bool.false_ne_true, fun buf => ?_, fun _ => init_rest u8ptr MEMNBUF _, fun _ => trivial⟩
  · cases is : isbuf u8ptr buf <;> simp [is]
  · cases is : isbuf u8ptr buf <;> simp [is, hand]
  · rw [places]
    simp [isbuf]

theorem inv_accounted (bufs : Nat → Prop) (pool : Pool Thread) (free : List Nat) (inv : Inv bufs pool free) : Accounted bufs pool :=
  ⟨inv.kept, inv.carried, inv.alone, fun unlocked => ⟨free, inv.rest unlocked, inv.listed⟩⟩

-- Whichever thread takes the next step, no buf is handed out twice and none is lost.
theorem bufs_accounted [DecidableEq Thread] (u8ptr : Nat) (bkt : Membufbkt Thread) (made : meminitbuf (some u8ptr) = some bkt)
    (ops : List (Thread × Call)) (legal : Meets (act Prod.fst bufstep) Legal ⟨bkt, fun _ => .out⟩ ops) :
    Holds (act Prod.fst bufstep) (Accounted fun buf => isbuf u8ptr buf = true) Fair ⟨bkt, fun _ => .out⟩ ops := by
  apply act_holds Prod.fst bufstep (fun pool => ∃ free, Inv (fun buf => isbuf u8ptr buf = true) pool free) _ _ Legal ?_ ?_ _ ops ?_ legal
  · rintro pool ⟨free, inv⟩
    exact inv_accounted _ pool free inv
  · rintro pool ⟨thread, call⟩ ⟨free, inv⟩ cond
    exact step_kept _ pool free thread inv call cond
  · exact ⟨_, init_inv u8ptr bkt made⟩

theorem bufs_accounted_two : ∃ bkt : Membufbkt Bool, meminitbuf (some 4096) = some bkt ∧
    Holds (act Prod.fst bufstep) (Accounted fun buf => isbuf 4096 buf = true) Fair ⟨bkt, fun _ => .out⟩
      [(false, .memallocbuf 0), (true, .memallocbuf 4), (false, .memallocbuf 0), (true, .memallocbuf 4), (false, .memallocbuf 0)] := by
  have calls : ∀ (pool : Pool Bool) (thread : Bool) (how : Nat), Legal pool (thread, .memallocbuf how) := by
    intro pool thread how _ buf call
    cases call
  obtain ⟨bkt, made⟩ : ∃ bkt : Membufbkt Bool, meminitbuf (some 4096) = some bkt := by
    simp only [meminitbuf, Option.map_some, Option.some.injEq, exists_eq']
  refine ⟨bkt, made, bufs_accounted 4096 bkt made _ ?_⟩
  exact ⟨calls _ _ _, fun _ _ => ⟨calls _ _ _, fun _ _ => ⟨calls _ _ _, fun _ _ => ⟨calls _ _ _, fun _ _ => ⟨calls _ _ _, fun _ _ => trivial⟩⟩⟩⟩⟩

end OsZero.Mbuf.Bufpool

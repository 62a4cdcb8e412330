import OsZero.Deq.Single

set_option autoImplicit false

namespace OsZero.Sched

open Links

universe u
variable {τ : Type u} [DecidableEq τ]

def schednclassprio : Int := 64
def schednclassqueue : Int := 32
def schednqueue : Nat := 192
def schednidle : Nat := 32

-- SCHEDLOADMAPNWORD, both with longs of four bytes and of eight.
def schedloadmapnword : Nat := 8

def schednicehalf : Int := 64
def schedscorehalf : Int := 64
def schedscoreintlim : Int := 32
def scheduserpriomin : Int := 192
def scheduserpriomax : Int := 319

def scheddeadline : Int := -2
def schedrealtimerr : Int := -1
def schedtrap : Int := 0
def schedrealtime : Int := 1
def schedsystem : Int := 2
def schedresponsive : Int := 3
def schednormal : Int := 4
def schedidle : Int := 6

-- The fields of a task, and the nice value of its process, that decide where
-- it is queued.
structure Attr where
  sched : Int
  prio : Int
  hasinput : Bool
  runtime : Int
  slptime : Int
  score : Int
  nice : Int
  ntick : Int
  lastrun : Int
  firstrun : Int
deriving DecidableEq

-- fastu16div16 with the table it reads, and kgethz; nothing below depends on
-- what they return.
structure Units where
  fastu16div16 : BitVec 16 → BitVec 16 → BitVec 16
  hz : Int

def Units.div (units : Units) (num den : Int) : Int := (units.fastu16div16 (BitVec.ofInt 16 num) (BitVec.ofInt 16 den)).toNat

def schedcalcscore (units : Units) (attr : Attr) : Int :=
  if attr.runtime ≥ attr.slptime then schedscorehalf else units.div attr.runtime (max 1 (attr.slptime / 64))

def roundup (value step : Int) : Int := (value + (step - 1)) / step * step

def schedcalcintparm (units : Units) (attr : Attr) : Int × Int :=
  let score := max 0 (schedcalcscore units attr + attr.nice)
  if score < schedscoreintlim then
    (scheduserpriomin + (scheduserpriomax - scheduserpriomin + 1) / 32 * score, score)
  else if attr.ntick ≠ 0 then
    let total := max (attr.lastrun - attr.firstrun) units.hz
    let res := scheduserpriomin - schednicehalf
    let range := scheduserpriomax + schednicehalf - res + 1
    let ticks := units.div (attr.ntick / 1024) (units.div total (roundup total range))
    (res + attr.nice + min ticks (range - 1), score)
  else (0, score)

def schedclassminprio (class_ : Int) : Int := class_ * schednclassprio

def schedclassmaxprio (class_ : Int) : Int := schedclassminprio class_ + schednclassprio - 1

def schedclassminqueue (class_ : Int) : Int := class_ * schednclassqueue

def schedcalcqueue (type pri : Int) : Int := (pri - type * schednclassprio) / 2 + schedclassminqueue type

inductive Which where
  | cur | next | idle
deriving DecidableEq, Repr

structure Place where
  which : Which
  ndx : Int
  qid : Int
deriving DecidableEq

-- The class branches of schedsetready; a deadline task is queued elsewhere.
def schedplacesystem (attr : Attr) : Place × Attr :=
  let type := if attr.sched = schedrealtimerr then schedrealtime else attr.sched
  if type = schedtrap then (⟨.cur, attr.prio, attr.prio⟩, attr)
  else if type = schedrealtime then
    let qid := schedcalcqueue type attr.prio
    (⟨.cur, qid, qid⟩, attr)
  else
    let prio := if attr.prio < schedclassmaxprio schedsystem then attr.prio + 1 else attr.prio
    let qid := schedcalcqueue type prio
    (⟨.cur, qid, qid⟩, { attr with prio := prio })

def schedplacetimeshare (units : Units) (attr : Attr) : Place × Attr :=
  if attr.sched = schedresponsive then
    let prio := attr.prio + 1
    let type := if prio = schedclassmaxprio schedresponsive then schednormal else attr.sched
    let qid := schedcalcqueue type prio
    (⟨.cur, qid, qid⟩, { attr with sched := type, prio := prio })
  else if attr.hasinput then
    let prio := schedclassminprio schedresponsive
    let qid := schedcalcqueue attr.sched prio
    (⟨.cur, qid, qid⟩, { attr with prio := prio })
  else
    let parm := schedcalcintparm units attr
    let qid := schedcalcqueue attr.sched parm.1
    (⟨if parm.2 < schedscoreintlim then .cur else .next, qid, qid⟩,
      { attr with prio := parm.1, score := schedcalcscore units attr })

def schedplaceidle (attr : Attr) : Place × Attr :=
  let prio := if attr.prio < schedidle * schednclassprio + schednidle - 1 then attr.prio + 1 else attr.prio
  let qid := schedcalcqueue schedidle prio
  (⟨.idle, qid - schedclassminqueue schedidle, qid⟩, { attr with prio := prio })

def schedplace (units : Units) (attr : Attr) : Place × Attr :=
  if attr.sched ≤ schedsystem then schedplacesystem attr
  else if attr.sched < schedidle then schedplacetimeshare units attr
  else schedplaceidle attr

-- Tables 0 and 1 are schedreadytab0 and schedreadytab1, table 2 is
-- schedidletab; cur, next and idle name one of them each, and the map
-- pointers name the bit map of a table. loadmap is indexed by the number of a
-- queue, of which there are more than it has words.
structure SchedSet (τ : Type u) where
  attr : τ → Attr
  links : Heap τ
  tab : Nat → Nat → Option τ
  map : Nat → Nat → Bool
  cur : Nat
  next : Nat
  idle : Nat
  curmap : Nat
  nextmap : Nat
  idlemap : Nat
  loadmap : Fin schedloadmapnword → Int
  lk : Bool

def SchedSet.table (set : SchedSet τ) : Which → Nat
  | .cur => set.cur
  | .next => set.next
  | .idle => set.idle

def SchedSet.bitmap (set : SchedSet τ) : Which → Nat
  | .cur => set.curmap
  | .next => set.nextmap
  | .idle => set.idlemap

def tabsize (table : Nat) : Nat := if table = 2 then schednidle else schednqueue

def SchedSet.setbit (set : SchedSet τ) (map ndx : Nat) : SchedSet τ :=
  { set with map := fun other bit => if other = map ∧ bit = ndx then true else set.map other bit }

def SchedSet.setQueue (set : SchedSet τ) (table ndx : Nat) (deq : Deq.SingleDeq τ) : SchedSet τ :=
  { set with
    links := deq.links
    tab := fun other place => if other = table ∧ place = ndx then deq.deq else set.tab other place }

def SchedSet.queue (set : SchedSet τ) (table ndx : Nat) : Deq.SingleDeq τ := ⟨set.links, set.tab table ndx⟩

def fmtxlk (set : SchedSet τ) : Option (SchedSet τ) := if set.lk then none else some { set with lk := true }

def fmtxunlk (set : SchedSet τ) : SchedSet τ := { set with lk := false }

def schedenqueue (task : τ) (sched : Int) (queue : Deq.SingleDeq τ) : Option (Deq.SingleDeq τ) :=
  if sched ≠ schedrealtimerr then Deq.deqappend task queue else Deq.deqpush task queue

def schedsetready (units : Units) (task : τ) (set : SchedSet τ) : Option (SchedSet τ) :=
  let sched := (set.attr task).sched
  let placed := schedplace units (set.attr task)
  if sched = scheddeadline then none
  else do
    let set ← fmtxlk { set with attr := fun other => if other = task then placed.2 else set.attr other }
    let table := set.table placed.1.which
    if (0 ≤ placed.1.ndx ∧ placed.1.ndx < tabsize table) ∧ 0 ≤ placed.1.qid ∧ placed.1.qid < schedloadmapnword then
      let set := set.setbit (set.bitmap placed.1.which) placed.1.ndx.toNat
      let queue ← schedenqueue task sched (set.queue table placed.1.ndx.toNat)
      let set := set.setQueue table placed.1.ndx.toNat queue
      some (fmtxunlk { set with
        loadmap := fun other => if (other.val : Int) = placed.1.qid then set.loadmap other + 1 else set.loadmap other })
    else none

-- The swap stores cur into next before it reads next, and takes the lock that
-- its caller holds when the machine has several processors.
def schedswapqueues (mpmultiproc : Bool) (set : SchedSet τ) : Option (SchedSet τ) :=
  if mpmultiproc then none
  else
    let set := { set with next := set.cur }
    let set := { set with cur := set.next }
    let set := { set with nextmap := set.curmap }
    some { set with curmap := set.nextmap }

def scanmap (map : Nat → Bool) (lim : Nat) : Option Nat := (List.range lim).find? map

-- The test after the pop looks at the address of the queue, so the bit stays.
def schedpop (table ofs : Nat) (set : SchedSet τ) : Option (SchedSet τ × Option τ) := do
  let popped ← Deq.deqpop (set.queue table ofs)
  some (fmtxunlk (set.setQueue table ofs popped.1), popped.2)

inductive Scan (τ : Type u) where
  | found (set : SchedSet τ) (task : Option τ)
  | missing (set : SchedSet τ)

def schedscanready (mpmultiproc : Bool) : Nat → SchedSet τ → Option (Scan τ)
  | loop, set => do
      let set ← fmtxlk set
      match scanmap (set.map set.curmap) schednqueue with
      | some ofs => (schedpop set.cur ofs set).map fun popped => .found popped.1 popped.2
      | none =>
          match loop with
          | 0 => some (.missing (fmtxunlk set))
          | loop + 1 => do
              let set ← schedswapqueues mpmultiproc set
              schedscanready mpmultiproc loop (fmtxunlk set)

def schedscanidle (unit : Nat) (set : SchedSet τ) : Option (Scan τ) := do
  let set ← fmtxlk set
  match scanmap (set.map set.idlemap) schednidle with
  | some ofs => (schedpop set.idle ofs set).map fun popped => .found popped.1 popped.2
  | none => some (.missing (fmtxunlk (set.setbit set.idlemap unit)))

-- Two rounds decide the outer loop: the first one without a task marks the
-- processor in the idle map, where the second one finds it; a processor number
-- beyond that map waits for ever.
def schedloop (mpmultiproc : Bool) (unit : Nat) : Nat → SchedSet τ → Option (SchedSet τ × Option τ)
  | 0, _ => none
  | round + 1, set => do
      let ready ← schedscanready mpmultiproc 1 set
      match ready with
      | .found set task => some (set, task)
      | .missing set => do
          let idle ← schedscanidle unit set
          match idle with
          | .found set task => some (set, task)
          | .missing set => schedloop mpmultiproc unit round set

def schedswitchtask (units : Units) (mpmultiproc : Bool) (unit : Nat) (curtask : τ) (set : SchedSet τ) :
    Option (SchedSet τ × Option τ) := do
  let set ← schedsetready units curtask set
  schedloop mpmultiproc unit 2 set

def schedinitset (attr : τ → Attr) (links : Heap τ) : SchedSet τ :=
  { attr := attr, links := links, tab := fun _ _ => none, map := fun _ _ => false, cur := 0, next := 1, idle := 2
    curmap := 0, nextmap := 1, idlemap := 2, loadmap := fun _ => 0, lk := false }

end OsZero.Sched

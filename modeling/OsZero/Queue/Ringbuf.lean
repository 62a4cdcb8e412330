import Mathlib.Data.List.Basic
import OsZero.Lib.Runs

set_option autoImplicit false

namespace OsZero.Queue

open Runs

variable {Item : Type}

-- inptr and outptr count items from base, whose length is that of the data
-- buffer; lim is base + nitem.
structure Ringbuf (Item : Type) where
  init : Bool
  nitem : Nat
  base : List Item
  inptr : Nat
  outptr : Nat

def Ringbuf.lim (buf : Ringbuf Item) : Nat := buf.nitem

def ringinit (base : List Item) (nitem : Nat) : Ringbuf Item := ⟨true, nitem, base, 0, 0⟩

def Ringbuf.wrapin (buf : Ringbuf Item) : Ringbuf Item := if buf.inptr = buf.lim then { buf with inptr := 0 } else buf

def Ringbuf.wrapout (buf : Ringbuf Item) : Ringbuf Item := if buf.outptr = buf.lim then { buf with outptr := 0 } else buf

-- Each result is none when the code leaves the buffer or does not return.
def ringget (inval : Item) (buf : Ringbuf Item) : Option (Ringbuf Item × Item) :=
  let buf := buf.wrapout
  if buf.outptr ≠ buf.inptr then
    do
      let item ← buf.base[buf.outptr]?
      some ({ buf with outptr := buf.outptr + 1 }, item)
  else some (buf, inval)

def ringstore (buf : Ringbuf Item) (val : Item) : Option (Ringbuf Item) :=
  if buf.inptr < buf.base.length then some { buf with base := buf.base.set buf.inptr val, inptr := buf.inptr + 1 } else none

def ringput (inval : Item) (buf : Ringbuf Item) (val : Item) : Option (Ringbuf Item × Item) :=
  let buf := buf.wrapin
  if buf.inptr ≠ buf.outptr then
    do
      let buf ← ringstore buf val
      some (buf, val)
  else if !buf.init then
    do
      let buf ← ringstore buf val
      some ({ buf with init := true }, val)
  else some (buf, inval)

def getloop : Nat → Ringbuf Item → Option (Ringbuf Item × List Item)
  | 0, buf => some (buf, [])
  | nitem + 1, buf => do
      let item ← buf.base[buf.outptr]?
      let rest ← getloop nitem { buf with outptr := buf.outptr + 1 }
      some (rest.1, item :: rest.2)

def putloop : Nat → List Item → Ringbuf Item → Option (Ringbuf Item × List Item)
  | 0, src, buf => some (buf, src)
  | _ + 1, [], _ => none
  | nitem + 1, val :: src, buf => do
      let buf ← ringstore buf val
      putloop nitem src buf

-- while (nitem--) does not end for a negative number.
def getitems (nitem : Int) (buf : Ringbuf Item) : Option (Ringbuf Item × List Item) :=
  if nitem < 0 then none else getloop nitem.toNat buf

def putitems (nitem : Int) (src : List Item) (buf : Ringbuf Item) : Option (Ringbuf Item × List Item) :=
  if nitem < 0 then none else putloop nitem.toNat src buf

def getspan (buf : Ringbuf Item) : Int :=
  if buf.inptr < buf.outptr then (buf.lim : Int) - buf.outptr else (buf.inptr : Int) - buf.outptr

def putspan (buf : Ringbuf Item) : Int :=
  if buf.inptr < buf.outptr then (buf.outptr : Int) - buf.inptr else (buf.lim : Int) - buf.inptr

def ringgetmany (buf : Ringbuf Item) (len : Nat) : Option (Ringbuf Item × List Item × Int) := do
  let nitem := min (len : Int) (getspan buf)
  let first ← getitems nitem buf
  let buf := first.1.wrapout
  if buf.outptr ≠ buf.inptr then
    let more := min (len - nitem) ((buf.inptr : Int) - buf.outptr)
    let second ← getitems more buf
    some (second.1, first.2 ++ second.2, nitem + more)
  else some (buf, first.2, nitem)

def ringputmany (buf : Ringbuf Item) (src : List Item) : Option (Ringbuf Item × Int) := do
  let nitem := min (src.length : Int) (putspan buf)
  let first ← putitems nitem src buf
  let buf := first.1.wrapin
  if buf.inptr ≠ buf.outptr then
    let more := min (src.length - nitem) ((buf.outptr : Int) - buf.inptr)
    let second ← putitems more first.2 buf
    some (second.1, nitem + more)
  else some (buf, nitem)

-- RING_MEMCPY of so many bytes; blend is an item of which only the first bytes
-- have been copied.
def ringcopy (size : Nat) (blend : Nat → Item → Item → Item) : Nat → List Item → List Item → List Item
  | bytes, new :: ptr, old :: src =>
      (if size ≤ bytes then old else if 0 < bytes then blend bytes old new else new) :: ringcopy size blend (bytes - size) ptr src
  | _, ptr, _ => ptr

-- got is what RING_MALLOC returns, a buffer with anything in it or none. The
-- result says whether the pointer returned is other than NULL.
def ringresize (size : Nat) (blend : Nat → Item → Item → Item) (buf : Ringbuf Item) (nitem : Nat) (got : Option (List Item)) :
    Ringbuf Item × Bool :=
  if buf.nitem < nitem then
    match got with
    | none => (buf, false)
    | some ptr =>
        -- the byte count is the old number of items
        ({ buf with nitem := nitem, base := if buf.init then ringcopy size blend buf.nitem ptr buf.base else ptr }, true)
  else (buf, true)

inductive RingOp (Item : Type) where
  | ringput (val : Item)
  | ringget
  | ringputmany (src : List Item)
  | ringgetmany (len : Nat)
  | ringresize (nitem : Nat) (got : Option (List Item))

inductive RingOut (Item : Type) where
  | item (item : Item)
  | items (items : List Item) (ret : Int)
  | count (ret : Int)
  | ptr (valid : Bool)

def ringstep (inval : Item) (size : Nat) (blend : Nat → Item → Item → Item) (buf : Ringbuf Item) :
    RingOp Item → Option (Ringbuf Item × RingOut Item)
  | .ringput val => do
      let res ← ringput inval buf val
      some (res.1, .item res.2)
  | .ringget => do
      let res ← ringget inval buf
      some (res.1, .item res.2)
  | .ringputmany src => do
      let res ← ringputmany buf src
      some (res.1, .count res.2)
  | .ringgetmany len => do
      let res ← ringgetmany buf len
      some (res.1, .items res.2.1 res.2.2)
  | .ringresize nitem got => some ((ringresize size blend buf nitem got).1, .ptr (ringresize size blend buf nitem got).2)

-- What a ring buffer is for: the items accepted and not yet handed out, and how
-- many it is made for. A smaller size is not taken up.
structure Fifo (Item : Type) where
  held : List Item
  cap : Nat

def fifostep (inval : Item) (fifo : Fifo Item) : RingOp Item → Fifo Item × RingOut Item
  | .ringput val =>
      if fifo.held.length < fifo.cap then ({ fifo with held := fifo.held ++ [val] }, .item val) else (fifo, .item inval)
  | .ringget =>
      match fifo.held with
      | [] => (fifo, .item inval)
      | item :: rest => ({ fifo with held := rest }, .item item)
  | .ringputmany src =>
      let ret := min src.length (fifo.cap - fifo.held.length)
      ({ fifo with held := fifo.held ++ src.take ret }, .count ret)
  | .ringgetmany len => ({ fifo with held := fifo.held.drop len }, .items (fifo.held.take len) (min len fifo.held.length : Nat))
  | .ringresize nitem got =>
      if fifo.cap < nitem then (if got.isSome then ({ fifo with cap := nitem }, .ptr true) else (fifo, .ptr false))
      else (fifo, .ptr true)

-- The items held stand in the buffer from outptr on, around its end.
structure Rep (buf : Ringbuf Item) (fifo : Fifo Item) : Prop where
  nitem : buf.nitem = fifo.cap
  base : buf.base.length = fifo.cap
  fits : fifo.held.length ≤ fifo.cap
  held : ∀ index < fifo.held.length, buf.base[(buf.outptr + index) % fifo.cap]? = fifo.held[index]?
  next : buf.inptr % fifo.cap = (buf.outptr + fifo.held.length) % fifo.cap

-- RING_INVAL is no item, and an allocated buffer has the size asked for.
def Legal (inval : Item) (_ : Fifo Item) : RingOp Item → Prop
  | .ringput val => val ≠ inval
  | .ringputmany src => inval ∉ src
  | .ringresize nitem got => ∀ ptr, got = some ptr → ptr.length = nitem
  | _ => True

def Sound (fifo : Fifo Item) : RingOp Item → Prop
  | .ringput _ => fifo.held.length = fifo.cap
  | .ringget => fifo.held = []
  | .ringputmany src => src = [] ∨ fifo.cap = 0 ∨ (fifo.held = [] ∧ fifo.cap ≤ src.length)
  | .ringgetmany len => len = 0 ∨ fifo.held = []
  | .ringresize nitem got => fifo.held = [] ∨ nitem ≤ fifo.cap ∨ got = none

-- The only states a sound run goes through: both pointers at the base, and the
-- ring empty or full.
structure Idle (inval : Item) (buf : Ringbuf Item) (fifo : Fifo Item) : Prop where
  init : buf.init = true
  inptr : buf.inptr = 0
  outptr : buf.outptr = 0
  nitem : buf.nitem = fifo.cap
  base : buf.base.length = fifo.cap
  held : fifo.held = [] ∨ fifo.held = buf.base
  valid : inval ∉ fifo.held

theorem idle_rep (inval : Item) (buf : Ringbuf Item) (fifo : Fifo Item) (idle : Idle inval buf fifo) : Rep buf fifo := by
  refine ⟨idle.nitem, idle.base, ?_, ?_, ?_⟩
  · obtain empty | full := idle.held
    · simp [empty]
    · have same : fifo.held.length = fifo.cap := by rw [full, idle.base]
      exact Nat.le_of_eq same
  · intro index below
    obtain empty | full := idle.held
    · simp [empty] at below
    · rw [full, idle.base] at below
      rw [idle.outptr, Nat.zero_add, Nat.mod_eq_of_lt below, full]
  · obtain empty | full := idle.held
    · rw [idle.inptr, idle.outptr, empty]
      rfl
    · rw [idle.inptr, idle.outptr, full, idle.base, Nat.zero_add, Nat.mod_self, Nat.zero_mod]

section Steps

variable (inval : Item) (buf : Ringbuf Item) (fifo : Fifo Item) (idle : Idle inval buf fifo)

include idle

theorem idle_wrapin : buf.wrapin = buf := by
  unfold Ringbuf.wrapin
  split
  · rw [← idle.inptr]
  · rfl

theorem idle_wrapout : buf.wrapout = buf := by
  unfold Ringbuf.wrapout
  split
  · rw [← idle.outptr]
  · rfl

theorem idle_empty_pointers : ¬ buf.inptr ≠ buf.outptr := by
  rw [idle.inptr, idle.outptr]
  exact fun different => different rfl

theorem idle_put (val : Item) : ringput inval buf val = some (buf, inval) := by
  unfold ringput
  rw [idle_wrapin inval buf fifo idle]
  simp only [if_neg (idle_empty_pointers inval buf fifo idle), idle.init, Bool.not_true, Bool.false_eq_true, if_false]

theorem idle_get : ringget inval buf = some (buf, inval) := by
  unfold ringget
  rw [idle_wrapout inval buf fifo idle]
  simp only [idle.inptr, idle.outptr, ne_eq, not_true_eq_false, if_false]

theorem idle_getmany (len : Nat) : ringgetmany buf len = some (buf, [], 0) := by
  have span : min (len : Int) (getspan buf) = 0 := by
    unfold getspan
    rw [idle.inptr, idle.outptr, if_neg (Nat.lt_irrefl 0)]
    omega
  unfold ringgetmany
  simp only [span, getitems, Int.lt_irrefl, if_false, Int.toNat_zero, getloop, Option.bind_eq_bind, Option.bind_some,
    idle_wrapout inval buf fifo idle, idle.inptr, idle.outptr, ne_eq, not_true_eq_false]

theorem idle_putmany_none (src : List Item) (none : src = [] ∨ fifo.cap = 0) : ringputmany buf src = some (buf, 0) := by
  have span : min (src.length : Int) (putspan buf) = 0 := by
    unfold putspan
    rw [idle.inptr, idle.outptr, if_neg (Nat.lt_irrefl 0), Ringbuf.lim, idle.nitem]
    obtain empty | nothing := none
    · rw [empty, List.length_nil]
      omega
    · rw [nothing]
      omega
  unfold ringputmany
  simp only [span, putitems, Int.lt_irrefl, if_false, Int.toNat_zero, putloop, Option.bind_eq_bind, Option.bind_some,
    idle_wrapin inval buf fifo idle, idle.inptr, idle.outptr, ne_eq, not_true_eq_false]

end Steps

def Ringbuf.stored (buf : Ringbuf Item) (items : List Item) : Ringbuf Item :=
  ⟨buf.init, buf.nitem, buf.base.take buf.inptr ++ items ++ buf.base.drop (buf.inptr + items.length), buf.inptr + items.length,
    buf.outptr⟩

theorem stored_one (buf : Ringbuf Item) (val : Item) (room : buf.inptr < buf.base.length) :
    ringstore buf val = some (buf.stored [val]) := by
  rw [ringstore, if_pos room, Ringbuf.stored, List.set_eq_take_append_cons_drop, if_pos room]
  simp

theorem stored_more (buf : Ringbuf Item) (first rest : List Item) (room : buf.inptr + first.length + rest.length ≤ buf.base.length) :
    (buf.stored first).stored rest = buf.stored (first ++ rest) := by
  unfold Ringbuf.stored
  have head : (buf.base.take buf.inptr ++ first).length = buf.inptr + first.length := by simp; omega
  have before : (buf.base.take buf.inptr ++ first ++ buf.base.drop (buf.inptr + first.length)).take (buf.inptr + first.length) =
      buf.base.take buf.inptr ++ first := List.take_left' head
  have behind : (buf.base.take buf.inptr ++ first ++ buf.base.drop (buf.inptr + first.length)).drop
      (buf.inptr + first.length + rest.length) = buf.base.drop (buf.inptr + (first ++ rest).length) := by
    rw [← List.drop_drop, List.drop_left' head, List.drop_drop, List.length_append, Nat.add_assoc]
  dsimp only
  rw [before, behind, List.length_append, List.append_assoc (buf.base.take buf.inptr), Nat.add_assoc]

theorem putloop_stores (nitem : Nat) (src : List Item) (buf : Ringbuf Item) (enough : nitem ≤ src.length)
    (room : buf.inptr + nitem ≤ buf.base.length) : putloop nitem src buf = some (buf.stored (src.take nitem), src.drop nitem) := by
  induction nitem generalizing src buf with
  | zero => simp [putloop, Ringbuf.stored]
  | succ nitem ih =>
      cases src with
      | nil => simp at enough
      | cons val src =>
          rw [List.length_cons] at enough
          have short : (src.take nitem).length = nitem := by simp; omega
          have same : (buf.stored [val]).base.length = buf.base.length := by simp [Ringbuf.stored]; omega
          have ahead : (buf.stored [val]).inptr = buf.inptr + 1 := rfl
          rw [putloop, stored_one buf val (by omega), Option.bind_eq_bind, Option.bind_some,
            ih src _ (by omega) (by rw [same, ahead]; omega), stored_more buf [val] (src.take nitem) (by rw [short]; simp; omega)]
          rfl

theorem putspan_idle (inval : Item) (buf : Ringbuf Item) (fifo : Fifo Item) (idle : Idle inval buf fifo) :
    putspan buf = fifo.cap := by
  rw [putspan, idle.inptr, idle.outptr, if_neg (Nat.lt_irrefl 0), Ringbuf.lim, idle.nitem]
  exact Int.sub_zero _

theorem idle_putmany_all (inval : Item) (buf : Ringbuf Item) (fifo : Fifo Item) (idle : Idle inval buf fifo) (src : List Item)
    (enough : fifo.cap ≤ src.length) :
    ringputmany buf src = some ({ buf with base := src.take fifo.cap }, (fifo.cap : Int)) := by
  have span : min (src.length : Int) (putspan buf) = fifo.cap := by
    rw [putspan_idle inval buf fifo idle]
    omega
  have short : (src.take fifo.cap).length = fifo.cap := by simp; omega
  have stores := putloop_stores fifo.cap src buf enough (by rw [idle.inptr, idle.base]; omega)
  have filled : (buf.stored (src.take fifo.cap)).wrapin = { buf with base := src.take fifo.cap } := by
    unfold Ringbuf.wrapin Ringbuf.stored Ringbuf.lim
    rw [if_pos (by simp only [short, idle.inptr, idle.nitem, Nat.zero_add])]
    have behind : buf.base.drop fifo.cap = [] := List.drop_of_length_le (Nat.le_of_eq idle.base)
    simp only [idle.inptr, short, Nat.zero_add, List.take_zero, List.nil_append, behind, List.append_nil]
  unfold ringputmany
  simp only [span, putitems, Int.toNat_natCast, if_neg (show ¬ (fifo.cap : Int) < 0 by omega), stores, Option.bind_eq_bind,
    Option.bind_some, filled, idle.inptr, idle.outptr, ne_eq, not_true_eq_false, if_false]

-- With fewer the second loop counts down from a negative number.
theorem idle_putmany_wild (inval : Item) (buf : Ringbuf Item) (fifo : Fifo Item) (idle : Idle inval buf fifo) (src : List Item)
    (some : src ≠ []) (few : src.length < fifo.cap) : ringputmany buf src = none := by
  have positive : 0 < src.length := List.length_pos_iff.mpr some
  have span : min (src.length : Int) (putspan buf) = src.length := by
    rw [putspan_idle inval buf fifo idle]
    omega
  have stores := putloop_stores src.length src buf (Nat.le_refl _) (by rw [idle.inptr, idle.base]; omega)
  have stays : (buf.stored (src.take src.length)).wrapin = buf.stored src := by
    unfold Ringbuf.wrapin Ringbuf.lim
    rw [List.take_length, if_neg (by simp only [Ringbuf.stored, idle.inptr, idle.nitem]; omega)]
  have away : (buf.stored src).inptr = src.length := by simp [Ringbuf.stored, idle.inptr]
  have origin : (buf.stored src).outptr = 0 := idle.outptr
  unfold ringputmany
  simp only [span, putitems, Int.toNat_natCast, if_neg (show ¬ (src.length : Int) < 0 by omega), stores, Option.bind_eq_bind,
    Option.bind_some, stays, away, origin, if_pos (show src.length ≠ 0 by omega)]
  rw [if_pos (by omega)]
  rfl

theorem ringcopy_length (size : Nat) (blend : Nat → Item → Item → Item) (bytes : Nat) (ptr src : List Item) :
    (ringcopy size blend bytes ptr src).length = ptr.length := by
  induction ptr generalizing bytes src with
  | nil => cases src <;> rfl
  | cons new ptr ih =>
      cases src with
      | nil => rfl
      | cons old src => simp [ringcopy, ih]

theorem idle_resize (inval : Item) (size : Nat) (blend : Nat → Item → Item → Item) (buf : Ringbuf Item) (fifo : Fifo Item)
    (idle : Idle inval buf fifo) (nitem : Nat) (got : Option (List Item)) (legal : ∀ ptr, got = some ptr → ptr.length = nitem)
    (sound : fifo.held = [] ∨ nitem ≤ fifo.cap ∨ got = none) :
    ∃ next, ringstep inval size blend buf (.ringresize nitem got) = some (next, (fifostep inval fifo (.ringresize nitem got)).2) ∧
      Idle inval next (fifostep inval fifo (.ringresize nitem got)).1 := by
  dsimp only [ringstep, ringresize, fifostep]
  rw [idle.nitem]
  by_cases grows : fifo.cap < nitem
  · rw [if_pos grows, if_pos grows]
    cases got with
    | none => exact ⟨buf, rfl, idle⟩
    | some ptr =>
        have empty : fifo.held = [] := by
          obtain empty | small | nothing := sound
          · exact empty
          · exact absurd grows (Nat.not_lt.mpr small)
          · cases nothing
        refine ⟨_, rfl, idle.init, idle.inptr, idle.outptr, rfl, ?_, .inl empty, idle.valid⟩
        change (if buf.init = true then ringcopy size blend fifo.cap ptr buf.base else ptr).length = nitem
        rw [if_pos idle.init]
        exact (ringcopy_length size blend fifo.cap ptr buf.base).trans (legal ptr rfl)
  · rw [if_neg grows, if_neg grows]
    exact ⟨buf, rfl, idle⟩

theorem idle_putmany (inval : Item) (size : Nat) (blend : Nat → Item → Item → Item) (buf : Ringbuf Item) (fifo : Fifo Item)
    (idle : Idle inval buf fifo) (src : List Item) (legal : inval ∉ src)
    (sound : src = [] ∨ fifo.cap = 0 ∨ (fifo.held = [] ∧ fifo.cap ≤ src.length)) :
    ∃ next, ringstep inval size blend buf (.ringputmany src) = some (next, (fifostep inval fifo (.ringputmany src)).2) ∧
      Idle inval next (fifostep inval fifo (.ringputmany src)).1 := by
  by_cases none : src = [] ∨ fifo.cap = 0
  · have zero : min src.length (fifo.cap - fifo.held.length) = 0 := by
      obtain rfl | nothing := none
      · simp
      · simp [nothing]
    refine ⟨buf, ?_, ?_⟩
    · simp [ringstep, idle_putmany_none inval buf fifo idle src none, fifostep, zero]
    · simpa [fifostep, zero] using idle
  · obtain ⟨empty, enough⟩ : fifo.held = [] ∧ fifo.cap ≤ src.length := by
      obtain nothing | nothing | all := sound
      · exact absurd (.inl nothing) none
      · exact absurd (.inr nothing) none
      · exact all
    have all : min src.length (fifo.cap - fifo.held.length) = fifo.cap := by
      rw [empty, List.length_nil]
      omega
    refine ⟨_, by simp only [ringstep, idle_putmany_all inval buf fifo idle src enough, fifostep, all]; rfl, ?_⟩
    dsimp only [fifostep]
    rw [all, empty, List.nil_append]
    refine ⟨idle.init, idle.inptr, idle.outptr, idle.nitem, ?_, .inr rfl, fun member => legal (List.mem_of_mem_take member)⟩
    exact List.length_take_of_le enough

theorem idle_step (inval : Item) (size : Nat) (blend : Nat → Item → Item → Item) (buf : Ringbuf Item) (fifo : Fifo Item)
    (op : RingOp Item) (idle : Idle inval buf fifo) (legal : Legal inval fifo op) (sound : Sound fifo op) :
    ∃ next, ringstep inval size blend buf op = some (next, (fifostep inval fifo op).2) ∧ Idle inval next (fifostep inval fifo op).1 := by
  cases op with
  | ringput val =>
      have full : ¬ fifo.held.length < fifo.cap := by
        rw [show fifo.held.length = fifo.cap from sound]
        exact Nat.lt_irrefl _
      refine ⟨buf, ?_, ?_⟩
      · simp [ringstep, idle_put inval buf fifo idle, fifostep, full]
      · simpa [fifostep, full] using idle
  | ringget =>
      have empty : fifo.held = [] := sound
      refine ⟨buf, ?_, ?_⟩
      · simp [ringstep, idle_get inval buf fifo idle, fifostep, empty]
      · simpa [fifostep, empty] using idle
  | ringputmany src => exact idle_putmany inval size blend buf fifo idle src legal sound
  | ringgetmany len =>
      have nothing : fifo.held.take len = [] ∧ min len fifo.held.length = 0 ∧ fifo.held.drop len = fifo.held := by
        obtain rfl | empty := sound
        · simp
        · simp [empty]
      refine ⟨buf, ?_, ?_⟩
      · simp [ringstep, idle_getmany inval buf fifo idle len, fifostep, nothing]
      · simpa [fifostep, nothing] using idle
  | ringresize nitem got => exact idle_resize inval size blend buf fifo idle nitem got legal sound

theorem idle_length (inval : Item) (buf : Ringbuf Item) (fifo : Fifo Item) (idle : Idle inval buf fifo) (some : fifo.held ≠ []) :
    fifo.held.length = fifo.cap := by
  rw [idle.held.resolve_left some, idle.base]

theorem only_putmany (inval : Item) (buf next : Ringbuf Item) (fifo : Fifo Item) (idle : Idle inval buf fifo) (src : List Item)
    (taken : ringputmany buf src = some (next, ((min src.length (fifo.cap - fifo.held.length) : Nat) : Int))) :
    src = [] ∨ fifo.cap = 0 ∨ (fifo.held = [] ∧ fifo.cap ≤ src.length) := by
  by_cases none : src = []
  · exact .inl none
  by_cases few : src.length < fifo.cap
  · rw [idle_putmany_wild inval buf fifo idle src none few] at taken
    cases taken
  · right
    rw [idle_putmany_all inval buf fifo idle src (Nat.not_lt.mp few)] at taken
    have same : (fifo.cap : Int) = ((min src.length (fifo.cap - fifo.held.length) : Nat) : Int) :=
      (Prod.mk.inj (Option.some.inj taken)).2
    by_cases empty : fifo.held = []
    · exact .inr ⟨empty, Nat.not_lt.mp few⟩
    · rw [idle_length inval buf fifo idle empty] at same
      omega

theorem only_resize (inval : Item) (size : Nat) (blend : Nat → Item → Item → Item) (buf : Ringbuf Item) (fifo : Fifo Item)
    (idle : Idle inval buf fifo) (nitem : Nat) (got : Option (List Item))
    (rep : Rep (ringresize size blend buf nitem got).1 (fifostep inval fifo (.ringresize nitem got)).1) :
    fifo.held = [] ∨ nitem ≤ fifo.cap ∨ got = none := by
  by_cases grows : fifo.cap < nitem
  · cases got with
    | none => exact .inr (.inr rfl)
    | some ptr =>
        left
        by_contra some
        have next := rep.next
        have full := idle_length inval buf fifo idle some
        have nonempty := List.length_pos_iff.mpr some
        simp [ringresize, fifostep, idle.nitem, grows, idle.inptr, idle.outptr, full, Nat.mod_eq_of_lt grows] at next
        omega
  · exact .inr (.inl (Nat.not_lt.mp grows))

theorem only_sound (inval : Item) (size : Nat) (blend : Nat → Item → Item → Item) (buf : Ringbuf Item) (fifo : Fifo Item)
    (op : RingOp Item) (next : Ringbuf Item) (idle : Idle inval buf fifo) (legal : Legal inval fifo op)
    (taken : ringstep inval size blend buf op = some (next, (fifostep inval fifo op).2)) (rep : Rep next (fifostep inval fifo op).1) :
    Sound fifo op := by
  have fits := (idle_rep inval buf fifo idle).fits
  cases op with
  | ringput val =>
      by_cases room : fifo.held.length < fifo.cap
      · simp [ringstep, idle_put inval buf fifo idle, fifostep, room] at taken
        exact absurd taken.2.symm legal
      · exact Nat.le_antisymm fits (Nat.not_lt.mp room)
  | ringget =>
      cases held : fifo.held with
      | nil => exact held
      | cons item rest =>
          simp [ringstep, idle_get inval buf fifo idle, fifostep, held] at taken
          have valid := idle.valid
          rw [held, taken.2] at valid
          exact absurd List.mem_cons_self valid
  | ringputmany src =>
      apply only_putmany inval buf next fifo idle src
      dsimp only [ringstep, fifostep] at taken
      cases many : ringputmany buf src with
      | none =>
          rw [many] at taken
          cases taken
      | some res =>
          rw [many] at taken
          simpa [Prod.ext_iff] using taken
  | ringgetmany len =>
      simp [ringstep, idle_getmany inval buf fifo idle len, fifostep] at taken
      exact taken.2.1
  | ringresize nitem got =>
      dsimp only [ringstep] at taken
      obtain ⟨same, -⟩ := Prod.mk.inj (Option.some.inj taken)
      rw [← same] at rep
      exact only_resize inval size blend buf fifo idle nitem got rep

theorem ring_fifo (inval : Item) (size : Nat) (blend : Nat → Item → Item → Item) (base : List Item) (ops : List (RingOp Item))
    (legal : Along (fifostep inval) (Legal inval) ⟨[], base.length⟩ ops) :
    Refines (ringstep inval size blend) (fifostep inval) Rep (ringinit base base.length) ⟨[], base.length⟩ ops ↔
      Along (fifostep inval) Sound ⟨[], base.length⟩ ops := by
  apply refines_iff_invariant (ringstep inval size blend) (fifostep inval) (Idle inval) Rep (Legal inval) Sound (idle_rep inval)
    (fun buf fifo op => idle_step inval size blend buf fifo op) (fun buf fifo op next => only_sound inval size blend buf fifo op next)
    _ _ ops ?_ legal
  exact ⟨rfl, rfl, rfl, rfl, rfl, .inl rfl, List.not_mem_nil⟩

theorem ring_fifo_filled :
    Along (fifostep 0) (Legal 0) ⟨[], [1, 1].length⟩ [.ringget, .ringputmany [5, 6, 7], .ringput 8, .ringgetmany 0] ∧
      Refines (ringstep 0 4 fun _ old _ => old) (fifostep 0) Rep (ringinit [1, 1] 2) ⟨[], [1, 1].length⟩
        [.ringget, .ringputmany [5, 6, 7], .ringput 8, .ringgetmany 0] := by
  have legal : Along (fifostep 0) (Legal 0) ⟨[], [1, 1].length⟩ [.ringget, .ringputmany [5, 6, 7], .ringput 8, .ringgetmany 0] :=
    ⟨trivial, by simp [Legal], by simp [Legal], trivial, trivial⟩
  refine ⟨legal, (ring_fifo 0 4 (fun _ old _ => old) [1, 1] _ legal).mpr ?_⟩
  exact ⟨rfl, .inr (.inr ⟨rfl, by decide⟩), rfl, .inl rfl, trivial⟩

-- A new ring with room for two items refuses the first one.
theorem ringput_refused :
    ¬ Refines (ringstep 0 4 fun _ old _ => old) (fifostep 0) Rep (ringinit [1, 1] 2) ⟨[], 2⟩ [.ringput 7] := by
  rintro ⟨-, next, taken, -⟩
  have same := congrArg (Option.map Prod.snd) taken
  simp [ringstep, ringput, ringinit, Ringbuf.wrapin, Ringbuf.lim, fifostep] at same

end OsZero.Queue

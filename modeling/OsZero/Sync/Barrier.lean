import OsZero.Lib.Threads
import OsZero.Sync.Atomic

set_option autoImplicit false

namespace OsZero.Sync.Barrier

open Runs Threads

variable {Thread : Type} [DecidableEq Thread]

def BARFLAGBIT : Nat := 2 ^ 63

-- The lock names the thread that has it; num is an unsigned long.
structure Zerobar (Thread : Type) where
  lk : Option Thread
  num : Nat
  cnt : Nat

-- What a thread does next in barwait. The two waits have released the lock and
-- take it again whenever they are woken, for which there need be no reason.
inductive Pc where
  | out
  | lock
  | drain
  | drainwait
  | enter
  | full
  | fill
  | fillwait
  | leave
  | unlock (serial : Bool)
deriving DecidableEq

-- rets says of each barwait that has returned whether it gave BARSERIALTHR.
structure Own where
  pc : Pc
  rets : List Bool
deriving DecidableEq

def barlk (thread : Thread) (bar : Zerobar Thread) (own : Own) (next : Pc) : Zerobar Thread × Own :=
  if bar.lk = none then ({ bar with lk := some thread }, { own with pc := next }) else (bar, own)

def bartest (bar : Zerobar Thread) (own : Own) (waits : Prop) [Decidable waits] (wait next : Pc) : Zerobar Thread × Own :=
  if waits then ({ bar with lk := none }, { own with pc := wait }) else (bar, { own with pc := next })

def barenter (bar : Zerobar Thread) : Zerobar Thread :=
  { bar with num := ((if bar.num = BARFLAGBIT then 0 else bar.num) + 1) % 2 ^ 64 }

def barrelease (bar : Zerobar Thread) : Zerobar Thread := { bar with num := (bar.num + (BARFLAGBIT - 1)) % 2 ^ 64 }

def barfull (bar : Zerobar Thread) (own : Own) : Zerobar Thread × Own :=
  if bar.num = bar.cnt then (barrelease bar, { own with pc := .unlock true }) else (bar, { own with pc := .fill })

def barleave (bar : Zerobar Thread) : Zerobar Thread := { bar with num := (bar.num + (2 ^ 64 - 1)) % 2 ^ 64 }

def barstep (thread : Thread) (bar : Zerobar Thread) (own : Own) : Zerobar Thread × Own :=
  match own.pc with
  | .out => (bar, { own with pc := .lock })
  | .lock => barlk thread bar own .drain
  | .drain => bartest bar own (BARFLAGBIT < bar.num) .drainwait .enter
  | .drainwait => barlk thread bar own .drain
  | .enter => (barenter bar, { own with pc := .full })
  | .full => barfull bar own
  | .fill => bartest bar own (bar.num < BARFLAGBIT) .fillwait .leave
  | .fillwait => barlk thread bar own .fill
  | .leave => (barleave bar, { own with pc := .unlock false })
  | .unlock serial => ({ bar with lk := none }, ⟨.out, own.rets ++ [serial]⟩)

def barinit (cnt : Nat) : World Thread (Zerobar Thread) Own := ⟨⟨none, BARFLAGBIT, cnt⟩, fun _ => ⟨.out, []⟩⟩

def Own.calls (own : Own) : Nat := if own.pc = .out then own.rets.length else own.rets.length + 1

structure Good (world : World Thread (Zerobar Thread) Own) : Prop where
  together : ∀ thread other, (world.own thread).rets.length ≤ (world.own other).calls
  single : ∀ (round : Nat) one two, (world.own one).rets[round]? = some true → (world.own two).rets[round]? = some true → one = two
  chosen : ∀ round : Nat, (∀ thread, round < (world.own thread).rets.length) → ∃ thread, (world.own thread).rets[round]? = some true

def Pc.locked : Pc → Bool
  | .out => false
  | .lock => false
  | .drainwait => false
  | .fillwait => false
  | _ => true

-- Between the step that counts a thread in and the one that counts it out.
def Own.inside (own : Own) : Bool :=
  match own.pc with
  | .full => true
  | .fill => true
  | .fillwait => true
  | .leave => true
  | _ => false

-- The results of the rounds that a thread has been counted out of.
def Own.results (own : Own) : List Bool :=
  match own.pc with
  | .unlock serial => own.rets ++ [serial]
  | _ => own.rets

-- While a round fills nobody has been counted out of it.
structure Filling (world : World Thread (Zerobar Thread) Own) (inside round : Nat) : Prop where
  num : world.shared.num = if inside = 0 then BARFLAGBIT else inside
  behind : ∀ thread, (world.own thread).results.length = round
  stays : ∀ thread, (world.own thread).pc ≠ .leave
  room : inside < world.shared.cnt ∨ ∃ thread, (world.own thread).pc = .full

-- Once it is full nobody is counted in before everybody is counted out.
structure Draining (world : World Thread (Zerobar Thread) Own) (inside round : Nat) : Prop where
  num : world.shared.num = BARFLAGBIT + inside
  some : 0 < inside
  room : inside < world.shared.cnt
  behind : ∀ thread, (world.own thread).results.length + (world.own thread).inside.toNat = round
  stays : ∀ thread, (world.own thread).pc ≠ .enter ∧ (world.own thread).pc ≠ .full

structure Inv [Fintype Thread] (cnt : Nat) (world : World Thread (Zerobar Thread) Own) (round : Nat) : Prop where
  cnt : world.shared.cnt = cnt
  locked : ∀ thread, (world.own thread).pc.locked = true ↔ world.shared.lk = some thread
  free : ∀ thread, (world.own thread).pc = .enter → world.shared.num ≤ BARFLAGBIT
  phase : Filling world (tally Own.inside world) round ∨ Draining world (tally Own.inside world) round
  serial : ∀ earlier < round, ∃ chosen, ∀ thread, (world.own thread).results[earlier]? = some true ↔ thread = chosen

section Fields

variable (bar : Zerobar Thread)

omit [DecidableEq Thread]

@[simp] theorem barenter_num : (barenter bar).num = ((if bar.num = BARFLAGBIT then 0 else bar.num) + 1) % 2 ^ 64 := by rw [barenter]

@[simp] theorem barrelease_lk : (barrelease bar).lk = bar.lk := by rw [barrelease]

@[simp] theorem barrelease_cnt : (barrelease bar).cnt = bar.cnt := by rw [barrelease]

@[simp] theorem barrelease_num : (barrelease bar).num = (bar.num + (BARFLAGBIT - 1)) % 2 ^ 64 := by rw [barrelease]

@[simp] theorem barleave_lk : (barleave bar).lk = bar.lk := by rw [barleave]

@[simp] theorem barleave_cnt : (barleave bar).cnt = bar.cnt := by rw [barleave]

@[simp] theorem barleave_num : (barleave bar).num = (bar.num + (2 ^ 64 - 1)) % 2 ^ 64 := by rw [barleave]

end Fields

theorem tally_still [Fintype Thread] (world : World Thread (Zerobar Thread) Own) (thread : Thread) (next : Zerobar Thread × Own)
    (inside : next.2.inside = (world.own thread).inside) : tally Own.inside (world.put thread next) = tally Own.inside world := by
  have moved := tally_put Own.inside world thread next
  rw [inside] at moved
  omega

theorem serial_put [Fintype Thread] (cnt : Nat) (world : World Thread (Zerobar Thread) Own) (round : Nat) (thread : Thread)
    (next : Zerobar Thread × Own) (inv : Inv cnt world round) (earlier : Nat) (before : earlier < round)
    (results : next.2.results[earlier]? = some true ↔ (world.own thread).results[earlier]? = some true) :
    ∃ chosen, ∀ other, ((world.put thread next).own other).results[earlier]? = some true ↔ other = chosen := by
  obtain ⟨chosen, serial⟩ := inv.serial earlier before
  refine ⟨chosen, ?_⟩
  apply put_all world thread next fun other own => own.results[earlier]? = some true ↔ other = chosen
  · rw [results]
    exact serial thread
  · exact fun other _ => serial other

theorem inv_quiet [Fintype Thread] (cnt : Nat) (world : World Thread (Zerobar Thread) Own) (round : Nat) (thread : Thread)
    (next : Zerobar Thread × Own) (inv : Inv cnt world round) (num : next.1.num = world.shared.num)
    (total : next.1.cnt = world.shared.cnt) (inside : next.2.inside = (world.own thread).inside)
    (results : next.2.results = (world.own thread).results) (locked : next.2.pc.locked = true ↔ next.1.lk = some thread)
    (others : ∀ other, other ≠ thread → (next.1.lk = some other ↔ world.shared.lk = some other))
    (enters : next.2.pc = .enter → world.shared.num ≤ BARFLAGBIT)
    (leaves : next.2.pc = .leave → ¬ Filling world (tally Own.inside world) round) (tested : next.2.pc ≠ .full)
    (room : (world.own thread).pc = .full → tally Own.inside world < cnt) : Inv cnt (world.put thread next) round := by
  refine ⟨total.trans inv.cnt, ?_, ?_, ?_, ?_⟩
  · apply put_all world thread next fun other own => own.pc.locked = true ↔ next.1.lk = some other
    · exact locked
    · intro other different
      rw [inv.locked other, others other different]
  · rw [put_shared, num]
    apply put_all world thread next fun _ own => own.pc = .enter → world.shared.num ≤ BARFLAGBIT
    · exact enters
    · exact fun other _ => inv.free other
  · rw [tally_still world thread next inside]
    cases inv.phase with
    | inl filling =>
        refine .inl ⟨by rw [put_shared, num, filling.num], ?_, ?_, ?_⟩
        · apply put_all world thread next fun _ own => own.results.length = round
          · rw [results, filling.behind thread]
          · exact fun other _ => filling.behind other
        · apply put_all world thread next fun _ own => own.pc ≠ .leave
          · exact fun leaving => leaves leaving filling
          · exact fun other _ => filling.stays other
        · rw [put_shared, total]
          cases filling.room with
          | inl less => exact .inl less
          | inr found =>
              obtain ⟨other, full⟩ := found
              by_cases same : other = thread
              · subst same
                exact .inl (inv.cnt ▸ room full)
              · exact .inr ⟨other, by rw [put_there world thread next other same, full]⟩
    | inr draining =>
        refine .inr ⟨by rw [put_shared, num, draining.num], draining.some, by rw [put_shared, total]; exact draining.room, ?_, ?_⟩
        · apply put_all world thread next fun _ own => own.results.length + own.inside.toNat = round
          · rw [results, inside, draining.behind thread]
          · exact fun other _ => draining.behind other
        · apply put_all world thread next fun _ own => own.pc ≠ .enter ∧ own.pc ≠ .full
          · refine ⟨fun entering => ?_, tested⟩
            have low := enters entering
            have some := draining.some
            rw [draining.num] at low
            omega
          · exact fun other _ => draining.stays other
  · intro earlier before
    exact serial_put cnt world round thread next inv earlier before (by rw [results])

omit [DecidableEq Thread] in
theorem locked_single [Fintype Thread] (cnt : Nat) (world : World Thread (Zerobar Thread) Own) (round : Nat)
    (inv : Inv cnt world round) (one two : Thread) (left : (world.own one).pc.locked = true)
    (right : (world.own two).pc.locked = true) : one = two := by
  have first := (inv.locked one).mp left
  have second := (inv.locked two).mp right
  rw [first] at second
  exact Option.some.inj second

omit [DecidableEq Thread] in
-- While a thread is elsewhere under the lock, nobody is about to find the
-- round full.
theorem filling_room [Fintype Thread] (cnt : Nat) (world : World Thread (Zerobar Thread) Own) (round : Nat)
    (inv : Inv cnt world round) (filling : Filling world (tally Own.inside world) round) (thread : Thread)
    (locked : (world.own thread).pc.locked = true) (elsewhere : (world.own thread).pc ≠ .full) : tally Own.inside world < cnt := by
  cases filling.room with
  | inl less => exact inv.cnt ▸ less
  | inr found =>
      obtain ⟨other, full⟩ := found
      have same := locked_single cnt world round inv other thread (by rw [full]; rfl) locked
      exact absurd (same ▸ full) elsewhere

theorem locked_put [Fintype Thread] (cnt : Nat) (world : World Thread (Zerobar Thread) Own) (round : Nat) (thread : Thread)
    (next : Zerobar Thread × Own) (inv : Inv cnt world round) (before : (world.own thread).pc.locked = true)
    (keeps : next.1.lk = world.shared.lk) (after : next.2.pc.locked = true) (other : Thread) :
    ((world.put thread next).own other).pc.locked = true ↔ next.1.lk = some other := by
  apply put_all world thread next fun other own => own.pc.locked = true ↔ next.1.lk = some other
  · rw [keeps, ← inv.locked thread, before, after]
  · intro other _
    rw [keeps, inv.locked other]

theorem free_put [Fintype Thread] (cnt : Nat) (world : World Thread (Zerobar Thread) Own) (round : Nat) (thread : Thread)
    (next : Zerobar Thread × Own) (inv : Inv cnt world round) (before : (world.own thread).pc.locked = true)
    (away : next.2.pc ≠ .enter) (other : Thread) :
    ((world.put thread next).own other).pc = .enter → next.1.num ≤ BARFLAGBIT := by
  apply put_all world thread next fun _ own => own.pc = .enter → next.1.num ≤ BARFLAGBIT
  · exact fun entering => absurd entering away
  · intro other different entering
    exact absurd (locked_single cnt world round inv other thread (by rw [entering]; rfl) before) different

theorem enter_step [Fintype Thread] (cnt : Nat) (most : cnt ≤ 2 ^ 63) (world : World Thread (Zerobar Thread) Own) (round : Nat)
    (thread : Thread) (inv : Inv cnt world round) (here : (world.own thread).pc = .enter) :
    Inv cnt (world.put thread (barenter world.shared, { world.own thread with pc := .full })) round := by
  have locked : (world.own thread).pc.locked = true := by rw [here]; rfl
  have outside : (world.own thread).inside = false := by unfold Own.inside; rw [here]
  have same : Own.results { world.own thread with pc := .full } = (world.own thread).results := by
    unfold Own.results
    rw [here]
  have counted := tally_put Own.inside world thread (barenter world.shared, { world.own thread with pc := .full })
  have one : (Own.inside { world.own thread with pc := .full }).toNat = 1 := rfl
  rw [outside, Bool.toNat_false, Nat.add_zero, one] at counted
  have filling : Filling world (tally Own.inside world) round :=
    inv.phase.resolve_right fun draining => (draining.stays thread).1 here
  have room := filling_room cnt world round inv filling thread locked (by rw [here]; decide)
  refine ⟨inv.cnt, ?_, ?_, .inl ⟨?_, ?_, ?_, ?_⟩, ?_⟩
  · exact locked_put cnt world round thread _ inv locked rfl rfl
  · exact free_put cnt world round thread _ inv locked (by simp)
  · have num := filling.num
    rw [counted, if_neg (Nat.succ_ne_zero _), put_shared]
    rw [barenter_num]
    unfold BARFLAGBIT at num ⊢
    by_cases empty : tally Own.inside world = 0
    · rw [if_pos empty] at num
      rw [if_pos num, empty]
      omega
    · rw [if_neg empty] at num
      rw [if_neg (by omega), num]
      omega
  · apply put_all world thread _ fun _ own => own.results.length = round
    · rw [same, filling.behind thread]
    · exact fun other _ => filling.behind other
  · apply put_all world thread _ fun _ own => own.pc ≠ .leave
    · exact fun leaving => by cases leaving
    · exact fun other _ => filling.stays other
  · exact .inr ⟨thread, by rw [put_here]⟩
  · exact fun earlier before => serial_put cnt world round thread _ inv earlier before (by rw [same])

omit [DecidableEq Thread] in
-- The threads that have still to leave are counted above the flag; without
-- one the next round can fill.
theorem leaving_phase [Fintype Thread] (cnt : Nat) (world : World Thread (Zerobar Thread) Own) (round : Nat)
    (total : world.shared.cnt = cnt) (num : world.shared.num = BARFLAGBIT + tally Own.inside world)
    (room : tally Own.inside world < cnt)
    (behind : ∀ thread, (world.own thread).results.length + (world.own thread).inside.toNat = round)
    (stays : ∀ thread, (world.own thread).pc ≠ .enter ∧ (world.own thread).pc ≠ .full) :
    Filling world (tally Own.inside world) round ∨ Draining world (tally Own.inside world) round := by
  by_cases empty : tally Own.inside world = 0
  · have outside := tally_zero Own.inside world empty
    refine .inl ⟨by rw [num, empty, if_pos rfl, Nat.add_zero], fun thread => ?_, fun thread leaving => ?_, .inl (total ▸ room)⟩
    · have all := behind thread
      rwa [outside thread] at all
    · have out := outside thread
      unfold Own.inside at out
      rw [leaving] at out
      cases out
  · exact .inr ⟨num, Nat.pos_of_ne_zero empty, total ▸ room, behind, stays⟩

-- The last thread of a round releases it; it does not wait itself.
theorem release_step [Fintype Thread] (cnt : Nat) (count : Fintype.card Thread = cnt) (most : cnt ≤ 2 ^ 63)
    (world : World Thread (Zerobar Thread) Own) (round : Nat) (thread : Thread) (next : Zerobar Thread × Own)
    (inv : Inv cnt world round) (here : (world.own thread).pc = .full) (last : world.shared.num = world.shared.cnt)
    (moved : next = (barrelease world.shared, ⟨.unlock true, (world.own thread).rets⟩)) :
    Inv cnt (world.put thread next) (round + 1) := by
  have lk : next.1.lk = world.shared.lk := by rw [moved, barrelease_lk]
  have total : next.1.cnt = world.shared.cnt := by rw [moved, barrelease_cnt]
  have locked : (world.own thread).pc.locked = true := by rw [here]; rfl
  have isIn : (world.own thread).inside = true := by unfold Own.inside; rw [here]
  have results : next.2.results = (world.own thread).results ++ [true] := by rw [moved]; unfold Own.results; rw [here]
  have isOut : next.2.inside = false := by rw [moved]; rfl
  have filling : Filling world (tally Own.inside world) round :=
    inv.phase.resolve_right fun draining => (draining.stays thread).2 here
  have whole : tally Own.inside world = cnt := by
    have num := filling.num
    rw [if_neg (Nat.ne_of_gt (tally_pos Own.inside world thread isIn)), last, inv.cnt] at num
    exact num.symm
  have everyone := tally_full Own.inside world (whole.trans count.symm)
  have counted := tally_put Own.inside world thread next
  rw [isIn, isOut, whole, Bool.toNat_true, Bool.toNat_false, Nat.add_zero] at counted
  have num : next.1.num = BARFLAGBIT + tally Own.inside (world.put thread next) := by
    rw [moved, barrelease_num, last, inv.cnt, ← moved]
    unfold BARFLAGBIT
    omega
  refine ⟨total.trans inv.cnt, locked_put cnt world round thread next inv locked lk (by rw [moved]; rfl),
    free_put cnt world round thread next inv locked (by simp [moved]), ?_, ?_⟩
  · have behind : ∀ other, ((world.put thread next).own other).results.length + ((world.put thread next).own other).inside.toNat =
        round + 1 := by
      apply put_all world thread next fun _ own => own.results.length + own.inside.toNat = round + 1
      · rw [results, isOut, List.length_append, filling.behind thread]
        rfl
      · intro other _
        rw [filling.behind other, everyone other]
        rfl
    apply leaving_phase cnt _ (round + 1) (total.trans inv.cnt) num (by omega) behind
    apply put_all world thread next fun _ own => own.pc ≠ .enter ∧ own.pc ≠ .full
    · simp [moved]
    · intro other different
      constructor
      · intro entering
        exact different (locked_single cnt world round inv other thread (by rw [entering]; rfl) locked)
      · intro full
        exact different (locked_single cnt world round inv other thread (by rw [full]; rfl) locked)
  · intro earlier before
    by_cases old : earlier < round
    · apply serial_put cnt world round thread next inv earlier old
      rw [results, List.getElem?_append_left (by rw [filling.behind thread]; exact old)]
    · have current : earlier = round := by omega
      refine ⟨thread, ?_⟩
      apply put_all world thread next fun other own => own.results[earlier]? = some true ↔ other = thread
      · rw [results, current, ← filling.behind thread, List.getElem?_concat_length]
        simp
      · intro other different
        rw [List.getElem?_eq_none (by rw [filling.behind other, current])]
        simp [different]

theorem leave_step [Fintype Thread] (cnt : Nat) (most : cnt ≤ 2 ^ 63) (world : World Thread (Zerobar Thread) Own) (round : Nat)
    (thread : Thread) (next : Zerobar Thread × Own) (inv : Inv cnt world round) (here : (world.own thread).pc = .leave)
    (moved : next = (barleave world.shared, ⟨.unlock false, (world.own thread).rets⟩)) : Inv cnt (world.put thread next) round := by
  have lk : next.1.lk = world.shared.lk := by rw [moved, barleave_lk]
  have total : next.1.cnt = world.shared.cnt := by rw [moved, barleave_cnt]
  have counted : next.1.num = (world.shared.num + (2 ^ 64 - 1)) % 2 ^ 64 := by rw [moved, barleave_num]
  have locked : (world.own thread).pc.locked = true := by rw [here]; rfl
  have isIn : (world.own thread).inside = true := by unfold Own.inside; rw [here]
  have results : next.2.results = (world.own thread).results ++ [false] := by rw [moved]; unfold Own.results; rw [here]
  have isOut : next.2.inside = false := by rw [moved]; rfl
  have draining : Draining world (tally Own.inside world) round := inv.phase.resolve_left fun filling => filling.stays thread here
  have fewer := tally_put Own.inside world thread next
  rw [isIn, isOut, Bool.toNat_true, Bool.toNat_false, Nat.add_zero] at fewer
  have room := draining.room
  rw [inv.cnt] at room
  have behind := draining.behind thread
  rw [isIn, Bool.toNat_true] at behind
  refine ⟨total.trans inv.cnt, locked_put cnt world round thread next inv locked lk (by rw [moved]; rfl),
    free_put cnt world round thread next inv locked (by simp [moved]), ?_, ?_⟩
  · apply leaving_phase cnt _ round (total.trans inv.cnt) ?_ (by omega)
    · apply put_all world thread next fun _ own => own.results.length + own.inside.toNat = round
      · rw [results, isOut, List.length_append, ← behind]
        rfl
      · exact fun other _ => draining.behind other
    · apply put_all world thread next fun _ own => own.pc ≠ .enter ∧ own.pc ≠ .full
      · simp [moved]
      · exact fun other _ => draining.stays other
    · rw [put_shared, counted, draining.num]
      unfold BARFLAGBIT
      omega
  · intro earlier before
    apply serial_put cnt world round thread next inv earlier before
    rw [results]
    by_cases old : earlier < (world.own thread).results.length
    · rw [List.getElem?_append_left old]
    · have last : earlier = (world.own thread).results.length := by omega
      rw [last, List.getElem?_concat_length, List.getElem?_eq_none (Nat.le_refl _)]
      simp

theorem lock_step [Fintype Thread] (cnt : Nat) (world : World Thread (Zerobar Thread) Own) (round : Nat) (thread : Thread) (next : Pc)
    (inv : Inv cnt world round) (before : (world.own thread).pc ≠ .full) (locked : next.locked = true)
    (away : next ≠ .enter ∧ next ≠ .leave ∧ next ≠ .full)
    (inside : Own.inside ⟨next, (world.own thread).rets⟩ = (world.own thread).inside)
    (results : Own.results ⟨next, (world.own thread).rets⟩ = (world.own thread).results) :
    Inv cnt (world.put thread (barlk thread world.shared (world.own thread) next)) round := by
  unfold barlk
  by_cases free : world.shared.lk = none
  · rw [if_pos free]
    apply inv_quiet cnt world round thread _ inv rfl rfl inside results
    · exact ⟨fun _ => rfl, fun _ => locked⟩
    · exact lk_taken thread world.shared.lk free
    · exact fun entering => absurd entering away.1
    · exact fun leaving => absurd leaving away.2.1
    · exact away.2.2
    · exact fun full => absurd full before
  · rw [if_neg free, put_same]
    exact inv

omit [DecidableEq Thread] in
theorem full_room [Fintype Thread] (cnt : Nat) (count : Fintype.card Thread = cnt) (world : World Thread (Zerobar Thread) Own)
    (round : Nat) (thread : Thread) (inv : Inv cnt world round) (here : (world.own thread).pc = .full)
    (more : world.shared.num ≠ world.shared.cnt) : tally Own.inside world < cnt := by
  have isIn : (world.own thread).inside = true := by unfold Own.inside; rw [here]
  have filling : Filling world (tally Own.inside world) round :=
    inv.phase.resolve_right fun draining => (draining.stays thread).2 here
  have num := filling.num
  rw [if_neg (Nat.ne_of_gt (tally_pos Own.inside world thread isIn))] at num
  rw [num, inv.cnt] at more
  have most := tally_le Own.inside world
  omega

omit [DecidableEq Thread] in
theorem filling_waits [Fintype Thread] (cnt : Nat) (most : cnt ≤ 2 ^ 63) (world : World Thread (Zerobar Thread) Own) (round : Nat)
    (thread : Thread) (inv : Inv cnt world round) (filling : Filling world (tally Own.inside world) round)
    (here : (world.own thread).pc = .fill) : world.shared.num < BARFLAGBIT := by
  have isIn : (world.own thread).inside = true := by unfold Own.inside; rw [here]
  have room := filling_room cnt world round inv filling thread (by rw [here]; rfl) (by simp [here])
  rw [filling.num, if_neg (Nat.ne_of_gt (tally_pos Own.inside world thread isIn))]
  exact Nat.lt_of_lt_of_le room most

theorem inv_step [Fintype Thread] (cnt : Nat) (count : Fintype.card Thread = cnt) (most : cnt ≤ 2 ^ 63)
    (world : World Thread (Zerobar Thread) Own) (thread : Thread) (round : Nat) (inv : Inv cnt world round) :
    ∃ later, Inv cnt (after id barstep world thread) later := by
  have mine := inv.locked thread
  have quiet := inv_quiet cnt world round thread
  unfold after barstep
  dsimp only [id]
  cases here : (world.own thread).pc with
  | out =>
      rw [here] at mine
      refine ⟨round, quiet _ inv rfl rfl ?_ ?_ mine (fun _ _ => Iff.rfl) ?_ ?_ ?_ ?_⟩ <;> simp [Own.inside, Own.results, here]
  | lock =>
      refine ⟨round, lock_step cnt world round thread .drain inv ?_ rfl ?_ ?_ ?_⟩ <;> simp [Own.inside, Own.results, here]
  | drain =>
      rw [here] at mine
      dsimp only [bartest]
      by_cases waits : BARFLAGBIT < world.shared.num
      · rw [if_pos waits]
        have others := lk_released thread world.shared.lk (mine.mp rfl)
        refine ⟨round, quiet _ inv rfl rfl ?_ ?_ ?_ others ?_ ?_ ?_ ?_⟩ <;> simp [Own.inside, Own.results, Pc.locked, here]
      · rw [if_neg waits]
        refine ⟨round, quiet _ inv rfl rfl ?_ ?_ mine (fun _ _ => Iff.rfl) (fun _ => Nat.not_lt.mp waits) ?_ ?_ ?_⟩ <;>
          simp [Own.inside, Own.results, here]
  | drainwait =>
      refine ⟨round, lock_step cnt world round thread .drain inv ?_ rfl ?_ ?_ ?_⟩ <;> simp [Own.inside, Own.results, here]
  | enter => exact ⟨round, enter_step cnt most world round thread inv here⟩
  | full =>
      dsimp only [barfull]
      by_cases last : world.shared.num = world.shared.cnt
      · rw [if_pos last]
        exact ⟨round + 1, release_step cnt count most world round thread _ inv here last rfl⟩
      · rw [if_neg last]
        rw [here] at mine
        refine ⟨round, quiet _ inv rfl rfl ?_ ?_ mine (fun _ _ => Iff.rfl) ?_ ?_ ?_ fun _ => ?_⟩
        · simp [Own.inside, here]
        · simp [Own.results, here]
        · simp
        · simp
        · simp
        · exact full_room cnt count world round thread inv here last
  | fill =>
      have locked : (world.own thread).pc.locked = true := by rw [here]; rfl
      rw [here] at mine
      dsimp only [bartest]
      by_cases waits : world.shared.num < BARFLAGBIT
      · rw [if_pos waits]
        have others := lk_released thread world.shared.lk (mine.mp rfl)
        refine ⟨round, quiet _ inv rfl rfl ?_ ?_ ?_ others ?_ ?_ ?_ ?_⟩ <;> simp [Own.inside, Own.results, Pc.locked, here]
      · rw [if_neg waits]
        refine ⟨round, quiet _ inv rfl rfl ?_ ?_ mine (fun _ _ => Iff.rfl) ?_ (fun _ filling => ?_) ?_ ?_⟩
        · simp [Own.inside, here]
        · simp [Own.results, here]
        · simp
        · exact waits (filling_waits cnt most world round thread inv filling here)
        · simp
        · simp [here]
  | fillwait =>
      refine ⟨round, lock_step cnt world round thread .fill inv ?_ rfl ?_ ?_ ?_⟩ <;> simp [Own.inside, Own.results, here]
  | leave => exact ⟨round, leave_step cnt most world round thread _ inv here rfl⟩
  | unlock serial =>
      rw [here] at mine
      have others := lk_released thread world.shared.lk (mine.mp rfl)
      refine ⟨round, quiet _ inv rfl rfl ?_ ?_ ?_ others ?_ ?_ ?_ ?_⟩ <;> simp [Own.inside, Own.results, Pc.locked, here]

theorem own_counts (own : Own) : own.rets <+: own.results ∧ own.results.length + own.inside.toNat ≤ own.calls := by
  unfold Own.results Own.inside Own.calls
  cases own.pc <;> simp

omit [DecidableEq Thread] in
theorem inv_behind [Fintype Thread] (cnt : Nat) (world : World Thread (Zerobar Thread) Own) (round : Nat) (inv : Inv cnt world round)
    (thread : Thread) : (world.own thread).results.length ≤ round ∧ round ≤ (world.own thread).calls := by
  have counts := (own_counts (world.own thread)).2
  cases inv.phase with
  | inl filling =>
      have behind := filling.behind thread
      omega
  | inr draining =>
      have behind := draining.behind thread
      omega

omit [DecidableEq Thread] in
theorem rets_results [Fintype Thread] (cnt : Nat) (world : World Thread (Zerobar Thread) Own) (round : Nat)
    (inv : Inv cnt world round) (thread : Thread) (earlier : Nat) (found : (world.own thread).rets[earlier]? = some true) :
    earlier < round ∧ (world.own thread).results[earlier]? = some true := by
  obtain ⟨rest, whole⟩ := (own_counts (world.own thread)).1
  have inside := (List.getElem?_eq_some_iff.mp found).1
  have behind := (inv_behind cnt world round inv thread).1
  rw [← whole] at behind ⊢
  rw [List.length_append] at behind
  exact ⟨by omega, by rw [List.getElem?_append_left inside, found]⟩

omit [DecidableEq Thread] in
theorem inv_good [Fintype Thread] (cnt : Nat) (count : Fintype.card Thread = cnt) (least : 1 ≤ cnt)
    (world : World Thread (Zerobar Thread) Own) (round : Nat) (inv : Inv cnt world round) : Good world := by
  constructor
  · intro thread other
    have shorter := (own_counts (world.own thread)).1.length_le
    have returned := (inv_behind cnt world round inv thread).1
    have entered := (inv_behind cnt world round inv other).2
    omega
  · intro earlier one two left right
    obtain ⟨before, first⟩ := rets_results cnt world round inv one earlier left
    obtain ⟨_, second⟩ := rets_results cnt world round inv two earlier right
    obtain ⟨chosen, serial⟩ := inv.serial earlier before
    rw [(serial one).mp first, (serial two).mp second]
  · intro earlier returned
    obtain ⟨some⟩ : Nonempty Thread := Fintype.card_pos_iff.mp (by omega)
    have before : earlier < round := by
      have shorter := (own_counts (world.own some)).1.length_le
      have behind := (inv_behind cnt world round inv some).1
      have long := returned some
      omega
    obtain ⟨chosen, serial⟩ := inv.serial earlier before
    obtain ⟨rest, whole⟩ := (own_counts (world.own chosen)).1
    refine ⟨chosen, ?_⟩
    rw [← (serial chosen).mpr rfl, ← whole, List.getElem?_append_left (returned chosen)]

omit [DecidableEq Thread] in
theorem barinit_inv [Fintype Thread] (cnt : Nat) (least : 1 ≤ cnt) : Inv cnt (barinit cnt : World Thread (Zerobar Thread) Own) 0 := by
  have empty : tally Own.inside (barinit cnt : World Thread (Zerobar Thread) Own) = 0 := Finset.sum_eq_zero fun _ _ => rfl
  refine ⟨rfl, ?_, ?_, .inl ⟨?_, ?_, ?_, .inl ?_⟩, ?_⟩
  · simp [barinit, Pc.locked]
  · simp [barinit]
  · rw [empty]
    rfl
  · simp [barinit, Own.results]
  · simp [barinit]
  · rw [empty]
    exact least
  · intro earlier before
    cases before

theorem barwait_rounds [Fintype Thread] (cnt : Nat) (count : Fintype.card Thread = cnt) (least : 1 ≤ cnt) (most : cnt ≤ BARFLAGBIT)
    (steps : List Thread) : Holds (act id barstep) Good (fun _ _ => True) (barinit cnt) steps := by
  apply act_holds id barstep (fun world => ∃ round, Inv cnt world round) Good _ (fun _ _ => True) ?_ ?_ (barinit cnt) steps
    ⟨0, barinit_inv cnt least⟩ (always_meets id barstep (barinit cnt) steps)
  · rintro world ⟨round, inv⟩
    exact inv_good cnt count least world round inv
  · rintro world thread ⟨round, inv⟩ _
    exact ⟨trivial, inv_step cnt count most world thread round inv⟩

theorem barwait_rounds_three : Holds (act id barstep) Good (fun _ _ => True) (barinit 3) [(0 : Fin 3), 1, 1, 2, 1, 0] :=
  barwait_rounds 3 rfl (by decide) (by decide) _

omit [DecidableEq Thread] in
theorem alone_enters (thread : Thread) (cnt num inside : Nat) (empty : num = if inside = 0 then BARFLAGBIT else inside)
    (below : inside < BARFLAGBIT) (more : inside + 1 ≠ cnt) :
    alone barstep thread 5 (⟨none, num, cnt⟩, ⟨.out, []⟩) = (⟨some thread, inside + 1, cnt⟩, ⟨.fill, []⟩) := by
  have low : ¬ BARFLAGBIT < num := by
    rw [empty]
    split <;> omega
  have counted : ((if num = BARFLAGBIT then 0 else num) + 1) % 2 ^ 64 = inside + 1 := by
    rw [empty]
    unfold BARFLAGBIT at below ⊢
    split <;> split <;> omega
  simp only [alone, barstep, barlk, bartest, barenter, barfull, if_pos, if_neg low, counted, if_neg more]

theorem many_wait (cnt inside : Nat) (large : BARFLAGBIT < cnt) (below : inside < BARFLAGBIT) :
    ∃ steps, (run id barstep (barinit cnt) steps).shared = ⟨none, if inside = 0 then BARFLAGBIT else inside, cnt⟩ ∧
      ∀ thread : Fin cnt, (run id barstep (barinit cnt) steps).own thread =
        ⟨if thread.val < inside then .fillwait else .out, []⟩ := by
  induction inside with
  | zero => exact ⟨[], rfl, fun thread => rfl⟩
  | succ inside ih =>
      obtain ⟨steps, shared, own⟩ := ih (by omega)
      have here := own ⟨inside, by omega⟩
      rw [if_neg (Nat.lt_irrefl _)] at here
      have waits : alone barstep (⟨inside, by omega⟩ : Fin cnt) 6 (⟨none, if inside = 0 then BARFLAGBIT else inside, cnt⟩, ⟨.out, []⟩) =
          (⟨none, inside + 1, cnt⟩, ⟨.fillwait, []⟩) := by
        rw [alone_add barstep _ 5 1, alone_enters _ cnt _ inside rfl (by omega) (by omega)]
        simp only [alone, barstep, bartest, if_pos below]
      refine ⟨steps ++ List.replicate 6 ⟨inside, by omega⟩, ?_, ?_⟩
      · rw [run_append, run_alone, shared, id, here, waits, put_shared, if_neg (Nat.succ_ne_zero _)]
      · rw [run_append, run_alone, shared, id, here, waits]
        apply put_all _ _ _ fun (thread : Fin cnt) (own : Own) => own = ⟨if thread.val < inside + 1 then .fillwait else .out, []⟩
        · rw [if_pos (Nat.lt_succ_self _)]
        · intro other different
          rw [own other]
          have same : (other.val < inside + 1) ↔ other.val < inside := by
            have apart : other.val ≠ inside := fun same => different (Fin.ext same)
            omega
          simp only [same]

omit [DecidableEq Thread] in
-- The thread that makes the number of those inside equal to the flag does not wait.
theorem alone_leaves (thread : Thread) (cnt inside : Nat) (some : inside ≠ 0) (last : inside + 1 = BARFLAGBIT) (more : inside + 1 ≠ cnt) :
    alone barstep thread 8 (⟨none, inside, cnt⟩, ⟨.out, []⟩) = (⟨none, inside, cnt⟩, ⟨.out, [false]⟩) := by
  have counted : (inside + 1 + (2 ^ 64 - 1)) % 2 ^ 64 = inside := by
    unfold BARFLAGBIT at last
    omega
  rw [alone_add barstep _ 5 3, alone_enters thread cnt inside inside (by rw [if_neg some]) (by omega) more]
  simp only [alone, barstep, bartest, if_neg (show ¬ inside + 1 < BARFLAGBIT by omega), barleave, counted]
  rfl

-- With more threads than the flag leaves room for, one returns before the
-- last has entered.
theorem barwait_early (cnt inside : Nat) (large : BARFLAGBIT < cnt) (some : inside ≠ 0) (last : inside + 1 = BARFLAGBIT) :
    ∃ steps : List (Fin cnt), ¬ Good (run id barstep (barinit cnt) steps) := by
  obtain ⟨steps, shared, own⟩ := many_wait cnt inside large (by omega)
  have here := own ⟨inside, by omega⟩
  have outside := own ⟨inside + 1, by omega⟩
  rw [if_neg (Nat.lt_irrefl _)] at here
  rw [if_neg (by simp)] at outside
  rw [if_neg some] at shared
  refine ⟨steps ++ List.replicate 8 ⟨inside, by omega⟩, fun good => ?_⟩
  rw [run_append, run_alone, shared, id, here, alone_leaves _ cnt inside some last (by omega)] at good
  have early := good.together ⟨inside, by omega⟩ ⟨inside + 1, by omega⟩
  rw [put_here, put_there _ _ _ _ (by simp), outside] at early
  cases early

theorem barwait_overflows : ¬ ∀ steps : List (Fin (BARFLAGBIT + 1)),
    Holds (act id barstep) Good (fun _ _ => True) (barinit (BARFLAGBIT + 1)) steps := by
  intro holds
  obtain ⟨steps, bad⟩ := barwait_early (BARFLAGBIT + 1) (BARFLAGBIT - 1) (Nat.lt_succ_self _) (by decide) (by decide)
  exact bad (holds_run id barstep _ _ _ _ (holds steps))

end OsZero.Sync.Barrier

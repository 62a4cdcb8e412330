import OsZero.Rand.Randmt
import Mathlib.Tactic.SplitIfs

set_option autoImplicit false

namespace OsZero.Rand

open Twister

variable {width : Nat}

def wide (x : BitVec width) : Word := x.setWidth 64

def narrow (width : Nat) (v : Word) : BitVec width := v.setWidth width

-- The constants of the code are those of a register of words of the width.
structure Conforms (c : Consts) (p : Params width) : Prop where
  fits : width ≤ 64
  nstate : c.nstate = p.n
  magic : c.magic = p.m
  split : c.split = p.n - p.m
  back : c.back = p.n - p.m
  matrix : c.matrix = wide p.matrix
  himask : c.himask = wide p.upper
  lomask : c.lomask = wide p.lower
  mask : c.mask = wide (BitVec.allOnes width)
  tabseed : narrow width c.tabseed = p.tabseed
  mult1 : narrow width c.mult1 = p.mult1
  mult2 : narrow width c.mult2 = p.mult2
  mult3 : narrow width c.mult3 = p.mult3
  shift : c.shift = p.shift
  first : c.first = wide p.first

theorem narrow_wide (fits : width ≤ 64) (x : BitVec width) : narrow width (wide x) = x := by
  simp [narrow, wide, fits]

theorem and_wide (v : Word) (x : BitVec width) : v &&& wide x = wide (narrow width v &&& x) := by
  unfold wide narrow
  ext i hi
  by_cases inside : i < width
  · simp [inside, BitVec.getLsbD_eq_getElem hi]
  · simp [inside, BitVec.getLsbD_of_ge x i (by omega)]

theorem wide_xor (x y : BitVec width) : wide (x ^^^ y) = wide x ^^^ wide y := BitVec.setWidth_xor

theorem wide_or (x y : BitVec width) : wide (x ||| y) = wide x ||| wide y := BitVec.setWidth_or

theorem wide_and (x y : BitVec width) : wide (x &&& y) = wide x &&& wide y := BitVec.setWidth_and

theorem wide_shift (fits : width ≤ 64) (x : BitVec width) (n : Nat) : wide (x >>> n) = wide x >>> n := BitVec.setWidth_ushiftRight fits

theorem narrow_xor (v w : Word) : narrow width (v ^^^ w) = narrow width v ^^^ narrow width w := BitVec.setWidth_xor

theorem narrow_add (fits : width ≤ 64) (v w : Word) : narrow width (v + w) = narrow width v + narrow width w :=
  BitVec.setWidth_add v w fits

theorem narrow_mul (fits : width ≤ 64) (v w : Word) : narrow width (v * w) = narrow width v * narrow width w :=
  BitVec.setWidth_mul v w fits

theorem narrow_sub (fits : width ≤ 64) (v w : Word) : narrow width (v - w) = narrow width v - narrow width w := by
  have sum : narrow width (v - w) + narrow width w = narrow width v := by
    rw [← narrow_add fits, BitVec.sub_add_cancel]
  rw [← sum, BitVec.add_sub_cancel]

theorem narrow_ofNat (fits : width ≤ 64) (n : Nat) : narrow width (BitVec.ofNat 64 n) = BitVec.ofNat width n :=
  BitVec.setWidth_ofNat_of_le fits n

theorem wide_odd (x : BitVec width) : (wide x &&& 1 = 0) ↔ x.getLsbD 0 = false := by
  rw [show (1 : Word) = 1#64 from rfl, BitVec.and_one_eq_setWidth_ofBool_getLsbD]
  have low : (wide x).getLsbD 0 = x.getLsbD 0 := by simp [wide]
  rw [low]
  cases x.getLsbD 0 <;> simp

section

variable (c : Consts) (p : Params width) (conforms : Conforms c p)

include conforms

theorem masked (v : Word) : v &&& c.mask = wide (narrow width v) := by
  rw [conforms.mask, and_wide, BitVec.and_allOnes]

theorem blend_wide (x : BitVec width) : wide x ^^^ (wide x >>> c.shift) = wide (p.blend x) := by
  rw [Params.blend, conforms.shift, wide_xor, wide_shift conforms.fits]

-- The words below nstate are those of a sequence.
def Held (c : Consts) (state : Nat → Word) (mt : Nat → BitVec width) : Prop := ∀ i, i < c.nstate → state i = wide (mt i)

omit conforms in
theorem fetch_held (state : Nat → Word) (mt : Nat → BitVec width) (held : Held c state mt) (i : Nat) (inside : i < c.nstate) :
    fetch c state i = some (wide (mt i)) := by
  rw [fetch, if_pos inside, held i inside]

omit conforms in
theorem store_held (state : Nat → Word) (mt : Nat → BitVec width) (held : Held c state mt) (i : Nat) (inside : i < c.nstate)
    (x : BitVec width) : ∃ after, store c state i (wide x) = some after ∧ Held c after (Function.update mt i x) := by
  refine ⟨Function.update state i (wide x), by rw [store, if_pos inside], ?_⟩
  intro k low
  by_cases same : k = i
  · subst same
    simp
  · simp [Function.update_of_ne same, held k low]

theorem seedloop_held (seed : BitVec width) (left ndx : Nat) (state : Nat → Word) (positive : 1 ≤ ndx) (size : ndx + left = c.nstate)
    (held : ∀ i, i < ndx → state i = wide (p.seeded seed i)) :
    ∃ after, seedloop c left ndx (wide (p.seeded seed (ndx - 1))) state = some after ∧ Held c after (p.seeded seed) := by
  induction left generalizing ndx state with
  | zero =>
    refine ⟨state, rfl, ?_⟩
    intro i low
    exact held i (by omega)
  | succ left ih =>
    obtain ⟨before, rfl⟩ : ∃ before, ndx = before + 1 := ⟨ndx - 1, by omega⟩
    have value : (c.mult1 * (wide (p.seeded seed before) ^^^ (wide (p.seeded seed before) >>> c.shift)) + BitVec.ofNat 64 (before + 1)) &&& c.mask =
        wide (p.seeded seed (before + 1)) := by
      rw [masked c p conforms, blend_wide c p conforms, narrow_add conforms.fits, narrow_mul conforms.fits, narrow_wide conforms.fits,
        conforms.mult1, narrow_ofNat conforms.fits, Params.seeded]
    have next := ih (before + 1 + 1) (Function.update state (before + 1) (wide (p.seeded seed (before + 1)))) (by omega) (by omega) (by
      intro i low
      by_cases same : i = before + 1
      · subst same
        simp
      · rw [Function.update_of_ne same]
        exact held i (by omega))
    obtain ⟨after, run, kept⟩ := next
    refine ⟨after, ?_, kept⟩
    simp only [seedloop, Nat.add_sub_cancel, value, store, show before + 1 < c.nstate by omega, if_true, Option.bind_eq_bind, Option.bind_some]
    exact run

theorem srandmt_held (seed : Word) (mt : Randmt) :
    ∃ after, srandmt c seed mt = some after ∧ after.curndx = c.nstate ∧ Held c after.state (p.seeded (narrow width seed)) := by
  have below := p.below
  have size := conforms.nstate
  have start : ∀ i, i < 1 → Function.update mt.state 0 (wide (narrow width seed)) i = wide (p.seeded (narrow width seed) i) := by
    intro i low
    obtain rfl : i = 0 := by omega
    simp [Params.seeded]
  obtain ⟨state, run, held⟩ := seedloop_held c p conforms (narrow width seed) (c.nstate - 1) 1 _ (Nat.le_refl 1) (by omega) start
  refine ⟨⟨state, c.nstate⟩, ?_, rfl, held⟩
  simp only [srandmt, masked c p conforms, store, show 0 < c.nstate by omega, if_true, Option.bind_eq_bind, Option.bind_some]
  rw [show p.seeded (narrow width seed) (1 - 1) = narrow width seed from rfl] at run
  rw [run]
  rfl

structure Tracks (c : Consts) (tab : Tab) (mixing : Mixing width) : Prop where
  state : Held c tab.state mixing.mt
  l : tab.l = mixing.i
  m : tab.m = mixing.j
  tmp : tab.tmp = wide (mixing.mt (mixing.i - 1))

theorem advance_tracks (state : Nat → Word) (mixing : Mixing width) (held : Held c state mixing.mt) (low : 1 ≤ mixing.i)
    (high : mixing.i < p.n) (m : Nat) (x : BitVec width) :
    ∃ tab, advance c state mixing.i m (wide x) = some tab ∧ Tracks c tab { p.put mixing x with j := m } := by
  have size := conforms.nstate
  obtain ⟨after, stored, kept⟩ := store_held c state mixing.mt held mixing.i (by omega) x
  unfold advance Params.put
  rw [stored]
  by_cases last : mixing.i + 1 ≥ p.n
  · have got := fetch_held c after _ kept (c.nstate - 1) (by omega)
    obtain ⟨final, set, whole⟩ := store_held c after _ kept 0 (by omega) (Function.update mixing.mt mixing.i x (c.nstate - 1))
    refine ⟨⟨final, 1, m, wide (Function.update mixing.mt mixing.i x (c.nstate - 1))⟩, ?_, ?_⟩
    · simp only [Option.bind_eq_bind, Option.bind_some, size, last, if_true]
      rw [← size, got, Option.bind_some, set, Option.bind_some]
    · rw [if_pos last, ← size]
      exact ⟨whole, rfl, rfl, by simp⟩
  · refine ⟨⟨after, mixing.i + 1, m, wide x⟩, ?_, ?_⟩
    · simp only [Option.bind_eq_bind, Option.bind_some, size, last, if_false]
    · rw [if_neg last]
      exact ⟨kept, rfl, rfl, by simp⟩

theorem keystep_tracks (key : List Word) (tab : Tab) (mixing : Mixing width) (tracks : Tracks c tab mixing)
    (inside : Inside p key.length mixing) :
    ∃ after, keystep c key tab = some after ∧ Tracks c after (p.mix (key.map (narrow width)) mixing) := by
  have size := conforms.nstate
  have got := fetch_held c tab.state mixing.mt tracks.state mixing.i (by rw [size]; exact inside.high)
  obtain ⟨word, found⟩ : ∃ word, key[mixing.j]? = some word := ⟨_, List.getElem?_eq_getElem inside.key⟩
  have other : (key.map (narrow width)).getD mixing.j 0 = narrow width word := by
    rw [List.getD_eq_getElem?_getD, List.getElem?_map, found]
    rfl
  have value : ((wide (mixing.mt mixing.i) ^^^ (c.mult2 * wide (p.blend (mixing.mt (mixing.i - 1))))) +
      (word + BitVec.ofNat 64 mixing.j)) &&& c.mask =
      wide ((mixing.mt mixing.i ^^^ (p.blend (mixing.mt (mixing.i - 1)) * p.mult2)) + (key.map (narrow width)).getD mixing.j 0 +
        BitVec.ofNat width mixing.j) := by
    rw [masked c p conforms, other]
    simp only [narrow_xor, narrow_add conforms.fits, narrow_mul conforms.fits, narrow_wide conforms.fits, narrow_ofNat conforms.fits,
      conforms.mult2]
    rw [BitVec.mul_comm, BitVec.add_assoc]
  obtain ⟨after, run, next⟩ := advance_tracks c p conforms tab.state mixing tracks.state inside.low inside.high
    (if mixing.j + 1 ≥ key.length then 0 else mixing.j + 1) _
  refine ⟨after, ?_, ?_⟩
  · rw [keystep, tracks.l, tracks.m, tracks.tmp, got, found]
    simp only [Option.bind_eq_bind, Option.bind_some]
    rw [blend_wide c p conforms, value]
    exact run
  · rw [Params.mix, List.length_map]
    exact next

theorem stirstep_tracks (tab : Tab) (mixing : Mixing width) (tracks : Tracks c tab mixing) (low : 1 ≤ mixing.i) (high : mixing.i < p.n) :
    ∃ after, stirstep c tab = some after ∧ Tracks c after (p.stir mixing) := by
  have size := conforms.nstate
  have got := fetch_held c tab.state mixing.mt tracks.state mixing.i (by omega)
  have value : ((wide (mixing.mt mixing.i) ^^^ (c.mult3 * wide (p.blend (mixing.mt (mixing.i - 1))))) - BitVec.ofNat 64 mixing.i) &&& c.mask =
      wide ((mixing.mt mixing.i ^^^ (p.blend (mixing.mt (mixing.i - 1)) * p.mult3)) - BitVec.ofNat width mixing.i) := by
    rw [masked c p conforms]
    simp only [narrow_xor, narrow_sub conforms.fits, narrow_mul conforms.fits, narrow_wide conforms.fits, narrow_ofNat conforms.fits,
      conforms.mult3]
    rw [BitVec.mul_comm]
  obtain ⟨after, run, next⟩ := advance_tracks c p conforms tab.state mixing tracks.state low high mixing.j _
  refine ⟨after, ?_, ?_⟩
  · rw [stirstep, tracks.l, tracks.m, tracks.tmp, got]
    simp only [Option.bind_eq_bind, Option.bind_some]
    rw [blend_wide c p conforms, value]
    exact run
  · rw [← put_j p mixing] at next
    exact next

omit conforms in
theorem times_tracks (step : Tab → Option Tab) (spec : Mixing width → Mixing width) (Fit : Mixing width → Prop)
    (kept : ∀ mixing, Fit mixing → Fit (spec mixing))
    (one : ∀ tab mixing, Tracks c tab mixing → Fit mixing → ∃ after, step tab = some after ∧ Tracks c after (spec mixing))
    (ndx : Nat) (tab : Tab) (mixing : Mixing width) (tracks : Tracks c tab mixing) (fit : Fit mixing) :
    ∃ after, times step ndx tab = some after ∧ Tracks c after (spec^[ndx] mixing) ∧ Fit (spec^[ndx] mixing) := by
  induction ndx generalizing tab mixing with
  | zero => exact ⟨tab, rfl, tracks, fit⟩
  | succ ndx ih =>
    obtain ⟨next, stepped, nextTracks⟩ := one tab mixing tracks fit
    obtain ⟨after, run, rest⟩ := ih next (spec mixing) nextTracks (kept mixing fit)
    refine ⟨after, ?_, rest⟩
    simp only [times, stepped, Option.bind_eq_bind, Option.bind_some]
    exact run

theorem srandmttab_held (key : List Word) (mt : Randmt) (some_key : key ≠ []) :
    ∃ after, srandmttab c key mt = some after ∧ after.curndx = c.nstate ∧ Held c after.state (p.keyed (key.map (narrow width))) := by
  have size := conforms.nstate
  have below := p.below
  have positive := p.positive
  have long : 0 < key.length := List.length_pos_iff.mpr some_key
  obtain ⟨seeded, start, ndx, held⟩ := srandmt_held c p conforms c.tabseed mt
  rw [conforms.tabseed] at held
  have begins : Tracks c ⟨seeded.state, 1, 0, wide (p.seeded p.tabseed 0)⟩ (⟨p.seeded p.tabseed, 1, 0⟩ : Mixing width) :=
    ⟨held, rfl, rfl, rfl⟩
  obtain ⟨mixed, mixing, mixedTracks, inside⟩ := times_tracks c (keystep c key) (p.mix (key.map (narrow width))) (Inside p key.length)
    (by
      have kept := mix_inside p (key.map (narrow width))
      rw [List.length_map] at kept
      exact kept)
    (fun tab mixing tracks inside => keystep_tracks c p conforms key tab mixing tracks inside) (max key.length c.nstate) _ _ begins
    ⟨Nat.le_refl 1, by simp only; omega, long⟩
  have again : fetch c mixed.state (mixed.l - 1) = some mixed.tmp := by
    have low := inside.low
    have high := inside.high
    rw [mixedTracks.tmp, mixedTracks.l]
    exact fetch_held c mixed.state _ mixedTracks.state _ (by omega)
  obtain ⟨stirred, stirring, stirredTracks, -⟩ := times_tracks c (stirstep c) p.stir (Inside p key.length)
    (fun mixing inside => stir_inside p key.length mixing inside)
    (fun tab mixing tracks inside => stirstep_tracks c p conforms tab mixing tracks inside.low inside.high) (c.nstate - 1) mixed _ mixedTracks
    inside
  obtain ⟨final, set, whole⟩ := store_held c stirred.state _ stirredTracks.state 0 (by omega) p.first
  refine ⟨{ seeded with state := final }, ?_, ndx, ?_⟩
  · have first := fetch_held c seeded.state _ held 0 (by omega)
    simp only [srandmttab, start, Option.bind_eq_bind, Option.bind_some, first, mixing, again, stirring, conforms.first, set]
  · rw [Params.keyed, List.length_map, ← size]
    exact whole

theorem regen_word (start : Nat → BitVec width) (base l : Nat) (state : Nat → Word) (next far : Nat) (low : l < c.nstate)
    (nextLow : next < c.nstate) (farLow : far < c.nstate) (cur : state l = wide (p.word start (base + l)))
    (after : state next = wide (p.word start (base + l + 1))) (fed : state far = wide (p.word start (base + l + p.m))) :
    regen c state l next far = some (Function.update state l (wide (p.word start (base + l + p.n)))) := by
  have bit : (wide (((p.word start (base + l)) &&& p.upper) ||| ((p.word start (base + l + 1)) &&& p.lower)) &&& 1 = 0) ↔ _ := wide_odd _
  simp only [regen, fetch, store, low, nextLow, farLow, if_true, Option.bind_eq_bind, Option.bind_some, cur, after, fed, conforms.himask,
    conforms.lomask, conforms.matrix, ← wide_and, ← wide_or, bit]
  rw [word_step, Params.twist]
  simp only [wide_xor, wide_shift conforms.fits]
  cases (((p.word start (base + l)) &&& p.upper) ||| ((p.word start (base + l + 1)) &&& p.lower)).getLsbD 0 with
  | false => simp [wide]
  | true => rfl

-- What is below l has been renewed, what is above it has not.
def Renewed (c : Consts) (p : Params width) (start : Nat → BitVec width) (base l : Nat) (state : Nat → Word) : Prop :=
  ∀ i, i < c.nstate → state i = wide (p.word start (if i < l then base + i + p.n else base + i))

theorem renewed_step (start : Nat → BitVec width) (base l : Nat) (state : Nat → Word) (next far : Nat) (low : l < c.nstate)
    (nextLow : next < c.nstate) (farLow : far < c.nstate) (renewed : Renewed c p start base l state)
    (after : (if next < l then base + next + p.n else base + next) = base + l + 1)
    (fed : (if far < l then base + far + p.n else base + far) = base + l + p.m) :
    ∃ state', regen c state l next far = some state' ∧ Renewed c p start base (l + 1) state' := by
  have cur := renewed l low
  have nextWord := renewed next nextLow
  have farWord := renewed far farLow
  rw [if_neg (Nat.lt_irrefl l)] at cur
  rw [after] at nextWord
  rw [fed] at farWord
  refine ⟨_, regen_word c p conforms start base l state next far low nextLow farLow cur nextWord farWord, ?_⟩
  intro i inside
  by_cases same : i = l
  · subst same
    simp
  · rw [Function.update_of_ne same, renewed i inside]
    have : (i < l + 1) ↔ (i < l) := by omega
    simp only [this]

omit conforms in
-- A loop that renews the words from first to last one after the other.
theorem loop_renewed (start : Nat → BitVec width) (base first last : Nat) (loop : Nat → Nat → (Nat → Word) → Option (Nat → Word))
    (ends : ∀ l state, loop 0 l state = some state)
    (turn : ∀ left l state, first ≤ l → l < last → Renewed c p start base l state →
      ∃ next, Renewed c p start base (l + 1) next ∧ loop (left + 1) l state = loop left (l + 1) next)
    (left l : Nat) (state : Nat → Word) (size : l + left = last) (past : first ≤ l) (renewed : Renewed c p start base l state) :
    ∃ after, loop left l state = some after ∧ Renewed c p start base last after := by
  induction left generalizing l state with
  | zero =>
    obtain rfl : l = last := by omega
    exact ⟨state, ends l state, renewed⟩
  | succ left ih =>
    obtain ⟨next, further, same⟩ := turn left l state past (by omega) renewed
    rw [same]
    exact ih (l + 1) next (by omega) (by omega) further

theorem lowloop_renewed (start : Nat → BitVec width) (base left l : Nat) (state : Nat → Word) (size : l + left = c.split)
    (renewed : Renewed c p start base l state) :
    ∃ after, lowloop c left l state = some after ∧ Renewed c p start base c.split after := by
  have nstate := conforms.nstate
  have split := conforms.split
  have magic := conforms.magic
  have below := p.below
  have positive := p.positive
  refine loop_renewed c p start base 0 c.split (lowloop c) (fun _ _ => rfl) ?_ left l state size (Nat.zero_le l) renewed
  intro left l state _ low renewed
  obtain ⟨next, stepped, further⟩ := renewed_step c p conforms start base l state (l + 1) (l + c.magic) (by omega) (by omega) (by omega) renewed
    (by split_ifs <;> omega) (by split_ifs <;> omega)
  exact ⟨next, further, by simp only [lowloop, stepped, Option.bind_eq_bind, Option.bind_some]⟩

theorem highloop_renewed (start : Nat → BitVec width) (base left l : Nat) (state : Nat → Word) (size : l + left = c.nstate - 1)
    (past : c.split ≤ l) (renewed : Renewed c p start base l state) :
    ∃ after, highloop c left l state = some after ∧ Renewed c p start base (c.nstate - 1) after := by
  have nstate := conforms.nstate
  have split := conforms.split
  have back := conforms.back
  have below := p.below
  have positive := p.positive
  refine loop_renewed c p start base c.split (c.nstate - 1) (highloop c) (fun _ _ => rfl) ?_ left l state size past renewed
  intro left l state past high renewed
  obtain ⟨next, stepped, further⟩ := renewed_step c p conforms start base l state (l + 1) (l - c.back) (by omega) (by omega) (by omega) renewed
    (by split_ifs <;> omega) (by split_ifs <;> omega)
  exact ⟨next, further, by simp only [highloop, stepped, Option.bind_eq_bind, Option.bind_some]⟩

-- The words of the block that starts at base.
def Block (c : Consts) (p : Params width) (start : Nat → BitVec width) (base : Nat) (state : Nat → Word) : Prop :=
  ∀ i, i < c.nstate → state i = wide (p.word start (base + i))

theorem randmtbuf_block (start : Nat → BitVec width) (base : Nat) (mt : Randmt) (block : Block c p start base mt.state) :
    ∃ after, randmtbuf c mt = some after ∧ after.curndx = 0 ∧ Block c p start (base + p.n) after.state := by
  have nstate := conforms.nstate
  have split := conforms.split
  have magic := conforms.magic
  have below := p.below
  have positive := p.positive
  have begins : Renewed c p start base 0 mt.state := by
    intro i inside
    rw [if_neg (by omega)]
    exact block i inside
  obtain ⟨low, lowRun, lowDone⟩ := lowloop_renewed c p conforms start base c.split 0 mt.state (by omega) begins
  obtain ⟨high, highRun, highDone⟩ := highloop_renewed c p conforms start base (c.nstate - 1 - c.split) c.split low (by omega) (Nat.le_refl _) lowDone
  obtain ⟨last, lastRun, lastDone⟩ := renewed_step c p conforms start base (c.nstate - 1) high 0 (c.magic - 1) (by omega) (by omega) (by omega)
    highDone (by split_ifs <;> omega) (by split_ifs <;> omega)
  refine ⟨⟨last, 0⟩, ?_, rfl, ?_⟩
  · simp only [randmtbuf, lowRun, highRun, lastRun, Option.bind_eq_bind, Option.bind_some]
  · intro i inside
    have word := lastDone i inside
    rw [if_pos (by omega)] at word
    rw [Nat.add_right_comm] at word
    exact word

-- done calls have been made since the seeding.
structure Running (c : Consts) (p : Params width) (start : Nat → BitVec width) (done : Nat) (mt : Randmt) : Prop where
  block : ∃ base, Block c p start base mt.state ∧ base + mt.curndx = p.n + done
  curndx : mt.curndx ≤ c.nstate

theorem randmt_running (start : Nat → BitVec width) (done : Nat) (mt : Randmt) (running : Running c p start done mt) :
    ∃ after, randmt c mt = some (after, c.temper (wide (p.word start (p.n + done)))) ∧ Running c p start (done + 1) after := by
  have nstate := conforms.nstate
  have below := p.below
  obtain ⟨base, block, count⟩ := running.block
  have bound := running.curndx
  have ready : ∃ filled, refill c mt = some filled ∧ filled.curndx < c.nstate ∧
      ∃ base, Block c p start base filled.state ∧ base + filled.curndx = p.n + done := by
    by_cases full : mt.curndx ≥ c.nstate
    · obtain ⟨after, run, ndx, next⟩ := randmtbuf_block c p conforms start base mt block
      refine ⟨after, ?_, by omega, base + p.n, next, by omega⟩
      rw [refill, if_pos full, if_neg (by omega), run]
    · exact ⟨mt, by rw [refill, if_neg full], by omega, base, block, count⟩
  obtain ⟨filled, fill, inside, place, words, sum⟩ := ready
  refine ⟨{ filled with curndx := filled.curndx + 1 }, ?_, ⟨place, words, by simp only; omega⟩, by simp only; omega⟩
  rw [randmt, fill]
  simp only [Option.bind_eq_bind, Option.bind_some, fetch, inside, if_true]
  rw [words _ inside, sum]

theorem nth_running (start : Nat → BitVec width) (n done : Nat) (mt : Randmt) (running : Running c p start done mt) :
    nth (randmt c) n mt = some (c.temper (wide (p.word start (p.n + (done + n))))) := by
  induction n generalizing done mt with
  | zero =>
    obtain ⟨after, run, -⟩ := randmt_running c p conforms start done mt running
    rw [nth, run]
    rfl
  | succ n ih =>
    obtain ⟨after, run, next⟩ := randmt_running c p conforms start done mt running
    rw [nth, run]
    simp only [Option.bind_eq_bind, Option.bind_some]
    rw [ih (done + 1) after next, Nat.add_right_comm done 1 n, Nat.add_assoc done n 1]

theorem held_running (start : Nat → BitVec width) (mt : Randmt) (held : Held c mt.state start) (ndx : mt.curndx = c.nstate) :
    Running c p start 0 mt := by
  have nstate := conforms.nstate
  refine ⟨⟨0, ?_, by omega⟩, by omega⟩
  intro i inside
  rw [held i inside, word_start p start _ (by omega), Nat.zero_add]

theorem nth_seeded (seed : Word) (mt : Randmt) (n : Nat) :
    (srandmt c seed mt).bind (nth (randmt c) n) = some (c.temper (wide (p.word (p.seeded (narrow width seed)) (p.n + n)))) := by
  obtain ⟨after, run, ndx, held⟩ := srandmt_held c p conforms seed mt
  rw [run, Option.bind_some, nth_running c p conforms _ n 0 after (held_running c p conforms _ after held ndx), Nat.zero_add]

theorem nth_keyed (key : List Word) (some_key : key ≠ []) (mt : Randmt) (n : Nat) :
    (srandmttab c key mt).bind (nth (randmt c) n) =
      some (c.temper (wide (p.word (p.keyed (key.map (narrow width))) (p.n + n)))) := by
  obtain ⟨after, run, ndx, held⟩ := srandmttab_held c p conforms key mt some_key
  rw [run, Option.bind_some, nth_running c p conforms _ n 0 after (held_running c p conforms _ after held ndx), Nat.zero_add]

end

-- MT19937 and MT19937-64.
def mt19937 : Params 32 where
  n := 624
  m := 397
  upper := 0x80000000
  lower := 0x7fffffff
  matrix := 0x9908b0df
  shift := 30
  mult1 := 1812433253
  mult2 := 1664525
  mult3 := 1566083941
  tabseed := 19650218
  first := 0x80000000
  positive := by decide
  below := by decide

def tempered32 (y : BitVec 32) : BitVec 32 :=
  let y := y ^^^ (y >>> 11)
  let y := y ^^^ ((y <<< 7) &&& 0x9d2c5680)
  let y := y ^^^ ((y <<< 15) &&& 0xefc60000)
  y ^^^ (y >>> 18)

def mt19937_64 : Params 64 where
  n := 312
  m := 156
  upper := 0xFFFFFFFF80000000
  lower := 0x7FFFFFFF
  matrix := 0xB5026F5AA96619E9
  shift := 62
  mult1 := 6364136223846793005
  mult2 := 3935559000370003845
  mult3 := 2862933555777941757
  tabseed := 19650218
  first := 0x8000000000000000
  positive := by decide
  below := by decide

def tempered64 (y : BitVec 64) : BitVec 64 :=
  let y := y ^^^ ((y >>> 29) &&& 0x5555555555555555)
  let y := y ^^^ ((y <<< 17) &&& 0x71D67FFFEDA60000)
  let y := y ^^^ ((y <<< 37) &&& 0xFFF7EEE000000000)
  y ^^^ (y >>> 43)

theorem conforms32 : Conforms consts32 mt19937 := by
  constructor <;> decide

theorem conforms64 : Conforms consts64 mt19937_64 := by
  constructor <;> decide

theorem narrow_left (fits : width ≤ 64) (x : BitVec width) (n : Nat) : narrow width (wide x <<< n) = x <<< n := by
  unfold narrow
  rw [BitVec.setWidth_shiftLeft_of_le fits, show (wide x).setWidth width = x from narrow_wide fits x]

theorem temper32_wide (y : BitVec 32) : temper32 (wide y) = wide (tempered32 y) := by
  have left : ∀ (x m : BitVec 32) (n : Nat), (wide x <<< n) &&& wide m = wide ((x <<< n) &&& m) := by
    intro x m n
    rw [and_wide, narrow_left (by decide)]
  have right : ∀ (x : BitVec 32) (n : Nat), wide x >>> n = wide (x >>> n) := fun x n => (wide_shift (by decide) x n).symm
  have mask1 : (0x9d2c5680 : Word) = wide (0x9d2c5680 : BitVec 32) := rfl
  have mask2 : (0xefc60000 : Word) = wide (0xefc60000 : BitVec 32) := rfl
  simp only [temper32, tempered32, mask1, mask2, left, right, ← wide_xor]

theorem wide_same (x : BitVec 64) : wide x = x := BitVec.setWidth_eq x

-- After either seeding, the call after n others returns the tempered word n + N.
theorem randmt_conforms :
    (∀ (seed : Word) (mt : Randmt) (n : Nat), (srandmt32 seed mt).bind (nth randmt32 n) =
      some (wide (tempered32 (mt19937.word (mt19937.seeded (narrow 32 seed)) (624 + n))))) ∧
    (∀ (key : List Word) (mt : Randmt) (n : Nat), 1 ≤ key.length → (srandmt32tab key mt).bind (nth randmt32 n) =
      some (wide (tempered32 (mt19937.word (mt19937.keyed (key.map (narrow 32))) (624 + n))))) ∧
    (∀ (seed : Word) (mt : Randmt) (n : Nat), (srandmt64 seed mt).bind (nth randmt64 n) =
      some (tempered64 (mt19937_64.word (mt19937_64.seeded seed) (312 + n)))) ∧
    ∀ (key : List Word) (mt : Randmt) (n : Nat), 1 ≤ key.length → (srandmt64tab key mt).bind (nth randmt64 n) =
      some (tempered64 (mt19937_64.word (mt19937_64.keyed key) (312 + n))) := by
  refine ⟨?_, ?_, ?_, ?_⟩
  · intro seed mt n
    have value := nth_seeded consts32 mt19937 conforms32 seed mt n
    rw [show consts32.temper = temper32 from rfl, temper32_wide] at value
    exact value
  · intro key mt n long
    have value := nth_keyed consts32 mt19937 conforms32 key (List.length_pos_iff.mp long) mt n
    rw [show consts32.temper = temper32 from rfl, temper32_wide] at value
    exact value
  · intro seed mt n
    have value := nth_seeded consts64 mt19937_64 conforms64 seed mt n
    rw [wide_same, show narrow 64 seed = seed from BitVec.setWidth_eq seed] at value
    exact value
  · intro key mt n long
    have value := nth_keyed consts64 mt19937_64 conforms64 key (List.length_pos_iff.mp long) mt n
    have same : key.map (narrow 64) = key := by
      rw [show narrow 64 = id from funext fun v => BitVec.setWidth_eq v, List.map_id]
    rw [wide_same, same] at value
    exact value

theorem randmt_conforms_key : (srandmt32tab [0x123, 0x234, 0x345, 0x456] ⟨fun _ => 0, 625⟩).bind (nth randmt32 0) =
      some (wide (tempered32 (mt19937.word (mt19937.keyed [0x123, 0x234, 0x345, 0x456]) 624))) ∧
    (srandmt64tab [0x12345] ⟨fun _ => 0, 313⟩).bind (nth randmt64 1000) =
      some (tempered64 (mt19937_64.word (mt19937_64.keyed [0x12345]) 1312)) :=
  ⟨randmt_conforms.2.1 [0x123, 0x234, 0x345, 0x456] _ 0 (by decide), randmt_conforms.2.2.2 [0x12345] _ 1000 (by decide)⟩

end OsZero.Rand

import OsZero.Term.Escape

set_option autoImplicit false

namespace OsZero.Term

open Runs

structure Vt where
  row : Int
  col : Int
  nrow : Int
  ncol : Int
  fgcolor : BitVec 32
  bgcolor : BitVec 32
  textatr : BitVec 32
  deftab : Nat → BitVec 32
  saverow : Int
  savecol : Int
  scrolltop : Int
  scrollbottom : Int
  tabmap : Int → Bool
  -- the bits of tabmap that have been accessed
  touched : List Int

def Vt.setbits (vt : Vt) (bits : List Int) (value : Bool) : Vt :=
  { vt with tabmap := fun bit => if bit ∈ bits then value else vt.tabmap bit, touched := vt.touched ++ bits }

-- argtab[ndx]
def arg (argtab : Option (Nat → Int)) (ndx : Nat) : Option Int := argtab.map fun tab => tab ndx

def vtgoto : Handler Vt := fun vt narg argtab =>
  if narg = 0 then some { vt with row := 0, col := 0 }
  else if narg = 2 then
    do
      let row ← arg argtab 0
      let col ← arg argtab 1
      some (if 0 ≤ row ∧ row < vt.nrow ∧ 0 ≤ col ∧ col < vt.ncol then { vt with row := row, col := col } else vt)
  else some vt

def count (narg : Nat) (argtab : Option (Nat → Int)) : Option Int := if narg = 1 then arg argtab 0 else some 1

def vtgoup : Handler Vt := fun vt narg argtab => do
  let arg ← count narg argtab
  some { vt with row := vt.row - min arg vt.row }

def vtgodown : Handler Vt := fun vt narg argtab => do
  let arg ← count narg argtab
  some { vt with row := vt.row + min arg (vt.nrow - vt.row - 1) }

def vtgoforward : Handler Vt := fun vt narg argtab => do
  let arg ← count narg argtab
  some { vt with col := vt.col + min arg (vt.ncol - vt.col - 1) }

def vtgobackward : Handler Vt := fun vt narg argtab => do
  let arg ← count narg argtab
  some { vt with col := vt.col - min arg vt.col }

def vtsavecurs : Handler Vt := fun vt narg _ =>
  some (if narg = 0 then { vt with saverow := vt.row, savecol := vt.col } else vt)

def vtunsavecurs : Handler Vt := fun vt narg _ =>
  some (if narg = 0 then { vt with row := vt.saverow, col := vt.savecol } else vt)

def vtsavecursatr : Handler Vt := vtsavecurs

def vtrestorcursatr : Handler Vt := vtunsavecurs

def vtsetscroll : Handler Vt := fun vt narg argtab =>
  let vt := if narg = 0 then { vt with scrolltop := 0, scrollbottom := vt.nrow - 1 } else vt
  if narg = 2 then
    do
      let top ← arg argtab 0
      let bottom ← arg argtab 1
      some { vt with scrolltop := top, scrollbottom := bottom }
  else some vt

-- vtscroll does nothing yet.
def vtscrolldown : Handler Vt := fun vt _ _ => some vt

def vtscrollup : Handler Vt := fun vt _ _ => some vt

def vtsettab : Handler Vt := fun vt _ _ => some (vt.setbits [vt.col] true)

-- The words that hold ncol bits.
def tabwords (ncol : Int) : List Int := (List.range ((ncol + 31) / 32 * 32).toNat).map Int.ofNat

def vtclrtab : Handler Vt := fun vt narg argtab =>
  if narg = 1 then
    do
      let arg ← arg argtab 0
      some (if arg = 3 then vt.setbits (tabwords vt.ncol) false else vt)
  else if narg = 0 then some (vt.setbits [vt.col] false)
  else some vt

-- Nothing is erased yet, but argtab[0] is read.
def vteraseline : Handler Vt := fun vt narg argtab => if narg = 0 then some vt else (arg argtab 0).map fun _ => vt

def vterasedir : Handler Vt := fun vt narg argtab => if narg = 0 then some vt else (arg argtab 0).map fun _ => vt

def vtresetatr (vt : Vt) : Vt := { vt with fgcolor := 0xffffffff, bgcolor := 0xff000000, textatr := 0 }

def vtatrbittab (cmd : Int) : BitVec 32 :=
  if cmd = 1 then 0x80000000 else if cmd = 2 then 0x40000000 else if cmd = 4 then 0x20000000 else if cmd = 5 then 0x10000000
  else if cmd = 7 then 0x08000000 else if cmd = 8 then 0x04000000 else 0

def setatr (vt : Vt) (cmd : Int) : Vt :=
  if 0 ≤ cmd ∧ cmd ≤ 8 then
    if cmd = 0 then vtresetatr vt else { vt with textatr := vt.textatr ||| vtatrbittab cmd }
  else if 30 ≤ cmd ∧ cmd ≤ 37 then { vt with fgcolor := vt.deftab (cmd - 30).toNat }
  else if 40 ≤ cmd ∧ cmd ≤ 47 then { vt with bgcolor := vt.deftab (cmd - 40).toNat }
  else vt

def vtsetatr : Handler Vt := fun vt narg argtab =>
  (List.range narg).foldlM (fun vt ndx => (arg argtab ndx).map (setatr vt)) vt

def csitab : List (UInt8 × Handler Vt) :=
  [(code 'H', vtgoto), (code 'A', vtgoup), (code 'B', vtgodown), (code 'C', vtgoforward), (code 'D', vtgobackward),
    (code 'f', vtgoto), (code 's', vtsavecurs), (code 'u', vtunsavecurs), (code 'r', vtsetscroll), (code 'M', vtscrollup),
    (code 'g', vtclrtab), (code 'J', vterasedir), (code 'K', vteraseline), (code 'm', vtsetatr)]

def esctab : List (UInt8 × Handler Vt) :=
  [(code '7', vtsavecursatr), (code '8', vtrestorcursatr), (code 'D', vtscrolldown), (code 'H', vtsettab)]

def vtinitesc : Tabs Vt := ⟨fun c => List.lookup c csitab, fun c => List.lookup c esctab⟩

structure Bounded (vt : Vt) : Prop where
  nrow : 1 ≤ vt.nrow
  ncol : 1 ≤ vt.ncol
  row : 0 ≤ vt.row ∧ vt.row < vt.nrow
  col : 0 ≤ vt.col ∧ vt.col < vt.ncol
  saverow : 0 ≤ vt.saverow ∧ vt.saverow < vt.nrow
  savecol : 0 ≤ vt.savecol ∧ vt.savecol < vt.ncol
  scroll : 0 ≤ vt.scrolltop ∧ vt.scrolltop ≤ vt.scrollbottom ∧ vt.scrollbottom < vt.nrow
  touched : ∀ bit ∈ vt.touched, 0 ≤ bit ∧ bit < vt.ncol

-- What a call may meet with in argtab, where nothing has been stored in
-- argtab[0] and nothing but the sign can be wrong with the rest.
structure Allowed (vt : Vt) (cmd : UInt8) (narg : Nat) (argtab : Nat → Int) : Prop where
  up : cmd = code 'A' → narg = 1 → vt.row - vt.nrow < argtab 0
  down : cmd = code 'B' → narg = 1 → -vt.row ≤ argtab 0
  forward : cmd = code 'C' → narg = 1 → -vt.col ≤ argtab 0
  backward : cmd = code 'D' → narg = 1 → vt.col - vt.ncol < argtab 0
  scroll : cmd = code 'r' → narg = 2 → 0 ≤ argtab 0 ∧ argtab 0 ≤ argtab 1 ∧ argtab 1 < vt.nrow
  tabs : cmd = code 'g' → narg = 1 → argtab 0 = 3 → vt.ncol % 32 = 0

def BoundedAfter (result : Option Vt) : Prop := ∃ next, result = some next ∧ Bounded next

theorem bounded_after_some (vt : Vt) : BoundedAfter (some vt) ↔ Bounded vt := by
  constructor
  · rintro ⟨next, same, bounded⟩
    cases same
    exact bounded
  · intro bounded
    exact ⟨vt, rfl, bounded⟩

section

variable (vt : Vt) (bounded : Bounded vt) (narg : Nat)

include bounded

theorem goto_bounded (argtab : Nat → Int) : BoundedAfter (vtgoto vt narg (some argtab)) := by
  have nrow := bounded.nrow
  have ncol := bounded.ncol
  unfold vtgoto
  split
  · rw [bounded_after_some]
    exact { bounded with row := ⟨Int.le_refl 0, by simp only; omega⟩, col := ⟨Int.le_refl 0, by simp only; omega⟩ }
  · split
    · simp only [arg, Option.map_some, Option.bind_eq_bind, Option.bind_some, bounded_after_some]
      split
      · rename_i inside
        exact { bounded with row := ⟨inside.1, inside.2.1⟩, col := inside.2.2 }
      · exact bounded
    · rw [bounded_after_some]
      exact bounded

theorem savecurs_bounded (argtab : Option (Nat → Int)) : BoundedAfter (vtsavecurs vt narg argtab) := by
  rw [vtsavecurs, bounded_after_some]
  split
  · exact { bounded with saverow := bounded.row, savecol := bounded.col }
  · exact bounded

theorem unsavecurs_bounded (argtab : Option (Nat → Int)) : BoundedAfter (vtunsavecurs vt narg argtab) := by
  rw [vtunsavecurs, bounded_after_some]
  split
  · exact { bounded with row := bounded.saverow, col := bounded.savecol }
  · exact bounded

theorem erase_bounded (argtab : Nat → Int) : BoundedAfter (vteraseline vt narg (some argtab)) := by
  unfold vteraseline
  split <;> exact ⟨vt, rfl, bounded⟩

theorem setatr_bounded (cmd : Int) : Bounded (setatr vt cmd) := by
  unfold setatr vtresetatr
  split_ifs <;> exact { bounded with }

theorem vtsetatr_bounded (argtab : Nat → Int) : BoundedAfter (vtsetatr vt narg (some argtab)) := by
  unfold vtsetatr
  generalize List.range narg = ndxs
  induction ndxs generalizing vt with
  | nil => exact ⟨vt, rfl, bounded⟩
  | cons ndx ndxs ih => exact ih (setatr vt (argtab ndx)) (setatr_bounded vt bounded (argtab ndx))

theorem setbits_bounded (bits : List Int) (value : Bool) :
    Bounded (vt.setbits bits value) ↔ ∀ bit ∈ bits, 0 ≤ bit ∧ bit < vt.ncol := by
  constructor
  · intro after bit accessed
    exact after.touched bit (List.mem_append_right vt.touched accessed)
  · intro inside
    refine { bounded with touched := ?_ }
    intro bit accessed
    rcases List.mem_append.mp accessed with old | new
    · exact bounded.touched bit old
    · exact inside bit new

theorem settab_bounded (argtab : Option (Nat → Int)) : BoundedAfter (vtsettab vt narg argtab) := by
  rw [vtsettab, bounded_after_some, setbits_bounded vt bounded]
  intro bit here
  rw [List.mem_singleton.mp here]
  exact bounded.col

theorem row_bounded (row : Int) : Bounded { vt with row := row } ↔ 0 ≤ row ∧ row < vt.nrow :=
  ⟨fun after => after.row, fun inside => { bounded with row := inside }⟩

theorem col_bounded (col : Int) : Bounded { vt with col := col } ↔ 0 ≤ col ∧ col < vt.ncol :=
  ⟨fun after => after.col, fun inside => { bounded with col := inside }⟩

omit bounded in
-- A move goes as far as argtab[0] says, or by one where narg is not one.
theorem count_bounded (argtab : Nat → Int) (move : Int → Vt) (near : Int → Prop) (moved : ∀ n, Bounded (move n) ↔ near n) (once : near 1) :
    BoundedAfter ((count narg (some argtab)).bind fun arg => some (move arg)) ↔ (narg = 1 → near (argtab 0)) := by
  by_cases one : narg = 1
  · rw [count, if_pos one, arg, Option.map_some, Option.bind_some, bounded_after_some, moved]
    exact ⟨fun after _ => after, fun after => after one⟩
  · rw [count, if_neg one, Option.bind_some, bounded_after_some, moved]
    exact ⟨fun _ other => absurd other one, fun _ => once⟩

theorem goup_bounded (argtab : Nat → Int) :
    BoundedAfter (vtgoup vt narg (some argtab)) ↔ (narg = 1 → vt.row - vt.nrow < argtab 0) := by
  have row := bounded.row
  have moved : ∀ n, Bounded { vt with row := vt.row - min n vt.row } ↔ vt.row - vt.nrow < n := by
    intro n
    rw [row_bounded vt bounded]
    omega
  have once : vt.row - vt.nrow < 1 := by omega
  exact count_bounded narg argtab _ _ moved once

theorem godown_bounded (argtab : Nat → Int) :
    BoundedAfter (vtgodown vt narg (some argtab)) ↔ (narg = 1 → -vt.row ≤ argtab 0) := by
  have row := bounded.row
  have moved : ∀ n, Bounded { vt with row := vt.row + min n (vt.nrow - vt.row - 1) } ↔ -vt.row ≤ n := by
    intro n
    rw [row_bounded vt bounded]
    omega
  have once : -vt.row ≤ 1 := by omega
  exact count_bounded narg argtab _ _ moved once

theorem goforward_bounded (argtab : Nat → Int) :
    BoundedAfter (vtgoforward vt narg (some argtab)) ↔ (narg = 1 → -vt.col ≤ argtab 0) := by
  have col := bounded.col
  have moved : ∀ n, Bounded { vt with col := vt.col + min n (vt.ncol - vt.col - 1) } ↔ -vt.col ≤ n := by
    intro n
    rw [col_bounded vt bounded]
    omega
  have once : -vt.col ≤ 1 := by omega
  exact count_bounded narg argtab _ _ moved once

theorem gobackward_bounded (argtab : Nat → Int) :
    BoundedAfter (vtgobackward vt narg (some argtab)) ↔ (narg = 1 → vt.col - vt.ncol < argtab 0) := by
  have col := bounded.col
  have moved : ∀ n, Bounded { vt with col := vt.col - min n vt.col } ↔ vt.col - vt.ncol < n := by
    intro n
    rw [col_bounded vt bounded]
    omega
  have once : vt.col - vt.ncol < 1 := by omega
  exact count_bounded narg argtab _ _ moved once

theorem setscroll_bounded (argtab : Nat → Int) :
    BoundedAfter (vtsetscroll vt narg (some argtab)) ↔ (narg = 2 → 0 ≤ argtab 0 ∧ argtab 0 ≤ argtab 1 ∧ argtab 1 < vt.nrow) := by
  have nrow := bounded.nrow
  by_cases two : narg = 2
  · simp only [vtsetscroll, arg, two, if_true, if_false, show ¬(2 = 0) by decide, Option.map_some, Option.bind_eq_bind, Option.bind_some,
      bounded_after_some, true_imp_iff]
    constructor
    · intro after
      exact after.scroll
    · intro inside
      exact { bounded with scroll := inside }
  · simp only [vtsetscroll, two, if_false, bounded_after_some, false_imp_iff, iff_true]
    split
    · exact { bounded with scroll := ⟨Int.le_refl 0, by simp only; omega, by simp only; omega⟩ }
    · exact bounded

theorem clrtab_bounded (argtab : Nat → Int) :
    BoundedAfter (vtclrtab vt narg (some argtab)) ↔ (narg = 1 → argtab 0 = 3 → vt.ncol % 32 = 0) := by
  have ncol := bounded.ncol
  have words : (∀ bit ∈ tabwords vt.ncol, 0 ≤ bit ∧ bit < vt.ncol) ↔ vt.ncol % 32 = 0 := by
    unfold tabwords
    simp only [List.mem_map, List.mem_range]
    constructor
    · intro inside
      have last := inside ((vt.ncol + 31) / 32 * 32 - 1) ⟨((vt.ncol + 31) / 32 * 32 - 1).toNat, by omega, by simp only [Int.ofNat_eq_natCast]; omega⟩
      omega
    · rintro whole bit ⟨place, low, rfl⟩
      simp only [Int.ofNat_eq_natCast]
      omega
  unfold vtclrtab
  by_cases one : narg = 1
  · simp only [arg, one, if_true, Option.map_some, Option.bind_eq_bind, Option.bind_some, bounded_after_some, true_imp_iff]
    split_ifs with three
    · simp only [three, true_imp_iff]
      rw [← words, setbits_bounded vt bounded]
    · simp only [three, false_imp_iff, iff_true]
      exact bounded
  · simp only [one, if_false, false_imp_iff, iff_true]
    split
    · rw [bounded_after_some, setbits_bounded vt bounded]
      intro bit here
      rw [List.mem_singleton.mp here]
      exact bounded.col
    · rw [bounded_after_some]
      exact bounded

theorem esc_bounded (cmd : UInt8) (func : Handler Vt) (registered : (cmd, func) ∈ esctab) : BoundedAfter (func vt 0 none) := by
  simp only [esctab, List.mem_cons, Prod.mk.injEq, List.not_mem_nil, or_false] at registered
  rcases registered with ⟨-, rfl⟩ | ⟨-, rfl⟩ | ⟨-, rfl⟩ | ⟨-, rfl⟩
  · exact savecurs_bounded vt bounded 0 none
  · exact unsavecurs_bounded vt bounded 0 none
  · exact ⟨vt, rfl, bounded⟩
  · exact settab_bounded vt bounded 0 none

end

theorem allowed_harmless (vt : Vt) (cmd : UInt8) (narg : Nat) (argtab : Nat → Int)
    (other : cmd ∉ [code 'A', code 'B', code 'C', code 'D', code 'r', code 'g']) : Allowed vt cmd narg argtab := by
  simp only [List.mem_cons, List.not_mem_nil, or_false, not_or] at other
  obtain ⟨notA, notB, notC, notD, notR, notG⟩ := other
  constructor
  · exact fun same => absurd same notA
  · exact fun same => absurd same notB
  · exact fun same => absurd same notC
  · exact fun same => absurd same notD
  · exact fun same => absurd same notR
  · exact fun same => absurd same notG

-- The bounds survive a call exactly when it is allowed.
theorem csi_bounded (vt : Vt) (bounded : Bounded vt) (narg : Nat) (argtab : Nat → Int) (cmd : UInt8) (func : Handler Vt)
    (registered : (cmd, func) ∈ csitab) : BoundedAfter (func vt narg (some argtab)) ↔ Allowed vt cmd narg argtab := by
  simp only [csitab, List.mem_cons, Prod.mk.injEq, List.not_mem_nil, or_false] at registered
  rcases registered with ⟨rfl, rfl⟩ | ⟨rfl, rfl⟩ | ⟨rfl, rfl⟩ | ⟨rfl, rfl⟩ | ⟨rfl, rfl⟩ | ⟨rfl, rfl⟩ | ⟨rfl, rfl⟩ | ⟨rfl, rfl⟩ | ⟨rfl, rfl⟩ |
    ⟨rfl, rfl⟩ | ⟨rfl, rfl⟩ | ⟨rfl, rfl⟩ | ⟨rfl, rfl⟩ | ⟨rfl, rfl⟩
  · exact iff_of_true (goto_bounded vt bounded narg argtab) (allowed_harmless vt _ narg argtab (by decide))
  · rw [goup_bounded vt bounded]
    refine ⟨fun up => ⟨fun _ => up, ?_, ?_, ?_, ?_, ?_⟩, fun allowed => allowed.up rfl⟩ <;> exact fun same => absurd same (by decide)
  · rw [godown_bounded vt bounded]
    refine ⟨fun down => ⟨?_, fun _ => down, ?_, ?_, ?_, ?_⟩, fun allowed => allowed.down rfl⟩ <;> exact fun same => absurd same (by decide)
  · rw [goforward_bounded vt bounded]
    refine ⟨fun forward => ⟨?_, ?_, fun _ => forward, ?_, ?_, ?_⟩, fun allowed => allowed.forward rfl⟩ <;>
      exact fun same => absurd same (by decide)
  · rw [gobackward_bounded vt bounded]
    refine ⟨fun backward => ⟨?_, ?_, ?_, fun _ => backward, ?_, ?_⟩, fun allowed => allowed.backward rfl⟩ <;>
      exact fun same => absurd same (by decide)
  · exact iff_of_true (goto_bounded vt bounded narg argtab) (allowed_harmless vt _ narg argtab (by decide))
  · exact iff_of_true (savecurs_bounded vt bounded narg _) (allowed_harmless vt _ narg argtab (by decide))
  · exact iff_of_true (unsavecurs_bounded vt bounded narg _) (allowed_harmless vt _ narg argtab (by decide))
  · rw [setscroll_bounded vt bounded]
    refine ⟨fun scroll => ⟨?_, ?_, ?_, ?_, fun _ => scroll, ?_⟩, fun allowed => allowed.scroll rfl⟩ <;>
      exact fun same => absurd same (by decide)
  · exact iff_of_true ⟨vt, rfl, bounded⟩ (allowed_harmless vt _ narg argtab (by decide))
  · rw [clrtab_bounded vt bounded]
    refine ⟨fun tabs => ⟨?_, ?_, ?_, ?_, ?_, fun _ => tabs⟩, fun allowed => allowed.tabs rfl⟩ <;> exact fun same => absurd same (by decide)
  · exact iff_of_true (erase_bounded vt bounded narg argtab) (allowed_harmless vt _ narg argtab (by decide))
  · exact iff_of_true (erase_bounded vt bounded narg argtab) (allowed_harmless vt _ narg argtab (by decide))
  · exact iff_of_true (vtsetatr_bounded vt bounded narg argtab) (allowed_harmless vt _ narg argtab (by decide))

def callStep (vt : Vt) (call : Call Vt) : Option Vt := call.run vt

def CallAllowed (vt : Vt) (call : Call Vt) : Prop := ∀ argtab, call.argtab = some argtab → Allowed vt call.cmd call.narg argtab

theorem lookup_mem (tab : List (UInt8 × Handler Vt)) (cmd : UInt8) (func : Handler Vt) (found : tab.lookup cmd = some func) :
    (cmd, func) ∈ tab := by
  induction tab with
  | nil => cases found
  | cons entry tab ih =>
    rw [List.lookup_cons] at found
    split at found
    · rename_i same
      have key : cmd = entry.1 := by simpa using same
      cases found
      rw [key]
      exact List.mem_cons_self
    · exact List.mem_cons_of_mem entry (ih found)

theorem esctab_low (cmd : UInt8) (func : Handler Vt) (registered : (cmd, func) ∈ esctab) : cmd.toNat < 128 := by
  simp only [esctab, List.mem_cons, Prod.mk.injEq, List.not_mem_nil, or_false] at registered
  rcases registered with ⟨rfl, -⟩ | ⟨rfl, -⟩ | ⟨rfl, -⟩ | ⟨rfl, -⟩ <;> decide

theorem csicmd_mem (cmd : UInt8) (func : Handler Vt) (found : csicmd vtinitesc cmd = some func) : (cmd, func) ∈ csitab := by
  unfold csicmd at found
  split at found
  · exact lookup_mem csitab cmd func found
  · rename_i high
    exact absurd (esctab_low cmd func (lookup_mem esctab cmd func found)) high

theorem call_bounded (vt : Vt) (call : Call Vt) (bounded : Bounded vt) (registered : call.From vtinitesc) :
    BoundedAfter (callStep vt call) ↔ CallAllowed vt call := by
  unfold callStep Call.run CallAllowed
  rcases registered with ⟨given, found⟩ | ⟨absent, zero, found⟩
  · obtain ⟨argtab, given⟩ := Option.isSome_iff_exists.mp given
    rw [given, csi_bounded vt bounded call.narg argtab call.cmd call.func (csicmd_mem call.cmd call.func found)]
    constructor
    · rintro allowed other ⟨⟩
      exact allowed
    · intro allowed
      exact allowed argtab rfl
  · rw [absent, zero]
    refine iff_of_true (esc_bounded vt bounded call.cmd call.func (lookup_mem esctab call.cmd call.func found)) ?_
    intro argtab given
    cases given

-- A string, and what the uninitialised argtab holds when it is parsed.
structure Input where
  argtab : Nat → Int
  str : List UInt8

def vtStep (vt : Vt) (input : Input) : Option Vt := (vtparseesc vtinitesc vt input.argtab input.str).map Prod.fst

-- The string is parsed to its end, with the bounds kept between its commands.
def BoundedThrough (vt : Vt) (input : Input) : Prop :=
  ∃ calls, vtcalls vtinitesc input.argtab input.str = some calls ∧ Holds callStep Bounded (fun _ _ => True) vt calls.1

def InputAllowed (vt : Vt) (input : Input) : Prop :=
  ∃ calls, vtcalls vtinitesc input.argtab input.str = some calls ∧ Meets callStep CallAllowed vt calls.1

theorem calls_bounded_iff (vt : Vt) (calls : List (Call Vt)) (bounded : Bounded vt) (registered : ∀ call ∈ calls, call.From vtinitesc) :
    Holds callStep Bounded (fun _ _ => True) vt calls ↔ Meets callStep CallAllowed vt calls := by
  apply holds_iff_meets_kept callStep Bounded (fun _ _ => True) CallAllowed (fun call => call.From vtinitesc) _ vt calls bounded registered
  intro vt call bounded legal
  rw [true_and]
  exact call_bounded vt call bounded legal

theorem runcalls_bounded (vt : Vt) (calls : List (Call Vt)) (holds : Holds callStep Bounded (fun _ _ => True) vt calls) :
    BoundedAfter (runcalls vt calls) := by
  induction calls generalizing vt with
  | nil => exact ⟨vt, rfl, holds⟩
  | cons call calls ih =>
    obtain ⟨-, -, next, taken, rest⟩ := holds
    obtain ⟨last, run, bounded⟩ := ih next rest
    refine ⟨last, ?_, bounded⟩
    have step : call.run vt = some next := taken
    rw [runcalls, List.foldlM_cons, step]
    exact run

theorem input_bounded (vt : Vt) (input : Input) (bounded : Bounded vt) :
    (BoundedThrough vt input ∧ BoundedAfter (vtStep vt input)) ↔ InputAllowed vt input := by
  constructor
  · rintro ⟨⟨calls, parsed, holds⟩, -⟩
    exact ⟨calls, parsed, (calls_bounded_iff vt calls.1 bounded (callloop_from _ _ _ _ calls parsed)).mp holds⟩
  · rintro ⟨calls, parsed, meets⟩
    have holds := (calls_bounded_iff vt calls.1 bounded (callloop_from _ _ _ _ calls parsed)).mpr meets
    obtain ⟨last, run, after⟩ := runcalls_bounded vt calls.1 holds
    refine ⟨⟨calls, parsed, holds⟩, last, ?_, after⟩
    rw [vtStep, vtparseesc_calls, parsed, Option.bind_some, run]
    rfl

-- Short of a number that does not fit and of an ESC before a byte with its top
-- bit set, every string is parsed to its end.
theorem vtinitesc_defined (input : Input) (readable : Readable input.str) :
    ∃ calls, vtcalls vtinitesc input.argtab input.str = some calls :=
  vtcalls_defined vtinitesc ⟨rfl, rfl⟩ input.argtab input.str readable

theorem vt_bounded (vt : Vt) (inputs : List Input) (bounded : Bounded vt) :
    Holds vtStep Bounded BoundedThrough vt inputs ↔ Meets vtStep InputAllowed vt inputs := by
  apply holds_iff_meets_kept vtStep Bounded BoundedThrough InputAllowed (fun _ => True) _ vt inputs bounded (fun _ _ => trivial)
  intro vt input bounded _
  exact input_bounded vt input bounded

def home : Vt := ⟨0, 0, 24, 80, 0, 0, 0, fun _ => 0, 0, 0, 0, 23, fun _ => false, []⟩

theorem home_bounded : Bounded home := by
  constructor <;> decide

theorem vt_bounded_up : Holds vtStep Bounded BoundedThrough home [⟨fun _ => 0, [vtesc, code '[', code '3', code 'A']⟩] := by
  refine (vt_bounded home [⟨fun _ => 0, [vtesc, code '[', code '3', code 'A']⟩] home_bounded).mpr
    ⟨⟨([⟨code 'A', vtgoup, 2, some (Function.update (fun _ => 0) 1 3)⟩], []), rfl, ?_, fun _ _ => trivial⟩, fun _ _ => trivial⟩
  intro argtab _
  refine ⟨?_, ?_, ?_, ?_, ?_, ?_⟩
  · exact fun _ one => absurd one (by decide)
  · exact fun _ one => absurd one (by decide)
  · exact fun _ one => absurd one (by decide)
  · exact fun _ one => absurd one (by decide)
  · exact fun scroll => absurd scroll (by decide)
  · exact fun _ one => absurd one (by decide)

theorem vt_bounds_fail : ¬∀ vt inputs, Bounded vt → (∀ input ∈ inputs, Readable input.str) →
    Holds vtStep Bounded (fun _ _ => True) vt inputs := by
  intro every
  have readable : ∀ input ∈ [(⟨fun _ => 0, [vtesc, code '[', code '9', code '9', code 'r']⟩ : Input)], Readable input.str := by
    intro input here
    rw [List.mem_singleton.mp here]
    exact readable_short _ (by decide) (by decide +kernel)
  obtain ⟨-, -, next, taken, after⟩ := every home _ home_bounded readable
  have result : vtStep home ⟨fun _ => 0, [vtesc, code '[', code '9', code '9', code 'r']⟩ = some { home with scrollbottom := 99 } := rfl
  rw [result] at taken
  cases taken
  have scroll := after.scroll.2.2
  revert scroll
  decide

end OsZero.Term

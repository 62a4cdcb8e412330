import OsZero.Lib.Search
import Mathlib.Data.List.Perm.Subperm
import Mathlib.Algebra.Order.Ring.Int
import Mathlib.Logic.Function.Basic

set_option autoImplicit false

namespace OsZero.Dungeon

structure Cellcoord where
  xval : Int
  yval : Int
deriving DecidableEq

-- celltab has ncellmax entries: the source sets the two together.
structure Cellcave where
  ncell : Nat
  ncellmax : Nat
  celltab : Nat → Cellcoord

-- A cave id that is none stands for DNG_NOCAVE. cavetab has ncavemax entries. writes
-- keeps, for every store into a celltab or the cavetab, its index and the table's entries.
structure Celldng where
  width : Nat
  height : Nat
  map : Int → Bool
  ncave : Nat
  ncavemax : Nat
  cavetab : Nat → Option Cellcave
  caveidtab : Int → Option Nat
  writes : List (Nat × Nat)

def DNG_NORTH : Nat := 0
def DNG_SOUTH : Nat := 1
def DNG_EAST : Nat := 2
def DNG_WEST : Nat := 3
def DNG_NDIR2 : Nat := 4
def DNG_NORTHEAST : Nat := 4
def DNG_NORTHWEST : Nat := 5
def DNG_SOUTHWEST : Nat := 6
def DNG_SOUTHEAST : Nat := 7

def dngdirtab : List Nat :=
  [DNG_NORTH, DNG_SOUTH, DNG_EAST, DNG_WEST, DNG_NORTHEAST, DNG_NORTHWEST, DNG_SOUTHWEST, DNG_SOUTHEAST]

def dngdirofstab : List Cellcoord :=
  [⟨0, -1⟩, ⟨0, 1⟩, ⟨1, 0⟩, ⟨-1, 0⟩, ⟨1, -1⟩, ⟨-1, -1⟩, ⟨-1, -1⟩, ⟨1, 1⟩]

def dngmovedir (cell : Cellcoord) (dir : Nat) : Cellcoord :=
  ⟨cell.xval + (dngdirofstab.getD dir ⟨0, 0⟩).xval, cell.yval + (dngdirofstab.getD dir ⟨0, 0⟩).yval⟩

def dngiscell (cell : Cellcoord) (w h : Nat) : Bool := 0 ≤ cell.xval ∧ cell.xval < w ∧ 0 ≤ cell.yval ∧ cell.yval < h

def place (w : Nat) (cell : Cellcoord) : Int := cell.yval * w + cell.xval

def dnggetcellbit (dng : Celldng) (cell : Cellcoord) : Bool := dng.map (place dng.width cell)

def dngsetcellbit (dng : Celldng) (cell : Cellcoord) : Celldng := { dng with map := Function.update dng.map (place dng.width cell) true }

def dngclrcellbit (dng : Celldng) (cell : Cellcoord) : Celldng := { dng with map := Function.update dng.map (place dng.width cell) false }

def dnggetcaveid (dng : Celldng) (cell : Cellcoord) : Option Nat := dng.caveidtab (place dng.width cell)

def dngsetcaveid (dng : Celldng) (cell : Cellcoord) (cid : Option Nat) : Celldng :=
  { dng with caveidtab := Function.update dng.caveidtab (place dng.width cell) cid }

def cellinitdng (width height : Nat) : Celldng :=
  ⟨width, height, fun _ => false, 0, 16, fun _ => none, fun _ => none, []⟩

def putcave (dng : Celldng) (ndx : Nat) (cave : Option Cellcave) : Celldng :=
  { dng with cavetab := Function.update dng.cavetab ndx cave, writes := dng.writes ++ [(ndx, dng.ncavemax)] }

-- The cell (x1, y1) goes behind the cave's other cells. A frame grows celltab from its own ncellmax.
def addcell (dng : Celldng) (id : Nat) (cave : Cellcave) (ncellmax : Nat) (cell : Cellcoord) : Nat × Celldng :=
  let grown := if cave.ncell = ncellmax then ncellmax <<< 1 else ncellmax
  let room := if cave.ncell = ncellmax then grown else cave.ncellmax
  (grown, { dng with
    cavetab := Function.update dng.cavetab id (some ⟨cave.ncell + 1, room, Function.update cave.celltab cave.ncell cell⟩)
    writes := dng.writes ++ [(cave.ncell, room)] })

-- One turn of the loop over the directions, with the frame's own ncellmax; find is the recursion.
def lookdir (find : Celldng → Option Nat → Cellcoord → Option (Option Nat × Celldng)) (id : Nat) (cell : Cellcoord)
    (frame : Nat × Celldng) (dir : Nat) : Option (Nat × Celldng) :=
  let cell1 := dngmovedir cell dir
  if dngiscell cell1 frame.2.width frame.2.height ∧ dnggetcellbit frame.2 cell1 ∧ dnggetcaveid frame.2 cell1 = none then do
    let dng := dngsetcaveid (dngsetcellbit frame.2 cell1) cell1 (some id)
    let cave ← dng.cavetab id
    let added := addcell dng id cave frame.1 cell1
    let found ← find added.2 (some id) cell1
    some (added.1, found.2)
  else some frame

def newcave (dng : Celldng) : Celldng :=
  let dng := if dng.ncave = dng.ncavemax then { dng with ncavemax := dng.ncavemax <<< 1 } else dng
  putcave dng dng.ncave (some ⟨0, 16, fun _ => ⟨0, 0⟩⟩)

-- none where a NULL cave is read or the recursion is cut off. A cave that is freed stays in cavetab.
def dngfindcave : Nat → Celldng → Option Nat → Cellcoord → Option (Option Nat × Celldng)
  | 0, _, _, _ => none
  | fuel + 1, dng, none, cell => do
      let id := dng.ncave
      let frame ← (dngdirtab.take DNG_NDIR2).foldlM (lookdir (dngfindcave fuel) id cell) (16, newcave dng)
      let cave ← frame.2.cavetab id
      if cave.ncell = 0 then some (none, frame.2) else some (some id, { frame.2 with ncave := frame.2.ncave + 1 })
  | fuel + 1, dng, some id, cell => do
      let cave ← dng.cavetab id
      let frame ← (dngdirtab.take DNG_NDIR2).foldlM (lookdir (dngfindcave fuel) id cell) (cave.ncellmax, dng)
      some (none, frame.2)

def clearcell (dng : Celldng) (cell : Cellcoord) : Celldng := dngsetcaveid (dngclrcellbit dng cell) cell none

def dngrmcave (dng : Celldng) (caveid : Nat) (clear : Bool) : Option Celldng := do
  let cave ← dng.cavetab caveid
  let cleared := if clear then ((List.range cave.ncell).map cave.celltab).foldl clearcell dng else dng
  let moved := (List.range' (caveid + 1) (cleared.ncave - 1 - (caveid + 1))).foldl
    (fun dng ndx2 => putcave dng (ndx2 - 1) (dng.cavetab ndx2)) cleared
  let last := putcave moved (max (caveid + 1) (moved.ncave - 1)) none
  some { last with ncave := last.ncave - 1 }

def dngbuildcell (fuel : Nat) (min max : Int) (dng : Celldng) (cell : Cellcoord) : Option Celldng :=
  if dnggetcellbit dng cell ∧ dnggetcaveid dng cell = none then do
    let found ← dngfindcave fuel dng none cell
    match found.1 with
    | none => some found.2
    | some id =>
        let cave ← found.2.cavetab id
        if cave.ncell ≤ min ∨ max < cave.ncell then dngrmcave found.2 id true else some found.2
  else some dng

def dngbuildcaves (fuel : Nat) (min max : Int) (dng : Celldng) : Option Celldng :=
  let w := dng.width
  let h := dng.height
  (List.range h).foldlM (fun dng (y : Nat) => (List.range w).foldlM (fun dng (x : Nat) => dngbuildcell fuel min max dng ⟨x, y⟩) dng) dng

end OsZero.Dungeon

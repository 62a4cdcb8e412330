import Mathlib.Algebra.Order.Ring.Int
import OsZero.Lib.Stores

set_option autoImplicit false

namespace OsZero.Mjolnir

open Stores

def MJOL_ROOM_MIN_WIDTH : Int := 8
def MJOL_ROOM_MIN_HEIGHT : Int := 6
def MJOL_ROOM_MAX_WIDTH : Int := 16
def MJOL_ROOM_MAX_HEIGHT : Int := 12

-- vertical is the flag MJOL_DIR_VERTICAL. The room's own rectangle is within its part of
-- the dungeon.
structure Mjolroom where
  x : Int
  y : Int
  width : Int
  height : Int
  vertical : Bool
  roomx : Int
  roomy : Int
  roomw : Int
  roomh : Int
deriving DecidableEq

-- calloc.
def cleared : Mjolroom := ⟨0, 0, 0, 0, false, 0, 0, 0, 0⟩

def mjolsplitroom (room : Mjolroom) : Mjolroom × Mjolroom :=
  if room.vertical then
    let pos := room.width >>> (1 : Nat)
    ({ cleared with x := room.x, y := room.y, width := pos, height := room.height },
      { cleared with x := room.x + pos, y := room.y, width := room.width - pos, height := room.height })
  else
    let pos := room.height >>> (1 : Nat)
    ({ cleared with x := room.x, y := room.y, width := room.width, height := pos, vertical := true },
      { cleared with x := room.x, y := room.y + pos, width := room.width, height := room.height - pos, vertical := true })

-- The four numbers that a room draws.
structure Draws where
  x : Nat
  y : Nat
  w : Nat
  h : Nat

def placeroom (rand : Nat) (size least : Int) : Int := max (min ((rand : Int) % max (size >>> (2 : Nat)) 2) (size - least - 2)) 1

def sizeroom (rand : Nat) (size place least most : Int) : Int :=
  min (min (max (least + (rand : Int) % max (size - 2) 1) least) (size - place - 2)) most

def mjolmkroom (room : Mjolroom) (draws : Draws) : Mjolroom :=
  let x := placeroom draws.x room.width MJOL_ROOM_MIN_WIDTH
  let y := placeroom draws.y room.height MJOL_ROOM_MIN_HEIGHT
  { room with
    roomx := room.roomx + (room.x + x)
    roomy := room.roomy + (room.y + y)
    roomw := sizeroom draws.w room.width x MJOL_ROOM_MIN_WIDTH MJOL_ROOM_MAX_WIDTH
    roomh := sizeroom draws.h room.height y MJOL_ROOM_MIN_HEIGHT MJOL_ROOM_MAX_HEIGHT }

-- The places from one number up to another, as a loop goes through them.
def through (first lim : Int) : List Int := (List.range (lim - first).toNat).map fun i : Nat => first + i

-- The places of the map that mjolmkroom draws a wall in, by column and row.
def walls (room : Mjolroom) : List (Int × Int) :=
  (through room.roomx (room.roomx + room.roomw)).map (fun x => (x, room.roomy)) ++
    (through room.roomx (room.roomx + room.roomw)).map (fun x => (x, room.roomy + room.roomh - 1)) ++
    (through (room.roomy + 1) (room.roomy + room.roomh - 1)).map (fun y => (room.roomx, y)) ++
    (through (room.roomy + 1) (room.roomy + room.roomh - 1)).map (fun y => (room.roomx + room.roomw - 1, y))

-- while (num < lim), with ndx1 = 2 * ndx + 1 and ndx2 = ndx1 + 1.
def splitLoop : Nat → Nat → Nat → Nat → Mem Mjolroom → Mem Mjolroom × Nat × Nat
  | 0, ndx, _, ndx2, tab => (tab, ndx, ndx2)
  | left + 1, ndx, ndx1, ndx2, tab =>
      let parts := mjolsplitroom (tab.cell ndx)
      splitLoop left (ndx + 1) (ndx1 + 2) (ndx2 + 2) ((tab.put ndx1 parts.1).put ndx2 parts.2)

-- while (ndx > lim), down from the room put in last.
def roomLoop (tab : Mem Mjolroom) (rand : Nat → Draws) (lim : Nat) : Nat → List Mjolroom
  | 0 => []
  | ndx + 1 => if lim < ndx + 1 then mjolmkroom (tab.cell (ndx + 1)) (rand (ndx + 1)) :: roomLoop tab rand lim ndx else []

-- tab has 1 << nlvl entries, and ret is what the loop stores.
def mjolinitrooms (nlvl : Nat) (width height : Int) (vertical : Bool) (rand : Nat → Draws) (tab : Mem Mjolroom) : Mem Mjolroom × List Mjolroom :=
  let split := splitLoop ((1 <<< nlvl) - 1) 0 1 2 (tab.put 0 { cleared with width := width, height := height, vertical := vertical })
  let lim := if split.2.1 = 0 then 1 else split.2.1 - 1
  (split.1, roomLoop split.1 rand lim (split.2.2 - 2))

-- Is a place of the map in a room's part of the dungeon?
def covers (room : Mjolroom) (x y : Int) : Bool := room.x ≤ x ∧ x < room.x + room.width ∧ room.y ≤ y ∧ y < room.y + room.height

theorem half_bounds (size : Int) (sized : 0 ≤ size) : 0 ≤ size >>> (1 : Nat) ∧ size >>> (1 : Nat) ≤ size - size >>> (1 : Nat) := by
  rw [Int.shiftRight_eq_div_pow]
  omega

theorem split_covers (room : Mjolroom) (wide : 0 ≤ room.width) (high : 0 ≤ room.height) (x y : Int) :
    (covers (mjolsplitroom room).1 x y).toNat + (covers (mjolsplitroom room).2 x y).toNat = (covers room x y).toNat := by
  have columns := half_bounds room.width wide
  have rows := half_bounds room.height high
  cases vertical : room.vertical with
  | true =>
    simp only [mjolsplitroom, vertical, if_true, covers]
    generalize room.width >>> (1 : Nat) = pos at columns
    by_cases left : x < room.x + pos
    · have off : ¬room.x + pos ≤ x := by omega
      have within : x < room.x + room.width := by omega
      simp [left, off, within]
    · have on : room.x + pos ≤ x := by omega
      have within : room.x ≤ x := by omega
      have same : room.x + pos + (room.width - pos) = room.x + room.width := by omega
      simp [left, on, within, same]
  | false =>
    simp only [mjolsplitroom, vertical, Bool.false_eq_true, if_false, covers]
    generalize room.height >>> (1 : Nat) = pos at rows
    by_cases left : y < room.y + pos
    · have off : ¬room.y + pos ≤ y := by omega
      have within : y < room.y + room.height := by omega
      simp [left, off, within]
    · have on : room.y + pos ≤ y := by omega
      have within : room.y ≤ y := by omega
      have same : room.y + pos + (room.height - pos) = room.y + room.height := by omega
      simp [left, on, within, same]

-- A room that is depth splits below a dungeon of w by h, which are split in turns.
structure Sized (w h : Nat) (first : Bool) (depth : Nat) (room : Mjolroom) : Prop where
  vertical : room.vertical = decide ((depth + first.toNat) % 2 = 1)
  width : (w / 2 ^ ((depth + first.toNat) / 2) : Nat) ≤ room.width
  height : (h / 2 ^ ((depth + 1 - first.toNat) / 2) : Nat) ≤ room.height
  bare : room.roomx = 0 ∧ room.roomy = 0

theorem half_least (size : Int) (w v : Nat) (least : (w / 2 ^ v : Nat) ≤ size) :
    (w / 2 ^ (v + 1) : Nat) ≤ size >>> (1 : Nat) ∧ (w / 2 ^ (v + 1) : Nat) ≤ size - size >>> (1 : Nat) := by
  have halves : w / 2 ^ (v + 1) = w / 2 ^ v / 2 := by rw [Nat.pow_succ, Nat.div_div_eq_div_mul]
  have sized : 0 ≤ size := Int.le_trans (Int.natCast_nonneg _) least
  have bounds := half_bounds size sized
  have half : size >>> (1 : Nat) = size / 2 := Int.shiftRight_eq_div_pow size 1
  rw [halves]
  omega

theorem split_sized (w h : Nat) (first : Bool) (depth : Nat) (room : Mjolroom) (sized : Sized w h first depth room) :
    Sized w h first (depth + 1) (mjolsplitroom room).1 ∧ Sized w h first (depth + 1) (mjolsplitroom room).2 := by
  obtain ⟨vertical, width, height, -⟩ := sized
  have one : first.toNat ≤ 1 := Bool.toNat_le first
  by_cases odd : (depth + first.toNat) % 2 = 1
  · rw [decide_eq_true odd] at vertical
    have next : (depth + 1 + first.toNat) / 2 = (depth + first.toNat) / 2 + 1 := by omega
    have other : (depth + 1 + 1 - first.toNat) / 2 = (depth + 1 - first.toNat) / 2 := by omega
    have even : ¬(depth + 1 + first.toNat) % 2 = 1 := by omega
    have halves := half_least room.width w _ width
    simp only [mjolsplitroom, vertical, if_true]
    exact ⟨⟨(decide_eq_false even).symm, next ▸ halves.1, other ▸ height, rfl, rfl⟩, ⟨(decide_eq_false even).symm, next ▸ halves.2, other ▸ height, rfl, rfl⟩⟩
  · rw [decide_eq_false odd] at vertical
    have next : (depth + 1 + 1 - first.toNat) / 2 = (depth + 1 - first.toNat) / 2 + 1 := by omega
    have other : (depth + 1 + first.toNat) / 2 = (depth + first.toNat) / 2 := by omega
    have even : (depth + 1 + first.toNat) % 2 = 1 := by omega
    have halves := half_least room.height h _ height
    simp only [mjolsplitroom, vertical, Bool.false_eq_true, if_false]
    exact ⟨⟨(decide_eq_true even).symm, other ▸ width, next ▸ halves.1, rfl, rfl⟩, ⟨(decide_eq_true even).symm, other ▸ width, next ▸ halves.2, rfl, rfl⟩⟩

-- The rooms that are not split yet, after count splits.
def leaves (tab : Mem Mjolroom) (count : Nat) : List Mjolroom := (List.range' count (count + 1)).map tab.cell

structure Grown (w h : Nat) (first : Bool) (count : Nat) (tab : Mem Mjolroom) : Prop where
  stored : tab.stored = List.range (2 * count + 1)
  sized : ∀ i, count ≤ i → i ≤ 2 * count → Sized w h first (i + 1).log2 (tab.cell i)
  tiles : ∀ x y : Int, (leaves tab count).countP (fun room => covers room x y) = if 0 ≤ x ∧ x < w ∧ 0 ≤ y ∧ y < h then 1 else 0

section Splits

variable (w h : Nat) (first : Bool)

theorem start_grown (cell : Nat → Mjolroom) : Grown w h first 0
    ((⟨cell, []⟩ : Mem Mjolroom).put 0 { cleared with width := w, height := h, vertical := first }) := by
  refine ⟨rfl, fun i _ none => ?_, fun x y => ?_⟩
  · obtain rfl : i = 0 := by omega
    rw [put_cell_self]
    refine ⟨?_, ?_, ?_, rfl, rfl⟩
    · cases first <;> rfl
    · exact Int.ofNat_le.mpr (Nat.div_le_self w _)
    · exact Int.ofNat_le.mpr (Nat.div_le_self h _)
  · simp [leaves, put_cell_self, covers, cleared, List.countP_cons]

theorem split_grown (count : Nat) (tab : Mem Mjolroom) (grown : Grown w h first count tab) :
    Grown w h first (count + 1) ((tab.put (2 * count + 1) (mjolsplitroom (tab.cell count)).1).put (2 * count + 2) (mjolsplitroom (tab.cell count)).2) := by
  obtain ⟨stored, sized, tiles⟩ := grown
  have here := sized count (Nat.le_refl _) (by omega)
  have parts := split_sized w h first _ _ here
  have kept : ∀ i, i ≤ 2 * count →
      ((tab.put (2 * count + 1) (mjolsplitroom (tab.cell count)).1).put (2 * count + 2) (mjolsplitroom (tab.cell count)).2).cell i = tab.cell i := by
    intro i old
    rw [put_cell_of_ne _ _ _ _ (by omega), put_cell_of_ne _ _ _ _ (by omega)]
  have one : ((tab.put (2 * count + 1) (mjolsplitroom (tab.cell count)).1).put (2 * count + 2) (mjolsplitroom (tab.cell count)).2).cell (2 * count + 1) =
      (mjolsplitroom (tab.cell count)).1 := by rw [put_cell_of_ne _ _ _ _ (by omega), put_cell_self]
  have two : ((tab.put (2 * count + 1) (mjolsplitroom (tab.cell count)).1).put (2 * count + 2) (mjolsplitroom (tab.cell count)).2).cell (2 * count + 2) =
      (mjolsplitroom (tab.cell count)).2 := put_cell_self _ _ _
  generalize put : (tab.put (2 * count + 1) (mjolsplitroom (tab.cell count)).1).put (2 * count + 2) (mjolsplitroom (tab.cell count)).2 = next at kept one two
  refine ⟨?_, fun i above below => ?_, fun x y => ?_⟩
  · rw [← put, put_stored, put_stored, stored, ← List.range_succ, ← List.range_succ]
    rfl
  · rcases Nat.lt_trichotomy i (2 * count + 1) with old | rfl | new
    · rw [kept i (by omega)]
      exact sized i (by omega) (by omega)
    · have depth : (2 * count + 1 + 1).log2 = (count + 1).log2 + 1 := by
        rw [Nat.log2_def, if_pos (by omega)]
        congr 2
        omega
      rw [one, depth]
      exact parts.1
    · obtain rfl : i = 2 * count + 2 := by omega
      have depth : (2 * count + 2 + 1).log2 = (count + 1).log2 + 1 := by
        rw [Nat.log2_def, if_pos (by omega)]
        congr 2
        omega
      rw [two, depth]
      exact parts.2
  · have wide : 0 ≤ (tab.cell count).width := Int.le_trans (Int.natCast_nonneg _) here.width
    have high : 0 ≤ (tab.cell count).height := Int.le_trans (Int.natCast_nonneg _) here.height
    have pair := split_covers (tab.cell count) wide high x y
    have before := tiles x y
    have rest : (List.range' (count + 1) count).map next.cell = (List.range' (count + 1) count).map tab.cell := by
      refine List.map_congr_left fun i member => kept i ?_
      have bounds := List.mem_range'_1.mp member
      omega
    have after : leaves next (count + 1) = (List.range' (count + 1) count).map tab.cell ++ [(mjolsplitroom (tab.cell count)).1, (mjolsplitroom (tab.cell count)).2] := by
      have split : List.range' (count + 1) (count + 2) = List.range' (count + 1) count ++ [2 * count + 1, 2 * count + 2] := by
        rw [← List.range'_append_1, show count + 1 + count = 2 * count + 1 by omega]
        rfl
      rw [leaves, split, List.map_append, rest, List.map_cons, List.map_cons, one, two]
      rfl
    have earlier : leaves tab count = tab.cell count :: (List.range' (count + 1) count).map tab.cell := by
      rw [leaves, List.range'_succ]
      rfl
    rw [earlier, List.countP_cons] at before
    have cons : ∀ one : Bool, (if one = true then 1 else 0) = one.toNat := by decide
    rw [cons] at before
    rw [after, List.countP_append, ← before, List.countP_cons, List.countP_cons, List.countP_nil, cons, cons]
    omega

theorem loop_grown (left count : Nat) (tab : Mem Mjolroom) (grown : Grown w h first count tab) :
    ∃ last, splitLoop left count (2 * count + 1) (2 * count + 2) tab = (last, count + left, 2 * (count + left) + 2) ∧ Grown w h first (count + left) last := by
  induction left generalizing count tab with
  | zero => exact ⟨tab, rfl, grown⟩
  | succ left ih =>
    obtain ⟨last, done, later⟩ := ih (count + 1) _ (split_grown w h first count tab grown)
    rw [Nat.add_right_comm] at done later
    exact ⟨last, done, later⟩

end Splits

theorem roomLoop_range (tab : Mem Mjolroom) (rand : Nat → Draws) (lim more : Nat) : roomLoop tab rand lim (lim + more) =
    ((List.range' (lim + 1) more).map fun ndx => mjolmkroom (tab.cell ndx) (rand ndx)).reverse := by
  induction more with
  | zero =>
    cases lim with
    | zero => rfl
    | succ lim => rw [Nat.add_zero, roomLoop, if_neg (Nat.lt_irrefl _)]; rfl
  | succ more ih =>
    rw [Nat.add_succ, roomLoop, if_pos (by omega), ih, List.range'_1_concat, List.map_append, List.reverse_append]
    simp [Nat.add_right_comm]

theorem mem_through (first lim place : Int) : place ∈ through first lim ↔ first ≤ place ∧ place < lim := by
  rw [through, List.mem_map]
  constructor
  · rintro ⟨i, member, rfl⟩
    have below := List.mem_range.mp member
    omega
  · rintro ⟨above, below⟩
    exact ⟨(place - first).toNat, List.mem_range.mpr (by omega), by omega⟩

-- A room of four by four places or more leaves a place in front of its walls and two behind.
theorem placed (place draw : Nat) (size least most : Int) (roomy : 4 ≤ size) (sound : 1 ≤ least ∧ 1 ≤ most) : 1 ≤ placeroom place size least ∧
    1 ≤ sizeroom draw size (placeroom place size least) least most ∧
    placeroom place size least + sizeroom draw size (placeroom place size least) least most ≤ size - 2 := by
  unfold placeroom sizeroom
  generalize (place : Int) % max (size >>> (2 : Nat)) 2 = offset
  generalize (draw : Int) % max (size - 2) 1 = extent
  omega

theorem walls_inside (room : Mjolroom) (draws : Draws) (wide : 4 ≤ room.width) (high : 4 ≤ room.height) (bare : room.roomx = 0 ∧ room.roomy = 0) :
    walls (mjolmkroom room draws) ≠ [] ∧ ∀ place ∈ walls (mjolmkroom room draws), room.x < place.1 ∧ place.1 < room.x + room.width - 2 ∧
      room.y < place.2 ∧ place.2 < room.y + room.height - 2 := by
  have column := placed draws.x draws.w room.width MJOL_ROOM_MIN_WIDTH MJOL_ROOM_MAX_WIDTH wide (by decide)
  have row := placed draws.y draws.h room.height MJOL_ROOM_MIN_HEIGHT MJOL_ROOM_MAX_HEIGHT high (by decide)
  unfold mjolmkroom
  dsimp only
  generalize placeroom draws.x room.width MJOL_ROOM_MIN_WIDTH = x at column ⊢
  generalize placeroom draws.y room.height MJOL_ROOM_MIN_HEIGHT = y at row ⊢
  generalize sizeroom draws.w room.width x MJOL_ROOM_MIN_WIDTH MJOL_ROOM_MAX_WIDTH = roomw at column ⊢
  generalize sizeroom draws.h room.height y MJOL_ROOM_MIN_HEIGHT MJOL_ROOM_MAX_HEIGHT = roomh at row ⊢
  obtain ⟨roomx, roomy⟩ := bare
  constructor
  · intro none
    have corner : (room.x + x, room.y + y) ∈ walls { room with roomx := room.roomx + (room.x + x), roomy := room.roomy + (room.y + y), roomw, roomh } := by
      simp only [walls, List.mem_append, List.mem_map, mem_through, Prod.mk.injEq]
      exact .inl (.inl (.inl ⟨room.x + x, by omega, rfl, by omega⟩))
    rw [none] at corner
    exact absurd corner List.not_mem_nil
  · rintro ⟨column', row'⟩ member
    simp only [walls, List.mem_append, List.mem_map, mem_through, Prod.mk.injEq] at member
    rcases member with ((⟨_, _, _, _⟩ | ⟨_, _, _, _⟩) | ⟨_, _, _, _⟩) | ⟨_, _, _, _⟩ <;> omega

theorem least_size (power more size : Nat) (enough : 4 * 2 ^ more ≤ size) (less : power ≤ more) : 4 ≤ size / 2 ^ power := by
  rw [Nat.le_div_iff_mul_le (Nat.pow_pos (by decide))]
  exact Nat.le_trans (Nat.mul_le_mul_left 4 (Nat.pow_le_pow_right (by decide) less)) enough

section Dungeon

variable (nlvl w h : Nat) (vertical : Bool) (rand : Nat → Draws) (cell : Nat → Mjolroom)

theorem initrooms_grown (deep : 0 < nlvl) : ∃ tab, Grown w h vertical (2 ^ nlvl - 1) tab ∧ mjolinitrooms nlvl w h vertical rand ⟨cell, []⟩ =
    (tab, ((List.range' (2 ^ nlvl - 1) (2 ^ nlvl)).map fun ndx => mjolmkroom (tab.cell ndx) (rand ndx)).reverse) := by
  have two : 2 ≤ 2 ^ nlvl := by
    calc 2 = 2 ^ 1 := rfl
      _ ≤ 2 ^ nlvl := Nat.pow_le_pow_right (by decide) deep
  obtain ⟨tab, done, grown⟩ := loop_grown w h vertical (2 ^ nlvl - 1) 0 _ (start_grown w h vertical cell)
  simp only [Nat.zero_add] at done grown
  have shift : 1 <<< nlvl = 2 ^ nlvl := by rw [Nat.shiftLeft_eq, Nat.one_mul]
  refine ⟨tab, grown, ?_⟩
  have loop := roomLoop_range tab rand (2 ^ nlvl - 2) (2 ^ nlvl)
  rw [show 2 ^ nlvl - 2 + 1 = 2 ^ nlvl - 1 by omega, show 2 ^ nlvl - 2 + 2 ^ nlvl = 2 * (2 ^ nlvl - 1) + 2 - 2 by omega] at loop
  simp only [mjolinitrooms, shift, done, if_neg (show ¬2 ^ nlvl - 1 = 0 by omega)]
  rw [show 2 ^ nlvl - 1 - 1 = 2 ^ nlvl - 2 by omega, loop]

end Dungeon

-- The parts of the rooms are the dungeon, place by place; their walls are drawn inside
-- them and nowhere else. The table of 1 << nlvl rooms is written far behind its end.
theorem mjolinitrooms_tiles (nlvl w h : Nat) (vertical : Bool) (rand : Nat → Draws) (cell : Nat → Mjolroom) (deep : 0 < nlvl)
    (wide : 4 * 2 ^ ((nlvl + 1) / 2) ≤ w) (high : 4 * 2 ^ ((nlvl + 1) / 2) ≤ h) :
    let rooms := (mjolinitrooms nlvl w h vertical rand ⟨cell, []⟩).2
    rooms.length = 2 ^ nlvl ∧
      (∀ x y : Int, rooms.countP (fun room => covers room x y) = if 0 ≤ x ∧ x < w ∧ 0 ≤ y ∧ y < h then 1 else 0) ∧
      (∀ room ∈ rooms, walls room ≠ [] ∧ ∀ place ∈ walls room, room.x < place.1 ∧ place.1 < room.x + room.width - 2 ∧
        room.y < place.2 ∧ place.2 < room.y + room.height - 2) ∧
      (∀ place, rooms.countP (fun room => place ∈ walls room) ≤ 1) ∧
      (mjolinitrooms nlvl w h vertical rand ⟨cell, []⟩).1.stored = List.range (2 * 2 ^ nlvl - 1) := by
  obtain ⟨tab, grown, done⟩ := initrooms_grown nlvl w h vertical rand cell deep
  have some_room : 0 < 2 ^ nlvl := Nat.pow_pos (by decide)
  have tiles : ∀ x y : Int, ((List.range' (2 ^ nlvl - 1) (2 ^ nlvl)).map fun ndx => mjolmkroom (tab.cell ndx) (rand ndx)).reverse.countP
      (fun room => covers room x y) = if 0 ≤ x ∧ x < w ∧ 0 ≤ y ∧ y < h then 1 else 0 := by
    intro x y
    rw [← grown.tiles x y, leaves, show 2 ^ nlvl - 1 + 1 = 2 ^ nlvl by omega, List.countP_reverse, List.countP_map, List.countP_map]
    rfl
  have inside : ∀ room ∈ ((List.range' (2 ^ nlvl - 1) (2 ^ nlvl)).map fun ndx => mjolmkroom (tab.cell ndx) (rand ndx)).reverse, walls room ≠ [] ∧
      ∀ place ∈ walls room, room.x < place.1 ∧ place.1 < room.x + room.width - 2 ∧ room.y < place.2 ∧ place.2 < room.y + room.height - 2 := by
    intro room member
    obtain ⟨ndx, between, rfl⟩ := List.mem_map.mp (List.mem_reverse.mp member)
    have bounds := List.mem_range'_1.mp between
    have depth : (ndx + 1).log2 = nlvl := (Nat.log2_eq_iff (by omega)).mpr ⟨by omega, by rw [Nat.pow_succ]; omega⟩
    have sized := grown.sized ndx bounds.1 (by omega)
    rw [depth] at sized
    have one : vertical.toNat ≤ 1 := Bool.toNat_le vertical
    have columns := least_size ((nlvl + vertical.toNat) / 2) _ w wide (by omega)
    have rows := least_size ((nlvl + 1 - vertical.toNat) / 2) _ h high (by omega)
    exact walls_inside (tab.cell ndx) (rand ndx) (Int.le_trans (Int.ofNat_le.mpr columns) sized.width)
      (Int.le_trans (Int.ofNat_le.mpr rows) sized.height) sized.bare
  simp only [done]
  refine ⟨by simp, tiles, inside, fun place => ?_, ?_⟩
  · refine Nat.le_trans (List.countP_mono_left fun room member drawn => ?_) (Nat.le_trans (Nat.le_of_eq (tiles place.1 place.2)) (by split <;> decide))
    have bounds := (inside room member).2 place (of_decide_eq_true drawn)
    exact decide_eq_true (by omega)
  · rw [grown.stored]
    congr 1
    omega

theorem mjolinitrooms_tiles_three : (mjolinitrooms 3 80 24 false (fun ndx => ⟨ndx, ndx, ndx, ndx⟩) ⟨fun _ => cleared, []⟩).2.length = 8 ∧
    (mjolinitrooms 3 80 24 false (fun ndx => ⟨ndx, ndx, ndx, ndx⟩) ⟨fun _ => cleared, []⟩).1.stored = List.range 15 := by
  have tiles := mjolinitrooms_tiles 3 80 24 false (fun ndx => ⟨ndx, ndx, ndx, ndx⟩) (fun _ => cleared) (by decide) (by decide) (by decide)
  exact ⟨tiles.1, tiles.2.2.2.2⟩

end OsZero.Mjolnir

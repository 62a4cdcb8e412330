import OsZero.Dungeon.Room

set_option autoImplicit false

namespace OsZero.Dungeon

open Search

def Cellcave.cells (cave : Cellcave) : List Cellcoord := (List.range cave.ncell).map cave.celltab

-- Every store so far was into an entry that its table had.
def Contained (dng : Celldng) : Prop := ∀ write ∈ dng.writes, write.1 < write.2

def opencell (w h : Nat) (map : Int → Bool) (cell : Cellcoord) : Bool := dngiscell cell w h && map (place w cell)

def sides (w h : Nat) (map : Int → Bool) (cell : Cellcoord) : List Cellcoord :=
  ((dngdirtab.take DNG_NDIR2).map (dngmovedir cell)).filter (opencell w h map)

-- The cells of a dungeon, row by row.
def reading (w h : Nat) : List Cellcoord :=
  (List.range h).flatMap fun (y : Nat) => (List.range w).map fun (x : Nat) => ⟨x, y⟩

theorem mem_reading (w h : Nat) (cell : Cellcoord) : cell ∈ reading w h ↔ dngiscell cell w h = true := by
  obtain ⟨x, y⟩ := cell
  simp only [reading, List.mem_flatMap, List.mem_map, List.mem_range, dngiscell, decide_eq_true_eq, Cellcoord.mk.injEq]
  constructor
  · rintro ⟨row, low, column, left, rfl, rfl⟩
    omega
  · rintro ⟨right, left, down, up⟩
    exact ⟨y.toNat, by omega, x.toNat, by omega, by omega, by omega⟩

theorem reading_length (w h : Nat) : (reading w h).length = w * h := by
  rw [reading, List.length_flatMap]
  simp [Nat.mul_comm]

theorem place_inj (w h : Nat) (one other : Cellcoord) (inside : dngiscell one w h = true) (within : dngiscell other w h = true)
    (same : place w one = place w other) : one = other := by
  obtain ⟨x1, y1⟩ := one
  obtain ⟨x2, y2⟩ := other
  simp only [dngiscell, decide_eq_true_eq, place] at inside within same
  have rows : y1 = y2 := by
    rcases Int.lt_trichotomy y1 y2 with less | rows | more
    · have := Int.mul_le_mul_of_nonneg_right (by omega : y1 + 1 ≤ y2) (Int.natCast_nonneg w)
      rw [Int.add_mul, Int.one_mul] at this
      omega
    · exact rows
    · have := Int.mul_le_mul_of_nonneg_right (by omega : y2 + 1 ≤ y1) (Int.natCast_nonneg w)
      rw [Int.add_mul, Int.one_mul] at this
      omega
  subst rows
  congr 1
  omega

theorem contained_append (dng : Celldng) (writes : List (Nat × Nat)) (write : Nat × Nat) (same : dng.writes = writes ++ [write]) :
    Contained dng ↔ (∀ write ∈ writes, write.1 < write.2) ∧ write.1 < write.2 := by
  rw [Contained, same, List.forall_mem_append, List.forall_mem_singleton]

-- The dungeon first, with the cells of a walk's list so far taken into cave id.
structure Filling (first : Celldng) (id : Nat) (list : List (Nat × Cellcoord)) (dng : Celldng) : Prop where
  width : dng.width = first.width
  height : dng.height = first.height
  map : dng.map = first.map
  ncave : dng.ncave = first.ncave
  ncavemax : dng.ncavemax = first.ncavemax
  ids : ∀ p, dng.caveidtab p = if p ∈ (list.map Prod.snd).map (place first.width) then some id else first.caveidtab p
  others : ∀ other, other ≠ id → dng.cavetab other = first.cavetab other
  cave : ∃ cave, dng.cavetab id = some cave ∧ cave.ncell = list.length ∧ cave.cells = list.map Prod.snd ∧
    (Contained dng → cave.ncellmax = room list.length)
  contained : Contained dng ↔ Contained first ∧ Roomy list

variable {first : Celldng} {id : Nat} {list : List (Nat × Cellcoord)} {dng : Celldng}

theorem cells_append (cave : Cellcave) (room : Nat) (cell : Cellcoord) :
    (Cellcave.mk (cave.ncell + 1) room (Function.update cave.celltab cave.ncell cell)).cells = cave.cells ++ [cell] := by
  rw [Cellcave.cells, List.range_succ, List.map_append]
  congr 1
  · apply List.map_congr_left
    intro i inside
    exact Function.update_of_ne (Nat.ne_of_lt (List.mem_range.mp inside)) _ _
  · simp only [List.map_cons, List.map_nil, Function.update_self]

theorem addcell_eq (dng : Celldng) (id : Nat) (cave : Cellcave) (ncellmax : Nat) (cell : Cellcoord) :
    addcell dng id cave ncellmax cell = (if cave.ncell = ncellmax then ncellmax <<< 1 else ncellmax, { dng with
      cavetab := Function.update dng.cavetab id (some ⟨cave.ncell + 1, if cave.ncell = ncellmax then ncellmax <<< 1 else cave.ncellmax,
        Function.update cave.celltab cave.ncell cell⟩)
      writes := dng.writes ++ [(cave.ncell, if cave.ncell = ncellmax then ncellmax <<< 1 else cave.ncellmax)] }) := by
  by_cases full : cave.ncell = ncellmax
  · simp only [addcell, if_pos full]
  · simp only [addcell, if_neg full]

-- One more cell, added by the frame that the walk came to with mark cells listed.
theorem filling_add (filling : Filling first id list dng) (mark ncellmax : Nat) (cell : Cellcoord) (closed : first.map (place first.width cell) = true)
    (knows : Contained dng → Knows mark list ncellmax) :
    ∃ cave, dng.cavetab id = some cave ∧ ∀ next, addcell (dngsetcaveid (dngsetcellbit dng cell) cell (some id)) id cave ncellmax cell = next →
      Filling first id (list ++ [(mark, cell)]) next.2 ∧ (Contained next.2 → Knows mark (list ++ [(mark, cell)]) next.1) := by
  obtain ⟨cave, present, count, cells, capacity⟩ := filling.cave
  refine ⟨cave, present, fun next added => ?_⟩
  rw [addcell_eq, count] at added
  subst added
  have bits : Function.update dng.map (place dng.width cell) true = first.map := by
    rw [filling.map, filling.width]
    exact Function.update_eq_self_iff.mpr closed.symm
  have step (contained : Contained dng) := knows_append list mark ncellmax cell (knows contained)
  have writes_exact (after : Celldng) (writes : after.writes = dng.writes ++ [(list.length, if list.length = ncellmax then ncellmax <<< 1 else cave.ncellmax)]) :
      Contained after ↔ Contained dng ∧ (list.length = room list.length → Synced mark list) := by
    rw [contained_append after _ _ writes]
    refine and_congr_right fun contained => ?_
    rw [← (step contained).1, capacity contained]
  refine ⟨⟨filling.width, filling.height, bits, filling.ncave, filling.ncavemax, fun p => ?_, fun other different => ?_, ?_, ?_⟩, fun contained => ?_⟩
  · rw [List.map_append, List.map_append]
    simp only [dngsetcaveid, dngsetcellbit, List.map_cons, List.map_nil, List.mem_append, List.mem_singleton]
    by_cases own : p = place first.width cell
    · rw [own, filling.width, Function.update_self, if_pos (.inr rfl)]
    · rw [filling.width, Function.update_of_ne own, filling.ids]
      simp only [or_iff_left own]
  · exact (Function.update_of_ne different _ _).trans (filling.others other different)
  · refine ⟨_, Function.update_self id _ _, ?_, ?_, fun contained => ?_⟩
    · rw [List.length_append, List.length_singleton]
    · rw [← count, cells_append, cells, List.map_append]
      rfl
    · have both := (writes_exact _ (by rfl)).mp contained
      rw [capacity both.1]
      exact ((step both.1).2 both.2).1
  · rw [roomy_append, ← and_assoc, ← filling.contained]
    exact writes_exact _ (by rfl)
  · have both := (writes_exact _ (by rfl)).mp contained
    exact ((step both.1).2 both.2).2

-- Cells that no step leads out of, that no cave has yet, and whose sides have still the bits they had.
structure Region (w h : Nat) (map : Int → Bool) (first : Celldng) (inside : Cellcoord → Prop) : Prop where
  width : first.width = w
  height : first.height = h
  within : ∀ cell, inside cell → dngiscell cell w h = true
  closed : ∀ cell, inside cell → ∀ side ∈ sides w h map cell, inside side
  same : ∀ cell, inside cell → ∀ dir ∈ dngdirtab.take DNG_NDIR2, dngiscell (dngmovedir cell dir) w h = true →
    first.map (place w (dngmovedir cell dir)) = map (place w (dngmovedir cell dir))
  blank : ∀ cell, inside cell → first.caveidtab (place w cell) = none

variable {w h : Nat} {map : Int → Bool} {inside : Cellcoord → Prop}

theorem filling_unlisted (region : Region w h map first inside) (filling : Filling first id list dng) (cell : Cellcoord) (within : inside cell)
    (listed : ∀ cell ∈ list.map Prod.snd, inside cell) : dnggetcaveid dng cell = none ↔ cell ∉ list.map Prod.snd := by
  have known : place w cell ∈ (list.map Prod.snd).map (place w) ↔ cell ∈ list.map Prod.snd := by
    constructor
    · intro member
      obtain ⟨other, present, same⟩ := List.mem_map.mp member
      exact place_inj w h other cell (region.within other (listed other present)) (region.within cell within) same ▸ present
    · exact fun member => List.mem_map_of_mem member
  rw [dnggetcaveid, filling.ids, filling.width, region.width]
  simp only [known]
  by_cases member : cell ∈ list.map Prod.snd
  · rw [if_pos member]
    exact iff_of_false (Option.some_ne_none id) (not_not_intro member)
  · rw [if_neg member]
    exact iff_of_true (region.blank cell within) member

theorem lookdir_skip (find : Celldng → Option Nat → Cellcoord → Option (Option Nat × Celldng)) (id : Nat) (cell : Cellcoord)
    (frame : Nat × Celldng) (dir : Nat) (skipped : ¬ (dngiscell (dngmovedir cell dir) frame.2.width frame.2.height = true ∧
      dnggetcellbit frame.2 (dngmovedir cell dir) = true ∧ dnggetcaveid frame.2 (dngmovedir cell dir) = none)) :
    lookdir find id cell frame dir = some frame := by
  rw [lookdir]
  exact if_neg skipped

theorem lookdir_enter (find : Celldng → Option Nat → Cellcoord → Option (Option Nat × Celldng)) (id : Nat) (cell side : Cellcoord)
    (ncellmax : Nat) (dng : Celldng) (dir : Nat) (cave : Cellcave) (added : Nat × Celldng) (found : Option Nat × Celldng)
    (sided : dngmovedir cell dir = side) (entered : dngiscell side dng.width dng.height = true) (bit : dnggetcellbit dng side = true)
    (blank : dnggetcaveid dng side = none) (present : dng.cavetab id = some cave)
    (add : addcell (dngsetcaveid (dngsetcellbit dng side) side (some id)) id cave ncellmax side = added)
    (taken : find added.2 (some id) side = some found) : lookdir find id cell (ncellmax, dng) dir = some (added.1, found.2) := by
  subst sided
  subst add
  rw [lookdir]
  dsimp only
  rw [if_pos ⟨entered, bit, blank⟩]
  dsimp only [dngsetcaveid, dngsetcellbit] at taken ⊢
  rw [present, Option.bind_eq_bind, Option.bind_some, taken]
  rfl

-- The loop over the directions walks on depth first.
theorem lookdirs_walk (region : Region w h map first inside) (fuel : Nat) (dirs : List Nat) (dng : Celldng) (list : List (Nat × Cellcoord))
    (mark ncellmax : Nat) (cell : Cellcoord) (sub : ∀ dir ∈ dirs, dir ∈ dngdirtab.take DNG_NDIR2) (start : inside cell)
    (filling : Filling first id list dng) (knows : Contained dng → Knows mark list ncellmax) (nodup : (list.map Prod.snd).Nodup)
    (listed : ∀ cell ∈ list.map Prod.snd, inside cell) (earlier : mark ≤ list.length) (enough : w * h ≤ list.length + fuel) :
    ∃ after last, dirs.foldlM (lookdir (dngfindcave fuel) id cell) (ncellmax, dng) = some last ∧
      Walk (sides w h map) mark ((dirs.map (dngmovedir cell)).filter (opencell w h map)) list after ∧ Filling first id after last.2 ∧
      (Contained last.2 → Knows mark after last.1) := by
  induction fuel using Nat.strongRecOn generalizing dirs dng list mark ncellmax cell with
  | _ fuel ih =>
  induction dirs generalizing dng list ncellmax with
  | nil => exact ⟨list, _, rfl, .done mark list, filling, knows⟩
  | cons dir dirs more =>
      have others : ∀ dir ∈ dirs, dir ∈ dngdirtab.take DNG_NDIR2 := fun dir member => sub dir (List.mem_cons_of_mem _ member)
      rw [List.foldlM_cons, List.map_cons]
      generalize sided : dngmovedir cell dir = side
      by_cases opened : opencell w h map side = true
      · have member : side ∈ sides w h map cell :=
          List.mem_filter.mpr ⟨sided ▸ List.mem_map_of_mem (sub dir List.mem_cons_self), opened⟩
        have entered := region.closed cell start side member
        have bit : first.map (place w side) = true := by
          have same := region.same cell start dir (sub dir List.mem_cons_self)
          rw [sided] at same
          rw [same (region.within side entered)]
          exact (Bool.and_eq_true _ _ ▸ opened).2
        rw [List.filter_cons_of_pos opened]
        by_cases known : side ∈ list.map Prod.snd
        · have skip := lookdir_skip (dngfindcave fuel) id cell (ncellmax, dng) dir
            (fun all => (filling_unlisted region filling side entered listed).mp (sided ▸ all.2.2) known)
          obtain ⟨after, last, taken, walk, rest⟩ := more dng list ncellmax others filling knows nodup listed earlier enough
          exact ⟨after, last, by rw [skip]; exact taken, .old known walk, rest⟩
        · have wider : ∀ cell ∈ (list ++ [(mark, side)]).map Prod.snd, inside cell := by
            intro cell member
            rcases (listed_append _ _ _ _).mp member with member | rfl
            · exact listed cell member
            · exact entered
          have distinct := Search.nodup_append list mark side nodup known
          have fits : (list ++ [(mark, side)]).length ≤ w * h := by
            rw [← List.length_map Prod.snd, ← reading_length w h]
            exact (List.subperm_of_subset distinct fun cell member => (mem_reading w h cell).mpr (region.within cell (wider cell member))).length_le
          have length : (list ++ [(mark, side)]).length = list.length + 1 := by rw [List.length_append, List.length_singleton]
          obtain ⟨less, rfl⟩ : ∃ less, fuel = less + 1 := Nat.exists_eq_succ_of_ne_zero (by omega)
          obtain ⟨cave, present, add⟩ := filling_add filling mark ncellmax side (by rw [region.width]; exact bit) knows
          generalize adding : addcell (dngsetcaveid (dngsetcellbit dng side) side (some id)) id cave ncellmax side = added at add
          obtain ⟨filled, informed⟩ := add added rfl
          obtain ⟨roomier, there, -, -, capacity⟩ := filled.cave
          obtain ⟨between, last, inner, deep, full, -⟩ := ih less (Nat.lt_succ_self less) (dngdirtab.take DNG_NDIR2) added.2 _
            (list.length + 1) roomier.ncellmax side (fun _ member => member) entered filled
            (fun contained => by rw [capacity contained, ← length]; exact knows_own _) distinct wider (Nat.le_of_eq length.symm) (by omega)
          have found : dngfindcave (less + 1) added.2 (some id) side = some (none, last.2) := by
            rw [dngfindcave, there, Option.bind_eq_bind, Option.bind_some, inner]
            rfl
          have enter := lookdir_enter (dngfindcave (less + 1)) id cell side ncellmax dng dir cave added _ sided
            (by rw [filling.width, filling.height, region.width, region.height]; exact region.within side entered)
            (by rw [dnggetcellbit, filling.map, filling.width, region.width]; exact bit)
            ((filling_unlisted region filling side entered listed).mpr known) present adding found
          have fewer := walk_length_le deep
          obtain ⟨extra, grown, later⟩ := walk_marks deep (Nat.le_of_eq length.symm)
          obtain ⟨after, final, taken, walk, rest⟩ := more last.2 between added.1 others full
            (fun contained => by
              obtain ⟨kept, roomy⟩ := full.contained.mp contained
              rw [grown] at roomy ⊢
              have before : Contained added.2 := filled.contained.mpr ⟨kept, roomy_of_append _ _ roomy⟩
              exact knows_extends _ _ mark _ (by omega) (fun entry member => Nat.lt_of_lt_of_le (by omega) (later entry member)) (informed before))
            (walk_nodup deep distinct) (walk_within inside region.closed deep (region.closed side entered) wider) (by omega) (by omega)
          exact ⟨after, final, by rw [enter]; exact taken, .fresh known deep walk, rest⟩
      · have skip := lookdir_skip (dngfindcave fuel) id cell (ncellmax, dng) dir (by
          rintro ⟨entered, bit, -⟩
          rw [sided, filling.width, filling.height, region.width, region.height] at entered
          rw [sided, dnggetcellbit, filling.map, filling.width, region.width] at bit
          have same := region.same cell start dir (sub dir List.mem_cons_self)
          rw [sided] at same
          rw [same entered] at bit
          exact opened (Bool.and_eq_true _ _ ▸ ⟨entered, bit⟩))
        obtain ⟨after, last, taken, walk, rest⟩ := more dng list ncellmax others filling knows nodup listed earlier enough
        exact ⟨after, last, by rw [skip]; exact taken, by rw [List.filter_cons_of_neg opened]; exact walk, rest⟩

theorem filling_start (first : Celldng) (id : Nat) (celltab : Nat → Cellcoord) (present : first.cavetab id = some ⟨0, 16, celltab⟩) :
    Filling first id [] first :=
  ⟨rfl, rfl, rfl, rfl, rfl, fun _ => rfl, fun _ _ => rfl, ⟨_, present, rfl, rfl, fun _ => rfl⟩, (and_iff_left roomy_nil).symm⟩

-- A cave is found by a walk from its first cell, which is itself listed on the way.
theorem findcave_walk (region : Region w h map (newcave dng) inside) (fuel : Nat) (cell : Cellcoord) (start : inside cell) (enough : w * h ≤ fuel) :
    ∃ list last, Walk (sides w h map) 0 (sides w h map cell) [] list ∧ Filling (newcave dng) dng.ncave list last ∧
      dngfindcave (fuel + 1) dng none cell =
        if list = [] then some (none, last) else some (some dng.ncave, { last with ncave := dng.ncave + 1 }) := by
  have fresh : (newcave dng).cavetab dng.ncave = some ⟨0, 16, fun _ => ⟨0, 0⟩⟩ := by
    rw [newcave]
    split <;> exact Function.update_self _ _ _
  have same : (newcave dng).ncave = dng.ncave := by
    rw [newcave]
    split <;> rfl
  obtain ⟨list, last, taken, walk, filling, -⟩ := lookdirs_walk region fuel (dngdirtab.take DNG_NDIR2) (newcave dng) [] 0 16 cell
    (fun _ member => member) start (filling_start _ _ _ fresh) (fun _ => knows_own []) List.nodup_nil
    (fun _ member => absurd member List.not_mem_nil) (Nat.le_refl 0) (by rw [List.length_nil]; omega)
  obtain ⟨cave, present, count, -, -⟩ := filling.cave
  refine ⟨list, last.2, walk, filling, ?_⟩
  simp only [dngfindcave, taken, present, count, filling.ncave, same, Option.bind_eq_bind, Option.bind_some, List.length_eq_zero_iff]

end OsZero.Dungeon

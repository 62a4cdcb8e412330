import OsZero.Dungeon.Caves

set_option autoImplicit false

namespace OsZero.Dungeon

open Search

variable {w h : Nat} {map : Int → Bool} {min max : Int} {past : List Cellcoord} {dng : Celldng}

theorem extracting_start (w h : Nat) (map : Int → Bool) (min max : Int) :
    Extracting w h map min max [] { cellinitdng w h with map := map } := by
  refine ⟨rfl, rfl, rfl, fun id first present => ?_, fun cell inside id => ?_, fun cell inside => ?_, ⟨0, rfl, Nat.zero_le _, .inl rfl⟩, ?_⟩
  · exact absurd (kept_get id first present).1 List.not_mem_nil
  · refine iff_of_false (by simp [cellinitdng]) ?_
    rintro ⟨first, present, -⟩
    exact List.not_mem_nil (kept_get id first present).1
  · rw [opencell_iff, and_iff_right inside]
    exact (and_iff_left fun _ member => absurd member List.not_mem_nil).symm
  · refine iff_of_true (fun _ member => absurd member List.not_mem_nil) ⟨fun _ member => absurd member List.not_mem_nil, ?_⟩
    intro before cell after split
    exact absurd split (by simp)

theorem extracting_step (extracting : Extracting w h map min max past dng) (fuel : Nat) (enough : w * h ≤ fuel) (cell : Cellcoord)
    (future : List Cellcoord) (cells : reading w h = past ++ cell :: future) :
    ∃ next, dngbuildcell (fuel + 1) min max dng cell = some next ∧ Extracting w h map min max (past ++ [cell]) next := by
  by_cases first : First w h map cell
  · exact buildcell_first extracting fuel enough cell future cells first
  · exact ⟨dng, buildcell_skip extracting (fuel + 1) cell future cells first⟩

theorem extracting_run (fuel : Nat) (enough : w * h ≤ fuel) (future : List Cellcoord) (extracting : Extracting w h map min max past dng)
    (cells : reading w h = past ++ future) :
    ∃ done, future.foldlM (dngbuildcell (fuel + 1) min max) dng = some done ∧ Extracting w h map min max (reading w h) done := by
  induction future generalizing past dng with
  | nil =>
      rw [List.append_nil] at cells
      exact ⟨dng, rfl, cells ▸ extracting⟩
  | cons cell future ih =>
      obtain ⟨next, taken, kept_⟩ := extracting_step extracting fuel enough cell future cells
      obtain ⟨done, rest, final⟩ := ih kept_ (by rw [cells, List.append_assoc, List.singleton_append])
      exact ⟨done, by rw [List.foldlM_cons, taken]; exact rest, final⟩

theorem buildcaves_reading (fuel : Nat) (dng : Celldng) : dngbuildcaves fuel min max dng =
    (reading dng.width dng.height).foldlM (dngbuildcell fuel min max) dng := by
  simp only [dngbuildcaves, reading]
  generalize dng.width = width
  generalize List.range dng.height = rows
  induction rows generalizing dng with
  | nil => rfl
  | cons row rows ih =>
      rw [List.foldlM_cons, List.flatMap_cons, List.foldlM_append, List.foldlM_map]
      exact bind_congr fun next => ih next

theorem lone_component (cell : Cellcoord) (cells : List Cellcoord) (start : opencell w h map cell = true)
    (component : Component w h map cell cells) : 2 ≤ cells.length ∨ cells.length = 1 ∧ sides w h map cell = [] := by
  by_cases lone : sides w h map cell = []
  · exact .inr ⟨component_length cell cells [cell] component (alone_component cell start lone), lone⟩
  · obtain ⟨side, member⟩ := List.exists_mem_of_ne_nil _ lone
    have beside := (mem_sides cell side start).mp member
    have pair : [cell, side].Nodup := by
      rw [List.nodup_cons, List.mem_singleton]
      refine ⟨?_, List.nodup_singleton side⟩
      rintro rfl
      have := beside.2.2
      omega
    refine .inl (List.subperm_of_subset pair fun other inside => ?_).length_le
    rcases List.mem_cons.mp inside with rfl | inside
    · exact (component.2 other).mpr .refl
    · exact (component.2 other).mpr (List.mem_singleton.mp inside ▸ .single beside)

theorem component_of_joined (one other : Cellcoord) (cells : List Cellcoord) (component : Component w h map one cells)
    (joined : Joined w h map one other) : Component w h map other cells :=
  ⟨component.1, fun cell => (component.2 cell).trans ⟨fun leads => (joined_symm _ _ joined).trans leads, fun leads => joined.trans leads⟩⟩

-- A dungeon in its final state has the caves it should, unless one should have one cell only.
theorem extracted_iff (extracting : Extracting w h map min max (reading w h) dng) : Extracted w h map min max dng ↔
    (min < 1 ∧ 1 ≤ max → ∀ cell, opencell w h map cell = true → sides w h map cell ≠ []) := by
  have cave_of (id : Nat) (less : id < dng.ncave) : ∃ cave first, dng.cavetab id = some cave ∧ Component w h map first cave.cells ∧
      Keeps w h map min max first ∧ (kept w h map min max (reading w h))[id]? = some first := by
    rw [extracting.count] at less
    have present := List.getElem?_eq_getElem less
    obtain ⟨cave, there, component⟩ := extracting.caves id _ present
    exact ⟨cave, _, there, component, (kept_get id _ present).2, present⟩
  constructor
  · intro extracted range cell start lone
    obtain ⟨id, cave, less, there, member⟩ := extracted.all cell [cell] start (alone_component cell start lone) range.1 range.2
    obtain ⟨other, first, same, component, ⟨-, cells, listed, many, -⟩, -⟩ := cave_of id less
    obtain rfl := Option.some.inj (there.symm.trans same)
    have moved := component_of_joined first cell _ component ((component.2 cell).mp member)
    have one := component_length cell cave.cells [cell] moved (alone_component cell start lone)
    rw [component_length first cells cave.cells listed component, one, List.length_singleton] at many
    omega
  · intro ample
    refine ⟨fun id less => ?_, fun cell cells start component more less => ?_, fun cell inside id => ?_⟩
    · obtain ⟨cave, first, there, component, ⟨is_first, cells, listed, -, more, less⟩, -⟩ := cave_of id less
      rw [component_length first cells cave.cells listed component] at more less
      exact ⟨cave, first, there, is_first.1, component, more, less⟩
    · rcases lone_component cell cells start component with many | ⟨one, lone⟩
      · obtain ⟨first, is_first, joined⟩ := first_exists cell start
        have listed := component_of_joined cell first cells component (joined_symm _ _ joined)
        have inside := (mem_reading w h first).mpr ((opencell_iff first).mp is_first.1).1
        obtain ⟨id, present⟩ := getElem_kept first inside ⟨is_first, cells, listed, many, more, less⟩
        obtain ⟨cave, there, same⟩ := extracting.caves id first present
        refine ⟨id, cave, ?_, there, (same.2 cell).mpr joined⟩
        rw [extracting.count]
        exact (List.getElem?_eq_some_iff.mp present).1
      · rw [one] at more less
        exact absurd lone (ample ⟨more, less⟩ cell start)
    · rw [extracting.ids cell inside id]
      constructor
      · rintro ⟨first, present, joined⟩
        obtain ⟨cave, there, component⟩ := extracting.caves id first present
        refine ⟨?_, cave, there, (component.2 cell).mpr joined⟩
        rw [extracting.count]
        exact (List.getElem?_eq_some_iff.mp present).1
      · rintro ⟨less, cave, there, member⟩
        obtain ⟨other, first, same, component, -, present⟩ := cave_of id less
        obtain rfl := Option.some.inj (there.symm.trans same)
        exact ⟨first, present, (component.2 cell).mp member⟩

theorem dngbuildcaves_extracts_iff (w h : Nat) (map : Int → Bool) (min max : Int) (more : Nat) :
    (∃ dng, dngbuildcaves (w * h + 1 + more) min max { cellinitdng w h with map := map } = some dng ∧ Extracted w h map min max dng ∧
      Contained dng) ↔
    (min < 1 ∧ 1 ≤ max → ∀ cell, opencell w h map cell = true → sides w h map cell ≠ []) ∧ Spared w h map min max (reading w h) := by
  obtain ⟨done, taken, extracting⟩ := extracting_run (w * h + more) (Nat.le_add_right _ _) (reading w h) (extracting_start w h map min max)
    (List.nil_append _).symm
  rw [← extracted_iff extracting, ← extracting.contained, buildcaves_reading, Nat.add_right_comm]
  constructor
  · rintro ⟨dng, same, extracted, contained⟩
    obtain rfl := Option.some.inj (same.symm.trans taken)
    exact ⟨extracted, contained⟩
  · rintro ⟨extracted, contained⟩
    exact ⟨done, taken, extracted, contained⟩

-- Two rows high at its left end, a corridor of 31 cells is walked before the cell below that end.
def corridor (p : Int) : Bool := p < 31 ∨ p = 31 ∨ p = 62

theorem corridor_outgrown : ¬ ∃ dng, dngbuildcaves 94 16 500 { cellinitdng 31 3 with map := corridor } = some dng ∧
    Extracted 31 3 corridor 16 500 dng ∧ Contained dng := by
  have behind : ((dngbuildcaves 94 16 500 { cellinitdng 31 3 with map := corridor }).map fun dng => decide ((32, 32) ∈ dng.writes)) = some true := by
    decide +kernel
  rintro ⟨dng, taken, -, contained⟩
  rw [taken, Option.map_some, Option.some.injEq, decide_eq_true_eq] at behind
  exact Nat.lt_irrefl 32 (contained (32, 32) behind)

end OsZero.Dungeon

import OsZero.Dungeon.Flood
import Mathlib.Tactic.SplitIfs

set_option autoImplicit false

namespace OsZero.Dungeon

open Search

variable (w h : Nat) (map : Int → Bool)

-- Two cells of the bitmap side by side.
def Beside (one other : Cellcoord) : Prop :=
  opencell w h map one = true ∧ opencell w h map other = true ∧
    (one.xval - other.xval).natAbs + (one.yval - other.yval).natAbs = 1

def Joined : Cellcoord → Cellcoord → Prop := Relation.ReflTransGen (Beside w h map)

def Component (cell : Cellcoord) (cells : List Cellcoord) : Prop := cells.Nodup ∧ ∀ other, other ∈ cells ↔ Joined w h map cell other

-- The first cell of its component, row by row.
def First (cell : Cellcoord) : Prop := opencell w h map cell = true ∧ ∀ other, Joined w h map cell other → place w cell ≤ place w other

-- The first cells of the components that become caves, and of those that are removed again.
def Keeps (min max : Int) (cell : Cellcoord) : Prop :=
  First w h map cell ∧ ∃ cells, Component w h map cell cells ∧ 2 ≤ cells.length ∧ min < cells.length ∧ cells.length ≤ max

def Removes (min max : Int) (cell : Cellcoord) : Prop :=
  First w h map cell ∧ ∃ cells, Component w h map cell cells ∧ 2 ≤ cells.length ∧ ¬ (min < cells.length ∧ cells.length ≤ max)

open Classical in
noncomputable def kept (min max : Int) (cells : List Cellcoord) : List Cellcoord := cells.filter (Keeps w h map min max)

-- The caves of a dungeon are the components of a bitmap with more than min and at most max cells.
structure Extracted (min max : Int) (dng : Celldng) : Prop where
  caves : ∀ id, id < dng.ncave → ∃ cave cell, dng.cavetab id = some cave ∧ opencell w h map cell = true ∧
    Component w h map cell cave.cells ∧ min < cave.cells.length ∧ cave.cells.length ≤ max
  all : ∀ cell cells, opencell w h map cell = true → Component w h map cell cells → min < cells.length → cells.length ≤ max →
    ∃ id cave, id < dng.ncave ∧ dng.cavetab id = some cave ∧ cell ∈ cave.cells
  ids : ∀ cell, dngiscell cell w h = true → ∀ id,
    dng.caveidtab (place w cell) = some id ↔ id < dng.ncave ∧ ∃ cave, dng.cavetab id = some cave ∧ cell ∈ cave.cells

variable {w h map}

theorem opencell_iff (cell : Cellcoord) : opencell w h map cell = true ↔ dngiscell cell w h = true ∧ map (place w cell) = true := by
  rw [opencell, Bool.and_eq_true]

theorem beside_symm (one other : Cellcoord) (beside : Beside w h map one other) : Beside w h map other one := by
  obtain ⟨left, right, near⟩ := beside
  exact ⟨right, left, by omega⟩

theorem joined_symm (one other : Cellcoord) (joined : Joined w h map one other) : Joined w h map other one := by
  induction joined with
  | refl => exact .refl
  | tail _ beside ih => exact .head (beside_symm _ _ beside) ih

theorem joined_open (one other : Cellcoord) (start : opencell w h map one = true) (joined : Joined w h map one other) :
    opencell w h map other = true := by
  cases joined with
  | refl => exact start
  | tail _ beside => exact beside.2.1

theorem joined_within (one other : Cellcoord) (start : opencell w h map one = true) (joined : Joined w h map one other) :
    dngiscell other w h = true := ((opencell_iff other).mp (joined_open one other start joined)).1

theorem mem_sides (one other : Cellcoord) (start : opencell w h map one = true) : other ∈ sides w h map one ↔ Beside w h map one other := by
  obtain ⟨x1, y1⟩ := one
  obtain ⟨x2, y2⟩ := other
  rw [sides, List.mem_filter, Beside, and_iff_right start, and_comm]
  refine and_congr_right fun _ => ?_
  have moves : (dngdirtab.take DNG_NDIR2).map (dngmovedir ⟨x1, y1⟩) = [⟨x1, y1 - 1⟩, ⟨x1, y1 + 1⟩, ⟨x1 + 1, y1⟩, ⟨x1 - 1, y1⟩] := by
    simp [dngdirtab, DNG_NDIR2, DNG_NORTH, DNG_SOUTH, DNG_EAST, DNG_WEST, dngmovedir, dngdirofstab, ← Int.sub_eq_add_neg]
  rw [moves]
  simp only [List.mem_cons, Cellcoord.mk.injEq, List.not_mem_nil, or_false]
  omega

-- The depth first walk goes where the bitmap joins cells.
theorem led_iff (one other : Cellcoord) (start : opencell w h map one = true) :
    Relation.ReflTransGen (fun cell side => side ∈ sides w h map cell) one other ↔ Joined w h map one other := by
  constructor
  · intro led
    induction led with
    | refl => exact .refl
    | tail _ beside ih => exact .tail ih ((mem_sides _ _ (joined_open _ _ start ih)).mp beside)
  · intro joined
    induction joined with
    | refl => exact .refl
    | tail _ beside ih => exact .tail ih ((mem_sides _ _ beside.1).mpr beside)

theorem component_length (cell : Cellcoord) (cells others : List Cellcoord) (component : Component w h map cell cells)
    (same : Component w h map cell others) : cells.length = others.length := by
  apply List.Perm.length_eq
  rw [List.perm_ext_iff_of_nodup component.1 same.1]
  exact fun other => (component.2 other).trans (same.2 other).symm

theorem walk_component_of_ne (cell : Cellcoord) (list : List (Nat × Cellcoord)) (start : opencell w h map cell = true)
    (walk : Walk (sides w h map) 0 (sides w h map cell) [] list) (more : list ≠ []) :
    Component w h map cell (list.map Prod.snd) ∧ 2 ≤ list.length := by
  have some_side : sides w h map cell ≠ [] := fun alone => more (walk_alone cell walk alone)
  have back : ∀ side ∈ sides w h map cell, cell ∈ sides w h map side := by
    intro side member
    have beside := (mem_sides cell side start).mp member
    exact (mem_sides side cell beside.2.1).mpr (beside_symm _ _ beside)
  have listed (other : Cellcoord) := (walk_component cell back walk some_side other).trans (led_iff cell other start)
  refine ⟨⟨walk_nodup walk List.nodup_nil, listed⟩, ?_⟩
  obtain ⟨side, member⟩ := List.exists_mem_of_ne_nil _ some_side
  have beside := (mem_sides cell side start).mp member
  have different : cell ≠ side := by
    rintro rfl
    have := beside.2.2
    omega
  have pair : [cell, side].Nodup := by simpa using different
  have both : [cell, side] ⊆ list.map Prod.snd := by
    intro other inside
    rcases List.mem_cons.mp inside with rfl | inside
    · exact (listed other).mpr .refl
    · exact (listed other).mpr (List.mem_singleton.mp inside ▸ .single beside)
  rw [← List.length_map Prod.snd]
  exact (List.subperm_of_subset pair both).length_le

theorem alone_component (cell : Cellcoord) (start : opencell w h map cell = true) (alone : sides w h map cell = []) :
    Component w h map cell [cell] := by
  refine ⟨List.nodup_singleton cell, fun other => ?_⟩
  rw [List.mem_singleton, ← led_iff cell other start]
  constructor
  · rintro rfl
    exact .refl
  · intro led
    rcases led.cases_head with same | ⟨side, member, -⟩
    · exact same.symm
    · rw [alone] at member
      contradiction

theorem reading_sorted (w h : Nat) : (reading w h).Pairwise fun one other => place w one < place w other := by
  rw [reading, List.pairwise_flatMap]
  constructor
  · intro y _
    rw [List.pairwise_map]
    refine List.pairwise_lt_range.imp fun less => ?_
    simp only [place]
    omega
  · refine List.pairwise_lt_range.imp fun {y1 y2} less one member other within => ?_
    obtain ⟨x1, low, rfl⟩ := List.mem_map.mp member
    obtain ⟨x2, -, rfl⟩ := List.mem_map.mp within
    have column := List.mem_range.mp low
    have rows := Int.mul_le_mul_of_nonneg_right (by omega : (y1 : Int) + 1 ≤ y2) (Int.natCast_nonneg w)
    rw [Int.add_mul, Int.one_mul] at rows
    simp only [place]
    omega

theorem reading_nodup (w h : Nat) : (reading w h).Nodup := (reading_sorted w h).imp fun less same => Int.ne_of_lt less (congrArg _ same)

open Classical in
theorem component_exists (cell : Cellcoord) (start : opencell w h map cell = true) : ∃ cells, Component w h map cell cells := by
  refine ⟨(reading w h).filter (Joined w h map cell), (reading_nodup w h).filter _, fun other => ?_⟩
  rw [List.mem_filter, decide_eq_true_eq, and_iff_right_of_imp]
  exact fun joined => (mem_reading w h other).mpr (joined_within cell other start joined)

theorem place_nonneg (cell : Cellcoord) (inside : dngiscell cell w h = true) : 0 ≤ place w cell := by
  simp only [dngiscell, decide_eq_true_eq] at inside
  have := Int.mul_nonneg inside.2.2.1 (Int.natCast_nonneg w)
  rw [place]
  omega

theorem first_exists (cell : Cellcoord) (start : opencell w h map cell = true) : ∃ first, First w h map first ∧ Joined w h map first cell := by
  induction size : (place w cell).toNat using Nat.strongRecOn generalizing cell with
  | _ size ih =>
    by_cases earlier : ∃ other, Joined w h map cell other ∧ place w other < place w cell
    · obtain ⟨other, joined, less⟩ := earlier
      have opened := joined_open cell other start joined
      have low := place_nonneg other ((opencell_iff other).mp opened).1
      obtain ⟨first, is_first, leads⟩ := ih (place w other).toNat (by omega) other opened rfl
      exact ⟨first, is_first, leads.trans (joined_symm _ _ joined)⟩
    · exact ⟨cell, ⟨start, fun other joined => Int.not_lt.mp fun less => earlier ⟨other, joined, less⟩⟩, .refl⟩

theorem first_unique (one other : Cellcoord) (first : First w h map one) (second : First w h map other) (joined : Joined w h map one other) :
    one = other := by
  apply place_inj w h one other ((opencell_iff one).mp first.1).1 ((opencell_iff other).mp second.1).1
  exact Int.le_antisymm (first.2 other joined) (second.2 one (joined_symm _ _ joined))

variable (w h map)

-- What the stores of a run over some of the cells need: in the walk of each component
-- the cells that fill a table up are found near enough, and no component is removed when
-- the caves and it fill cavetab up.
def Spared (min max : Int) (cells : List Cellcoord) : Prop :=
  (∀ cell ∈ cells, First w h map cell → ∀ list, Walk (sides w h map) 0 (sides w h map cell) [] list → Roomy list) ∧
    ∀ before cell after, cells = before ++ cell :: after → Removes w h map min max cell → ∀ k, (kept w h map min max before).length + 1 ≠ 16 * 2 ^ k

-- The state of dngbuildcaves behind some of the cells.
structure Extracting (min max : Int) (past : List Cellcoord) (dng : Celldng) : Prop where
  width : dng.width = w
  height : dng.height = h
  count : dng.ncave = (kept w h map min max past).length
  caves : ∀ id first, (kept w h map min max past)[id]? = some first → ∃ cave, dng.cavetab id = some cave ∧ Component w h map first cave.cells
  ids : ∀ cell, dngiscell cell w h = true → ∀ id,
    dng.caveidtab (place w cell) = some id ↔ ∃ first, (kept w h map min max past)[id]? = some first ∧ Joined w h map first cell
  bits : ∀ cell, dngiscell cell w h = true →
    (dng.map (place w cell) = true ↔ opencell w h map cell = true ∧ ∀ first ∈ past, Removes w h map min max first → ¬ Joined w h map first cell)
  room : ∃ k, dng.ncavemax = 16 * 2 ^ k ∧ dng.ncave ≤ dng.ncavemax ∧ (k = 0 ∨ 8 * 2 ^ k ≤ dng.ncave)
  contained : Contained dng ↔ Spared w h map min max past

variable {w h map}
variable {min max : Int} {past : List Cellcoord} {dng : Celldng}

theorem spared_append (cell : Cellcoord) : Spared w h map min max (past ++ [cell]) ↔ Spared w h map min max past ∧
    (First w h map cell → ∀ list, Walk (sides w h map) 0 (sides w h map cell) [] list → Roomy list) ∧
      (Removes w h map min max cell → ∀ k, (kept w h map min max past).length + 1 ≠ 16 * 2 ^ k) := by
  constructor
  · rintro ⟨walks, counts⟩
    refine ⟨⟨fun other member => walks other (List.mem_append_left _ member), fun before other after split => ?_⟩,
      walks cell (by simp), counts past cell [] rfl⟩
    exact counts before other (after ++ [cell]) (by rw [split, List.append_assoc, List.cons_append])
  · rintro ⟨⟨walks, counts⟩, walk, count⟩
    refine ⟨fun other member => ?_, fun before other after split => ?_⟩
    · rcases List.mem_append.mp member with member | member
      · exact walks other member
      · exact List.mem_singleton.mp member ▸ walk
    · rcases List.eq_nil_or_concat after with rfl | ⟨rest, last, rfl⟩
      · obtain ⟨rfl, same⟩ := List.append_inj' split rfl
        obtain rfl := (List.cons.inj same).1
        exact count
      · rw [List.concat_eq_append, ← List.cons_append, ← List.append_assoc] at split
        exact counts before other rest (List.append_inj' split rfl).1

theorem kept_append (past : List Cellcoord) (cell : Cellcoord) (keeps : Keeps w h map min max cell) :
    kept w h map min max (past ++ [cell]) = kept w h map min max past ++ [cell] := by
  classical
  rw [kept, List.filter_append, List.filter_cons_of_pos (by simpa using keeps)]
  rfl

theorem kept_append_of_not (past : List Cellcoord) (cell : Cellcoord) (skips : ¬ Keeps w h map min max cell) :
    kept w h map min max (past ++ [cell]) = kept w h map min max past := by
  classical
  rw [kept, List.filter_append, List.filter_cons_of_neg (by simpa using skips), List.filter_nil, List.append_nil]
  rfl

theorem kept_get (id : Nat) (first : Cellcoord) (present : (kept w h map min max past)[id]? = some first) :
    first ∈ past ∧ Keeps w h map min max first := by
  classical
  obtain ⟨member, keeps⟩ := List.mem_filter.mp (List.mem_of_getElem? present)
  exact ⟨member, of_decide_eq_true keeps⟩

theorem getElem_kept (first : Cellcoord) (member : first ∈ past) (keeps : Keeps w h map min max first) :
    ∃ id : Nat, (kept w h map min max past)[id]? = some first := by
  classical
  exact List.getElem?_of_mem (List.mem_filter.mpr ⟨member, decide_eq_true keeps⟩)

theorem mem_past (cell other : Cellcoord) (future : List Cellcoord) (cells : reading w h = past ++ cell :: future)
    (inside : dngiscell other w h = true) (less : place w other < place w cell) : other ∈ past := by
  have member := (mem_reading w h other).mpr inside
  have sorted := reading_sorted w h
  rw [cells] at member sorted
  rcases List.mem_append.mp member with member | member
  · exact member
  · rcases List.mem_cons.mp member with rfl | member
    · exact absurd less (Int.lt_irrefl _)
    · have order := List.rel_of_pairwise_cons (List.pairwise_append.mp sorted).2.1 member
      exact absurd order (Int.lt_asymm less)

theorem first_alone (cell first other : Cellcoord) (future : List Cellcoord) (cells : reading w h = past ++ cell :: future)
    (start : First w h map cell) (member : first ∈ past) (is_first : First w h map first) (joined : Joined w h map cell other) :
    ¬ Joined w h map first other := by
  intro leads
  obtain rfl := first_unique first cell is_first start (leads.trans (joined_symm _ _ joined))
  have nodup := reading_nodup w h
  rw [cells] at nodup
  exact List.disjoint_of_nodup_append nodup member List.mem_cons_self

-- What is not the first cell of a component has been taken with an earlier cell, or is not open.
theorem buildcell_skip (extracting : Extracting w h map min max past dng) (fuel : Nat) (cell : Cellcoord) (future : List Cellcoord)
    (cells : reading w h = past ++ cell :: future) (later : ¬ First w h map cell) :
    dngbuildcell fuel min max dng cell = some dng ∧ Extracting w h map min max (past ++ [cell]) dng := by
  have inside : dngiscell cell w h = true := (mem_reading w h cell).mp (cells ▸ by simp)
  constructor
  · rw [dngbuildcell]
    refine if_neg ?_
    rintro ⟨bit, blank⟩
    rw [dnggetcellbit, extracting.width] at bit
    rw [dnggetcaveid, extracting.width] at blank
    obtain ⟨opened, spared⟩ := (extracting.bits cell inside).mp bit
    obtain ⟨first, is_first, joined⟩ := first_exists cell opened
    have different : first ≠ cell := fun same => later (same ▸ is_first)
    have less : place w first < place w cell := by
      refine Int.lt_iff_le_and_ne.mpr ⟨is_first.2 cell joined, fun same => ?_⟩
      exact different (place_inj w h first cell ((opencell_iff first).mp is_first.1).1 inside same)
    have earlier := mem_past cell first future cells ((opencell_iff first).mp is_first.1).1 less
    obtain ⟨component, listed⟩ := component_exists first is_first.1
    have many : 2 ≤ component.length := by
      have pair : [first, cell].Nodup := by simpa using different
      refine (List.subperm_of_subset pair fun other member => ?_).length_le
      rcases List.mem_cons.mp member with rfl | member
      · exact (listed.2 other).mpr .refl
      · exact (listed.2 other).mpr (List.mem_singleton.mp member ▸ joined)
    by_cases range : min < component.length ∧ component.length ≤ max
    · obtain ⟨id, present⟩ := getElem_kept first earlier ⟨is_first, component, listed, many, range⟩
      have taken := (extracting.ids cell inside id).mpr ⟨first, present, joined⟩
      rw [blank] at taken
      contradiction
    · exact spared first earlier ⟨is_first, component, listed, many, range⟩ joined
  · have keeps : ¬ Keeps w h map min max cell := fun keeps => later keeps.1
    have removes : ¬ Removes w h map min max cell := fun removes => later removes.1
    have same := kept_append_of_not past cell keeps
    refine ⟨extracting.width, extracting.height, same ▸ extracting.count, same ▸ extracting.caves, same ▸ extracting.ids, ?_, extracting.room, ?_⟩
    · intro other within
      rw [extracting.bits other within, List.forall_mem_append, List.forall_mem_singleton]
      simp only [removes, false_implies, and_true]
    · rw [extracting.contained, spared_append]
      simp only [later, removes, false_implies, and_true]

theorem newcave_eq (dng : Celldng) : newcave dng =
    putcave { dng with ncavemax := if dng.ncave = dng.ncavemax then dng.ncavemax <<< 1 else dng.ncavemax } dng.ncave
      (some ⟨0, 16, fun _ => ⟨0, 0⟩⟩) := by
  by_cases full : dng.ncave = dng.ncavemax
  · simp only [newcave, if_pos full]
  · simp only [newcave, if_neg full]

-- A new cave always has an entry of cavetab.
theorem newcave_room (extracting : Extracting w h map min max past dng) :
    ∃ k, (newcave dng).ncavemax = 16 * 2 ^ k ∧ dng.ncave < (newcave dng).ncavemax ∧ (k = 0 ∨ 8 * 2 ^ k ≤ dng.ncave) := by
  obtain ⟨k, power, below, least⟩ := extracting.room
  have positive : 0 < 2 ^ k := Nat.two_pow_pos k
  have double := Nat.pow_succ (m := k) (n := 2)
  rw [newcave_eq]
  by_cases full : dng.ncave = dng.ncavemax
  · simp only [putcave, if_pos full, Nat.shiftLeft_eq]
    exact ⟨k + 1, by omega, by omega, by omega⟩
  · simp only [putcave, if_neg full]
    exact ⟨k, power, by omega, least⟩

theorem newcave_contained (extracting : Extracting w h map min max past dng) : Contained (newcave dng) ↔ Contained dng := by
  obtain ⟨k, -, below, -⟩ := newcave_room extracting
  rw [newcave_eq] at below ⊢
  rw [contained_append _ dng.writes _ rfl]
  exact and_iff_left below

theorem newcave_region (extracting : Extracting w h map min max past dng) (cell : Cellcoord) (future : List Cellcoord)
    (cells : reading w h = past ++ cell :: future) (first : First w h map cell) :
    Region w h map (newcave dng) (Joined w h map cell) := by
  rw [newcave_eq]
  refine ⟨extracting.width, extracting.height, fun other => joined_within cell other first.1, ?_, ?_, ?_⟩
  · intro other joined side member
    exact joined.tail ((mem_sides other side (joined_open cell other first.1 joined)).mp member)
  · intro other joined dir member within
    have opened := joined_open cell other first.1 joined
    rw [Bool.eq_iff_iff]
    refine ((extracting.bits _ within).trans (and_iff_left_of_imp fun bit start present removes => ?_)).trans
      ((opencell_iff _).trans (and_iff_right within))
    have beside : dngmovedir other dir ∈ sides w h map other := List.mem_filter.mpr ⟨List.mem_map_of_mem member, bit⟩
    exact first_alone cell start _ future cells first present removes.1 (joined.tail ((mem_sides _ _ opened).mp beside))
  · intro other joined
    rw [Option.eq_none_iff_forall_ne_some]
    intro id taken
    obtain ⟨start, present, leads⟩ := (extracting.ids other (joined_within cell other first.1 joined) id).mp taken
    obtain ⟨member, keeps⟩ := kept_get id start present
    exact first_alone cell start other future cells first member keeps.1 joined leads

-- A cell without sides has a cave that is freed again.
theorem extracting_alone (extracting : Extracting w h map min max past dng) (last : Celldng) (cell : Cellcoord)
    (filling : Filling (newcave dng) dng.ncave [] last) (keeps : ¬ Keeps w h map min max cell) (removes : ¬ Removes w h map min max cell)
    (walk : Walk (sides w h map) 0 (sides w h map cell) [] []) : Extracting w h map min max (past ++ [cell]) last := by
  have room := newcave_room extracting
  have contained := newcave_contained extracting
  have same := kept_append_of_not past cell keeps
  rw [newcave_eq] at filling room contained
  refine ⟨filling.width.trans extracting.width, filling.height.trans extracting.height, ?_, ?_, ?_, ?_, ?_, ?_⟩
  · rw [same]
    exact filling.ncave.trans extracting.count
  · rw [same]
    intro id first present
    obtain ⟨cave, there, component⟩ := extracting.caves id first present
    have different : id ≠ dng.ncave := by
      rw [extracting.count]
      exact Nat.ne_of_lt (List.getElem?_eq_some_iff.mp present).1
    exact ⟨cave, ((filling.others id different).trans (Function.update_of_ne different _ _)).trans there, component⟩
  · intro other within id
    rw [same, ← extracting.ids other within id, filling.ids]
    rfl
  · intro other within
    rw [filling.map, List.forall_mem_append, List.forall_mem_singleton]
    refine (extracting.bits other within).trans ?_
    simp only [removes, false_implies, and_true]
  · obtain ⟨k, power, below, least⟩ := room
    rw [filling.ncavemax, filling.ncave]
    exact ⟨k, power, Nat.le_of_lt below, least⟩
  · rw [filling.contained, contained, extracting.contained, spared_append, and_iff_left roomy_nil, and_iff_left]
    exact ⟨fun _ list again => walk_unique walk again ▸ roomy_nil, fun removed => absurd removed removes⟩

-- The cave of a component, as dngfindcave leaves it.
structure Found (dng : Celldng) (list : List (Nat × Cellcoord)) (last : Celldng) (cave : Cellcave) : Prop where
  filling : Filling (newcave dng) dng.ncave list last
  present : last.cavetab dng.ncave = some cave
  count : cave.ncell = list.length
  cells : cave.cells = list.map Prod.snd

theorem listed_place (list : List (Nat × Cellcoord)) (within : ∀ cell ∈ list.map Prod.snd, dngiscell cell w h = true) (cell : Cellcoord)
    (inside : dngiscell cell w h = true) : place w cell ∈ (list.map Prod.snd).map (place w) ↔ cell ∈ list.map Prod.snd := by
  constructor
  · intro member
    obtain ⟨other, present, same⟩ := List.mem_map.mp member
    exact place_inj w h other cell (within other present) inside same ▸ present
  · exact fun member => List.mem_map_of_mem member

theorem extracting_keep (extracting : Extracting w h map min max past dng) (last : Celldng) (cell : Cellcoord) (list : List (Nat × Cellcoord))
    (cave : Cellcave) (found : Found dng list last cave) (keeps : Keeps w h map min max cell) (removes : ¬ Removes w h map min max cell)
    (component : Component w h map cell (list.map Prod.snd)) (walk : Walk (sides w h map) 0 (sides w h map cell) [] list)
    (alone : ∀ first ∈ past, First w h map first → ∀ other, Joined w h map cell other → ¬ Joined w h map first other) :
    Extracting w h map min max (past ++ [cell]) { last with ncave := dng.ncave + 1 } := by
  have room := newcave_room extracting
  have contained := newcave_contained extracting
  have filling := found.filling
  have same := kept_append past cell keeps
  have within (other : Cellcoord) (member : other ∈ list.map Prod.snd) : dngiscell other w h = true :=
    joined_within cell other keeps.1.1 ((component.2 other).mp member)
  rw [newcave_eq] at filling room contained
  refine ⟨filling.width.trans extracting.width, filling.height.trans extracting.height, ?_, ?_, ?_, ?_, ?_, ?_⟩
  · rw [same, List.length_append, List.length_singleton]
    exact congrArg (· + 1) extracting.count
  · rw [same]
    intro id first present
    by_cases own : id = dng.ncave
    · rw [own, extracting.count, List.getElem?_concat_length] at present
      obtain rfl := Option.some.inj present
      rw [own]
      exact ⟨cave, found.present, found.cells ▸ component⟩
    · have before : id < (kept w h map min max past).length := by
        have := (List.getElem?_eq_some_iff.mp present).1
        rw [List.length_append, List.length_singleton] at this
        rw [extracting.count] at own
        omega
      rw [List.getElem?_append_left before] at present
      obtain ⟨other, there, listed⟩ := extracting.caves id first present
      exact ⟨other, ((filling.others id own).trans (Function.update_of_ne own _ _)).trans there, listed⟩
  · intro other inside id
    have places := listed_place list within other inside
    rw [same]
    change last.caveidtab _ = some id ↔ _
    rw [filling.ids]
    change (if place w other ∈ (list.map Prod.snd).map (place dng.width) then some dng.ncave else dng.caveidtab (place w other)) = some id ↔ _
    rw [extracting.width]
    by_cases joined : Joined w h map cell other
    · rw [if_pos (places.mpr ((component.2 other).mpr joined)), Option.some.injEq, extracting.count]
      constructor
      · rintro rfl
        exact ⟨cell, List.getElem?_concat_length, joined⟩
      · rintro ⟨first, present, leads⟩
        rcases Nat.lt_trichotomy id (kept w h map min max past).length with before | own | behind
        · rw [List.getElem?_append_left before] at present
          obtain ⟨member, kept_⟩ := kept_get id first present
          exact absurd leads (alone first member kept_.1 other joined)
        · exact own.symm
        · have := (List.getElem?_eq_some_iff.mp present).1
          rw [List.length_append, List.length_singleton] at this
          omega
    · rw [if_neg fun member => joined ((component.2 other).mp (places.mp member)), extracting.ids other inside id]
      refine exists_congr fun first => and_congr_left fun leads => ?_
      have different : cell ≠ first := fun same => joined (same ▸ leads)
      rw [List.getElem?_append]
      split_ifs with before
      · rfl
      · rw [List.getElem?_eq_none (Nat.le_of_not_lt before)]
        refine iff_of_false (by simp) fun last => different ?_
        exact List.mem_singleton.mp (List.mem_of_getElem? last) |>.symm
  · intro other inside
    change last.map _ = true ↔ _
    rw [filling.map, List.forall_mem_append, List.forall_mem_singleton]
    refine (extracting.bits other inside).trans ?_
    simp only [removes, false_implies, and_true]
  · obtain ⟨k, power, below, least⟩ := room
    change ∃ k, last.ncavemax = 16 * 2 ^ k ∧ dng.ncave + 1 ≤ last.ncavemax ∧ _
    rw [filling.ncavemax]
    exact ⟨k, power, below, least.imp_right fun least => Nat.le_succ_of_le least⟩
  · change Contained last ↔ _
    rw [filling.contained, contained, extracting.contained, spared_append]
    refine and_congr_right fun _ => ?_
    refine ⟨fun roomy => ⟨fun _ other again => walk_unique walk again ▸ roomy, fun removed => absurd removed removes⟩, fun spared => spared.1 keeps.1 list walk⟩

theorem clear_cells (cells : List Cellcoord) (dng : Celldng) : cells.foldl clearcell dng = { dng with
    map := fun p => if p ∈ cells.map (place dng.width) then false else dng.map p
    caveidtab := fun p => if p ∈ cells.map (place dng.width) then none else dng.caveidtab p } := by
  induction cells generalizing dng with
  | nil => rfl
  | cons cell cells ih =>
      rw [List.foldl_cons, ih]
      simp only [clearcell, dngsetcaveid, dngclrcellbit, List.map_cons, List.mem_cons, Celldng.mk.injEq, true_and, and_true]
      constructor
      all_goals
        funext p
        by_cases own : p = place dng.width cell
        · simp [own]
        · simp [own]

-- Only the last cave is ever removed: nothing moves down, and NULL goes behind it.
theorem rmcave_last (last : Celldng) (id : Nat) (cave : Cellcave) (present : last.cavetab id = some cave) (count : last.ncave = id + 1) :
    dngrmcave last id true = some { putcave (cave.cells.foldl clearcell last) (id + 1) none with ncave := id } := by
  have none_moved : id + 1 - 1 - (id + 1) = 0 := by omega
  rw [dngrmcave, present, Option.bind_eq_bind, Option.bind_some]
  change some _ = some _
  rw [if_pos rfl, ← Cellcave.cells, clear_cells, count, none_moved, List.range'_zero, List.foldl_nil]
  simp only [putcave, Nat.add_sub_cancel, Nat.max_eq_left (Nat.le_succ id)]

theorem behind_room (n m : Nat) (power : ∃ k, m = 16 * 2 ^ k ∧ n < m ∧ (k = 0 ∨ 8 * 2 ^ k ≤ n)) : n + 1 < m ↔ ∀ k, n + 1 ≠ 16 * 2 ^ k := by
  obtain ⟨k, rfl, below, least⟩ := power
  constructor
  · intro more other full
    have fewer : other < k := (Nat.pow_lt_pow_iff_right (by decide)).mp (by omega : 2 ^ other < 2 ^ k)
    have double := Nat.pow_le_pow_right (by decide : 0 < 2) (Nat.succ_le_of_lt fewer)
    rw [Nat.pow_succ] at double
    omega
  · intro never
    have := never k
    omega

theorem extracting_remove (extracting : Extracting w h map min max past dng) (last : Celldng) (cell : Cellcoord) (list : List (Nat × Cellcoord))
    (cave : Cellcave) (found : Found dng list last cave) (keeps : ¬ Keeps w h map min max cell) (removes : Removes w h map min max cell)
    (component : Component w h map cell (list.map Prod.snd)) (walk : Walk (sides w h map) 0 (sides w h map cell) [] list)
    (alone : ∀ first ∈ past, First w h map first → ∀ other, Joined w h map cell other → ¬ Joined w h map first other) :
    ∃ final, dngrmcave { last with ncave := dng.ncave + 1 } dng.ncave true = some final ∧
      Extracting w h map min max (past ++ [cell]) final := by
  have room := newcave_room extracting
  have contained := newcave_contained extracting
  have filling := found.filling
  have same := kept_append_of_not past cell keeps
  have within (other : Cellcoord) (member : other ∈ list.map Prod.snd) : dngiscell other w h = true :=
    joined_within cell other removes.1.1 ((component.2 other).mp member)
  rw [newcave_eq] at filling room contained
  refine ⟨_, rmcave_last _ dng.ncave cave found.present rfl, ?_⟩
  rw [clear_cells, found.cells]
  have joined_iff (other : Cellcoord) (inside : dngiscell other w h = true) :
      place w other ∈ (list.map Prod.snd).map (place last.width) ↔ Joined w h map cell other := by
    rw [filling.width, ← component.2 other]
    exact extracting.width ▸ listed_place list within other inside
  refine ⟨filling.width.trans extracting.width, filling.height.trans extracting.height, ?_, ?_, ?_, ?_, ?_, ?_⟩
  · rw [same]
    exact extracting.count
  · rw [same]
    intro id first present
    obtain ⟨other, there, listed⟩ := extracting.caves id first present
    have before : id < dng.ncave := by
      rw [extracting.count]
      exact (List.getElem?_eq_some_iff.mp present).1
    have kept_ := (filling.others id (Nat.ne_of_lt before)).trans (Function.update_of_ne (Nat.ne_of_lt before) _ _)
    exact ⟨other, ((Function.update_of_ne (Nat.ne_of_lt (Nat.lt_succ_of_lt before)) _ _).trans kept_).trans there, listed⟩
  · intro other inside id
    rw [same, ← extracting.ids other inside id]
    change (if place w other ∈ (list.map Prod.snd).map (place last.width) then none else last.caveidtab (place w other)) = some id ↔ _
    by_cases joined : Joined w h map cell other
    · rw [if_pos ((joined_iff other inside).mpr joined), extracting.ids other inside id]
      refine iff_of_false (by simp) ?_
      rintro ⟨first, present, leads⟩
      obtain ⟨member, kept_⟩ := kept_get id first present
      exact alone first member kept_.1 other joined leads
    · have outside := fun member => joined ((joined_iff other inside).mp member)
      rw [if_neg outside, filling.ids, if_neg (by rw [filling.width] at outside; exact outside)]
      rfl
  · intro other inside
    rw [List.forall_mem_append, List.forall_mem_singleton, ← and_assoc, ← extracting.bits other inside]
    change (if place w other ∈ (list.map Prod.snd).map (place last.width) then false else last.map (place w other)) = true ↔ _
    by_cases joined : Joined w h map cell other
    · rw [if_pos ((joined_iff other inside).mpr joined)]
      exact iff_of_false Bool.false_ne_true fun both => both.2 removes joined
    · rw [if_neg fun member => joined ((joined_iff other inside).mp member), filling.map]
      exact (and_iff_left fun _ => joined).symm
  · obtain ⟨k, power, below, least⟩ := room
    change ∃ k, last.ncavemax = 16 * 2 ^ k ∧ dng.ncave ≤ last.ncavemax ∧ _
    rw [filling.ncavemax]
    exact ⟨k, power, Nat.le_of_lt below, least⟩
  · have spared := behind_room _ _ room
    rw [spared_append, contained_append _ last.writes _ rfl]
    change Contained last ∧ dng.ncave + 1 < last.ncavemax ↔ _
    rw [filling.contained, contained, extracting.contained, filling.ncavemax, spared, extracting.count, and_assoc]
    refine and_congr_right fun _ => and_congr ?_ ?_
    · exact ⟨fun roomy _ other again => walk_unique walk again ▸ roomy, fun all => all removes.1 list walk⟩
    · exact ⟨fun never _ => never, fun never => never removes⟩

theorem buildcell_none (fuel : Nat) (dng last : Celldng) (cell : Cellcoord) (bit : dnggetcellbit dng cell = true)
    (blank : dnggetcaveid dng cell = none) (taken : dngfindcave fuel dng none cell = some (none, last)) :
    dngbuildcell fuel min max dng cell = some last := by
  rw [dngbuildcell, if_pos ⟨bit, blank⟩, taken]
  rfl

theorem buildcell_some (fuel : Nat) (dng last : Celldng) (cell : Cellcoord) (id : Nat) (cave : Cellcave) (bit : dnggetcellbit dng cell = true)
    (blank : dnggetcaveid dng cell = none) (taken : dngfindcave fuel dng none cell = some (some id, last)) (present : last.cavetab id = some cave) :
    dngbuildcell fuel min max dng cell = if cave.ncell ≤ min ∨ max < cave.ncell then dngrmcave last id true else some last := by
  rw [dngbuildcell, if_pos ⟨bit, blank⟩, taken, Option.bind_eq_bind, Option.bind_some]
  dsimp only
  rw [present]
  rfl

-- The first cell of a component is where the component is found.
theorem buildcell_first (extracting : Extracting w h map min max past dng) (fuel : Nat) (enough : w * h ≤ fuel) (cell : Cellcoord)
    (future : List Cellcoord) (cells : reading w h = past ++ cell :: future) (first : First w h map cell) :
    ∃ final, dngbuildcell (fuel + 1) min max dng cell = some final ∧ Extracting w h map min max (past ++ [cell]) final := by
  have region := newcave_region extracting cell future cells first
  have inside := ((opencell_iff cell).mp first.1).1
  have alone (start : Cellcoord) (member : start ∈ past) (is_first : First w h map start) (other : Cellcoord) :=
    first_alone cell start other future cells first member is_first
  obtain ⟨list, last, walk, filling, found⟩ := findcave_walk region fuel cell .refl enough
  have bit : dnggetcellbit dng cell = true := by
    rw [dnggetcellbit, extracting.width, extracting.bits cell inside]
    exact ⟨first.1, fun start member removes => alone start member removes.1 cell .refl⟩
  have blank : dnggetcaveid dng cell = none := by
    have blank := region.blank cell .refl
    rw [newcave_eq] at blank
    rw [dnggetcaveid, extracting.width]
    exact blank
  by_cases empty : list = []
  · subst empty
    refine ⟨last, buildcell_none _ _ _ _ bit blank (found.trans (if_pos rfl)), ?_⟩
    have lone : sides w h map cell = [] := List.eq_nil_iff_forall_not_mem.mpr fun side member =>
      absurd ((walk_closes walk).1 side member) List.not_mem_nil
    have short (component : List Cellcoord) (listed : Component w h map cell component) : ¬ 2 ≤ component.length := by
      rw [component_length cell component [cell] listed (alone_component cell first.1 lone), List.length_singleton]
      omega
    have keeps : ¬ Keeps w h map min max cell := by
      rintro ⟨-, component, listed, many, -⟩
      exact short component listed many
    have removes : ¬ Removes w h map min max cell := by
      rintro ⟨-, component, listed, many, -⟩
      exact short component listed many
    exact extracting_alone extracting last cell filling keeps removes walk
  · obtain ⟨component, many⟩ := walk_component_of_ne cell list first.1 walk empty
    obtain ⟨cave, present, count, listed, -⟩ := filling.cave
    have is_found : Found dng list last cave := ⟨filling, present, count, listed⟩
    have size : ((list.map Prod.snd).length : Int) = cave.ncell := by rw [List.length_map, count]
    rw [buildcell_some _ _ _ _ _ cave bit blank (found.trans (if_neg empty)) present]
    by_cases range : cave.ncell ≤ min ∨ max < cave.ncell
    · rw [if_pos range]
      have keeps : ¬ Keeps w h map min max cell := by
        rintro ⟨-, others, same, -, more, less⟩
        rw [component_length cell others _ same component, size] at more less
        omega
      exact extracting_remove extracting last cell list cave is_found keeps
        ⟨first, _, component, by rwa [List.length_map], by rw [size]; omega⟩ component walk alone
    · rw [if_neg range]
      have removes : ¬ Removes w h map min max cell := by
        rintro ⟨-, others, same, -, outside⟩
        rw [component_length cell others _ same component, size] at outside
        omega
      exact ⟨_, rfl, extracting_keep extracting last cell list cave is_found
        ⟨first, _, component, by rwa [List.length_map], by rw [size]; omega⟩ removes component walk alone⟩

end OsZero.Dungeon

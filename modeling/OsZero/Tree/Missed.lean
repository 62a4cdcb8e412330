import OsZero.Tree.Before

set_option autoImplicit false

namespace OsZero.Trie

section Loads

variable (trie : Mlt)

theorem load_cases (tptr : Ptr) (ndx : Nat) (found : Ptr) (loads : load trie tptr ndx = some found) (some_ptr : found ≠ .null) :
    found = .garbage ∨ ∃ tab, tptr = .table tab ∧ tab.length < 7 ∧ found = .table (tab ++ [ndx]) ∧ trie.slots (tab ++ [ndx]) = .table := by
  cases tptr with
  | null => cases loads
  | garbage => cases loads
  | table tab =>
    simp only [load] at loads
    split_ifs at loads with byte short zero
    · cases slot : trie.slots (tab ++ [ndx]) with
      | null =>
        rw [slot] at loads
        exact absurd (Option.some.inj loads).symm some_ptr
      | table =>
        rw [slot] at loads
        exact .inr ⟨tab, rfl, short, (Option.some.inj loads).symm, slot⟩
      | freed =>
        rw [slot] at loads
        exact .inl (Option.some.inj loads).symm
    · exact absurd (Option.some.inj loads).symm some_ptr
    · exact .inl (Option.some.inj loads).symm

theorem scan_cases (tptr : Ptr) (ndx : Nat) (found : Ptr) (scans : scan trie tptr ndx = some found) (some_ptr : found ≠ .null) :
    found = .garbage ∨ ∃ tab i, i ≤ ndx ∧ tptr = .table tab ∧ tab.length < 7 ∧ found = .table (tab ++ [i]) ∧ trie.slots (tab ++ [i]) = .table := by
  induction ndx with
  | zero =>
    rcases load_cases trie tptr 0 found scans some_ptr with garbage | ⟨tab, here, short, named, slot⟩
    · exact .inl garbage
    · exact .inr ⟨tab, 0, Nat.le_refl 0, here, short, named, slot⟩
  | succ ndx ih =>
    rw [scan, Option.bind_eq_bind, Option.bind_eq_some_iff] at scans
    obtain ⟨ptr, loads, scans⟩ := scans
    split_ifs at scans with null
    · rcases ih scans with garbage | ⟨tab, i, low, rest⟩
      · exact .inl garbage
      · exact .inr ⟨tab, i, by omega, rest⟩
    · obtain rfl := Option.some.inj scans
      rcases load_cases trie tptr (ndx + 1) ptr loads some_ptr with garbage | ⟨tab, here, short, named, slot⟩
      · exact .inl garbage
      · exact .inr ⟨tab, ndx + 1, Nat.le_refl _, here, short, named, slot⟩

theorem value_cases (ptr : Ptr) (ndx : Nat) (retval : Mltval) (reads : value trie ptr ndx = some retval) :
    ∃ tab, ptr = .table tab ∧ tab.length = 7 ∧ trie.vals (tab ++ [ndx]) = retval := by
  cases ptr with
  | null => cases reads
  | garbage => cases reads
  | table tab =>
    simp only [value] at reads
    split_ifs at reads with inside
    exact ⟨tab, rfl, inside.2, Option.some.inj reads⟩

theorem scanvals_cases (ptr : Ptr) (ndx : Nat) (retval : Mltval) (scans : scanvals trie ptr ndx = some retval) :
    ∃ tab i, i ≤ ndx ∧ ptr = .table tab ∧ tab.length = 7 ∧ trie.vals (tab ++ [i]) = retval := by
  induction ndx with
  | zero =>
    obtain ⟨tab, here, full, cell⟩ := value_cases trie ptr 0 retval scans
    exact ⟨tab, 0, Nat.le_refl 0, here, full, cell⟩
  | succ ndx ih =>
    rw [scanvals, Option.bind_eq_bind, Option.bind_eq_some_iff] at scans
    obtain ⟨read, reads, scans⟩ := scans
    split_ifs at scans with sentinel
    · obtain ⟨tab, i, low, rest⟩ := ih scans
      exact ⟨tab, i, by omega, rest⟩
    · obtain rfl := Option.some.inj scans
      obtain ⟨tab, here, full, cell⟩ := value_cases trie ptr (ndx + 1) read reads
      exact ⟨tab, ndx + 1, Nat.le_refl _, here, full, cell⟩

end Loads

theorem concat_get (tab : List Nat) (i j other : Nat) (get : (tab ++ [i])[j]? = some other) :
    (j < tab.length ∧ tab[j]? = some other) ∨ (j = tab.length ∧ i = other) := by
  rcases Nat.lt_or_ge j tab.length with before | at_end
  · rw [List.getElem?_append_left before] at get
    exact .inl ⟨before, get⟩
  · rw [List.getElem?_append_right at_end] at get
    obtain ⟨place, same⟩ := List.getElem?_eq_some_iff.mp get
    rw [List.length_singleton] at place
    exact .inr ⟨by omega, (List.getElem_singleton place).symm.trans same⟩

section Bounds

variable (trie : Mlt) (vals : List Mltval) (stored : Stored trie vals) (val : Mltval)

-- The indices never rise, and the table of a level lies at it or deeper; where it lies
-- at it, its indices came from this descent.
structure Within (tptr ptr : Ptr) (lvl : Nat) (ndxstk : Nat → Int) : Prop where
  low : ∀ i, ndxstk i ≤ digits val i
  early : lvl ≤ 7
  last : lvl = 7 → ptr = tptr
  deep : ∀ tab, tptr = .table tab → lvl ≤ tab.length
  way : ∀ tab, tptr = .table tab → tab.length = lvl → ∀ i ndx, tab[i]? = some ndx → ndx ≤ digit val i
  leads : ∀ tab, tptr = .table tab → tab = [] ∨ Leads vals tab

theorem lower_le (ndxstk : Nat → Int) (lvl : Nat) (low : ∀ i, ndxstk i ≤ digits val i) (i : Nat) : lower ndxstk lvl i ≤ digits val i := by
  have here := low i
  by_cases same : i = lvl
  · subst same
    rw [lower_self]
    omega
  · rwa [lower_other _ _ _ same]

theorem start_within : Within vals val (.table []) .null 0 (digits val) := by
  refine ⟨fun _ => Int.le_refl _, Nat.zero_le 7, nofun, fun _ _ => Nat.zero_le _, fun tab here _ i ndx get => ?_, fun tab here => ?_⟩
  · obtain rfl := Ptr.table.inj here
    cases get
  · exact .inl (Ptr.table.inj here).symm

-- The root is scanned again wherever the level is zero.
theorem within_scanned (tptr ptr : Ptr) (lvl : Nat) (ndxstk : Nat → Int) (within : Within vals val tptr ptr lvl ndxstk) (early : lvl < 7) :
    Within vals val (scanned tptr lvl) ptr lvl ndxstk := by
  by_cases root : lvl = 0
  · subst root
    obtain ⟨-, -, -, deep, way, leads⟩ := start_within vals val
    exact ⟨within.low, Nat.zero_le 7, nofun, deep, way, leads⟩
  · rw [scanned, if_neg root]
    exact within

theorem within_back (tptr ptr next : Ptr) (lvl less : Nat) (ndxstk after : Nat → Int) (within : Within vals val tptr ptr lvl ndxstk) (back : less < lvl)
    (low : ∀ i, after i ≤ digits val i) : Within vals val tptr next less after := by
  have early := within.early
  exact ⟨low, by omega, fun seventh => by omega, fun tab here => Nat.le_trans (Nat.le_of_lt back) (within.deep tab here),
    fun tab here level => absurd (within.deep tab here) (by omega), within.leads⟩

include stored

theorem within_down (tptr ptr found : Ptr) (lvl : Nat) (ndxstk : Nat → Int) (within : Within vals val tptr ptr lvl ndxstk) (early : lvl < 7)
    (ndx : 0 ≤ ndxstk lvl) (scans : scan trie tptr (ndxstk lvl).toNat = some found) (some_ptr : found ≠ .null) :
    Within vals val found found (lvl + 1) ndxstk := by
  rcases scan_cases trie tptr _ found scans some_ptr with rfl | ⟨tab, i, below, here, short, rfl, slot⟩
  · exact ⟨within.low, early, fun _ => rfl, nofun, nofun, nofun⟩
  · refine ⟨within.low, early, fun _ => rfl, fun next same => ?_, fun next same level j other get => ?_, fun next same => ?_⟩
    all_goals obtain rfl := Ptr.table.inj same
    · have deep := within.deep tab here
      rw [List.length_append, List.length_singleton]
      omega
    · rw [List.length_append, List.length_singleton] at level
      rcases concat_get tab i j other get with ⟨-, before⟩ | ⟨rfl, rfl⟩
      · exact within.way tab here (by omega) j other before
      · have bound := within.low lvl
        obtain rfl : tab.length = lvl := by omega
        rw [digits] at bound
        omega
    · refine .inr (by_contra fun off => ?_)
      have null := stored.null (tab ++ [i]) (by simp) (by simp; omega) off
      exact absurd (slot.symm.trans null) (by decide)

theorem within_value (tptr : Ptr) (ndxstk : Nat → Int) (retval : Mltval) (within : Within vals val tptr tptr 7 ndxstk) (ndx : 0 ≤ ndxstk 7)
    (scans : scanvals trie tptr (ndxstk 7).toNat = some retval) (valid : retval ≠ mltinval) : retval ∈ vals ∧ Digitwise retval val := by
  obtain ⟨tab, i, below, here, full, cell⟩ := scanvals_cases trie tptr _ retval scans
  have there : Leads vals tab := (within.leads tab here).resolve_left fun empty => by
    rw [empty] at full
    cases full
  have member : retval ∈ vals ∧ path retval 8 = tab ++ [i] := by
    by_cases some_val : ∃ other ∈ vals, path other 8 = tab ++ [i]
    · obtain ⟨other, member, way⟩ := some_val
      have found := stored.found other member
      rw [way, cell] at found
      rw [found]
      exact ⟨member, way⟩
    · have bare := stored.bare (tab ++ [i]) (by simp [full]) (by rwa [List.dropLast_concat]) fun other member way => some_val ⟨other, member, way⟩
      exact absurd (cell.symm.trans bare) valid
  refine ⟨member.1, fun j early => ?_⟩
  have get : (path retval 8)[j]? = some (digit retval j) := by
    rw [path, List.getElem?_map, List.getElem?_range (by omega)]
    rfl
  rw [member.2] at get
  rcases concat_get tab i j _ get with ⟨-, before⟩ | ⟨rfl, same⟩
  · exact within.way tab here full j _ before
  · have bound := within.low 7
    rw [digits] at bound
    rw [← same, full]
    omega

theorem loop_digitwise (fuel : Nat) (tptr ptr : Ptr) (lvl : Nat) (ndxstk : Nat → Int) (within : Within vals val tptr ptr lvl ndxstk) (retval : Mltval)
    (ran : findprevLoop trie fuel tptr ptr lvl ndxstk = some retval) (valid : retval ≠ mltinval) : retval ∈ vals ∧ Digitwise retval val := by
  induction fuel generalizing tptr ptr lvl ndxstk with
  | zero => cases ran
  | succ fuel ih =>
    have early := within.early
    have lowered := fun less => lower_le val ndxstk less within.low
    rw [findprevLoop.eq_def] at ran
    dsimp only at ran
    by_cases ndx : 0 ≤ ndxstk lvl
    · rw [if_pos ndx] at ran
      by_cases seventh : lvl = mltnptrlvl
      · obtain rfl : lvl = 7 := seventh
        rw [if_pos (show 7 = mltnptrlvl from rfl)] at ran
        split_ifs at ran with some_ptr
        · obtain rfl := within.last rfl
          rw [Option.bind_eq_bind, Option.bind_eq_some_iff] at ran
          obtain ⟨read, scans, ran⟩ := ran
          split_ifs at ran with sentinel
          · exact ih ptr ptr 6 _ (within_back vals val ptr ptr ptr 7 6 ndxstk _ within (by decide) (lowered 6)) ran
          · obtain rfl := Option.some.inj ran
            exact within_value trie vals stored val ptr ndxstk read within ndx scans valid
        · exact ih tptr ptr 0 _ (within_back vals val tptr ptr ptr 7 0 ndxstk _ within (by decide) (lowered 0)) ran
      · have less : lvl < 7 := Nat.lt_of_le_of_ne early seventh
        have here := within_scanned vals val tptr ptr lvl ndxstk within less
        rw [if_neg seventh, Option.bind_eq_bind, Option.bind_eq_some_iff] at ran
        obtain ⟨found, scans, ran⟩ := ran
        split_ifs at ran with null inner
        · have same : scanned tptr lvl = tptr := if_neg inner
          rw [same] at here
          exact ih _ found (lvl - 1) _ (within_back vals val _ ptr found lvl (lvl - 1) ndxstk _ here (by omega) (lowered (lvl - 1))) ran
        · exact absurd (Option.some.inj ran).symm valid
        · exact ih found found (lvl + 1) ndxstk (within_down trie vals stored val _ ptr found lvl ndxstk here less ndx scans null) ran
    · rw [if_neg ndx] at ran
      cases lvl with
      | zero => exact absurd (Option.some.inj ran).symm valid
      | succ lvl => exact ih tptr ptr lvl ndxstk (within_back vals val tptr ptr ptr (lvl + 1) lvl ndxstk ndxstk within (Nat.lt_succ_self lvl) within.low) ran

end Bounds

section Faults

variable (trie : Mlt)

theorem scan_fault (ndx : Nat) : scan trie .garbage ndx = none := by cases ndx <;> rfl

theorem scanvals_fault (ndx : Nat) : scanvals trie .garbage ndx = none := by cases ndx <;> rfl

theorem loop_fault (fuel lvl : Nat) (ptr : Ptr) (ndxstk : Nat → Int) (inner : lvl ≠ 0) (early : lvl < 7) (ndx : 0 ≤ ndxstk lvl) :
    findprevLoop trie fuel .garbage ptr lvl ndxstk = none := by
  cases fuel with
  | zero => rfl
  | succ fuel =>
    rw [findprevLoop.eq_def]
    simp only [if_pos ndx, if_neg (show lvl ≠ mltnptrlvl from Nat.ne_of_lt early), if_neg inner, scan_fault, Option.bind_eq_bind, Option.bind_none]

theorem loop_values_fault (fuel : Nat) (tptr : Ptr) (ndxstk : Nat → Int) (ndx : 0 ≤ ndxstk 7) : findprevLoop trie fuel tptr .garbage 7 ndxstk = none := by
  cases fuel with
  | zero => rfl
  | succ fuel =>
    rw [findprevLoop.eq_def]
    simp only [if_pos ndx, if_pos (show 7 = mltnptrlvl from rfl), scanvals_fault, Option.bind_eq_bind, Option.bind_none]
    exact if_pos Ptr.noConfusion

variable (vals : List Mltval) (stored : Stored trie vals) (val : Mltval) (fails : Fails vals val 7)
include stored fails

-- A table of values that is read as one of pointers.
theorem load_garbage (ndx : Nat) (byte : ndx < 256) : load trie (.table (path val 7)) ndx = some .garbage := by
  have nonzero : trie.vals (path val 7 ++ [ndx]) ≠ 0 := by
    by_cases some_val : ∃ other ∈ vals, path other 8 = path val 7 ++ [ndx]
    · obtain ⟨other, member, way⟩ := some_val
      have found := stored.found other member
      rw [way] at found
      rw [found]
      rintro rfl
      have above := fails.2 0 member ((path_concat val 0 7 ndx).mp way).1
      exact Nat.not_lt_zero _ above
    · rw [stored.bare (path val 7 ++ [ndx]) (by simp [path_length]) (by rw [List.dropLast_concat, leads_path]; exact fails.1)
        fun other member way => some_val ⟨other, member, way⟩]
      decide
  simp only [load, if_pos byte, path_length, if_neg (show ¬7 < mltnptrlvl from Nat.lt_irrefl 7), if_neg nonzero]

theorem scan_garbage (ndx : Nat) (byte : ndx < 256) : scan trie (.table (path val 7)) ndx = some .garbage := by
  cases ndx with
  | zero => exact load_garbage trie vals stored val fails 0 byte
  | succ ndx =>
    rw [scan, load_garbage trie vals stored val fails (ndx + 1) byte]
    rfl

-- The table of values is still the one that is scanned, a level further up.
theorem last_faults (fuel : Nat) : findprevLoop trie fuel (.table (path val 7)) (.table (path val 7)) 7 (digits val) = none := by
  have byte := digit_lt val
  have here : ∀ i, (digits val i).toNat = digit val i := fun i => Int.toNat_natCast _
  have positive : ∀ i, 0 ≤ digits val i := fun i => Int.natCast_nonneg _
  have lowered := lower_self (digits val) 6
  have kept : ∀ i, i ≠ 6 → lower (digits val) 6 i = digits val i := lower_other (digits val) 6
  have bare := scanvals_bare trie vals stored (path val 7) (path_length val 7) ((leads_path vals val 7).mpr fails.1) (digits val 7).toNat
    (by rw [here]; exact byte 7) fun i below other member _ way => by
      obtain ⟨shares, same⟩ := (path_concat val other 7 i).mp way
      have above := fails.2 other member shares
      rw [here] at below
      omega
  cases fuel with
  | zero => rfl
  | succ fuel =>
    rw [loop_values trie _ (digits val) fuel (positive 7) _ _ bare, if_pos rfl]
    cases fuel with
    | zero => rfl
    | succ fuel =>
      by_cases more : 0 ≤ lower (digits val) 6 6
      · have scans := scan_garbage trie vals stored val fails (lower (digits val) 6 6).toNat (by have bound := byte 6; rw [lowered, digits]; omega)
        rw [loop_scan trie _ _ 6 _ fuel (by decide) more _ scans, if_neg (by decide)]
        exact loop_values_fault trie fuel _ _ (by rw [kept 7 (by decide)]; exact positive 7)
      · rw [loop_less trie _ _ 5 _ fuel (show lower (digits val) 6 6 < 0 by omega)]
        cases fuel with
        | zero => rfl
        | succ fuel =>
          have scans := scan_garbage trie vals stored val fails (lower (digits val) 6 5).toNat (by rw [kept 5 (by decide), here]; exact byte 5)
          rw [loop_scan trie _ _ 5 _ fuel (by decide) (by rw [kept 5 (by decide)]; exact positive 5) _ scans, if_neg (by decide)]
          cases fuel with
          | zero => rfl
          | succ fuel =>
            rw [loop_less trie _ _ 5 _ fuel (show lower (digits val) 6 6 < 0 by omega)]
            exact loop_fault trie fuel 5 _ _ (by decide) (by decide) (by rw [kept 5 (by decide)]; exact positive 5)

theorem fails_faults (fuel : Nat) : findprevLoop trie (fuel + 7) (.table []) .null 0 (digits val) = none := by
  rw [follow trie vals stored val 7 (Nat.le_refl 7) fails.1 fuel]
  exact last_faults trie vals stored val fails fuel

end Faults

-- The largest value in front of val, or the sentinel where there is none.
def IsPrev (vals : List Mltval) (val retval : Mltval) : Prop :=
  (retval ∈ vals ∧ retval < val ∧ ∀ other ∈ vals, other < val → other ≤ retval) ∨ retval = mltinval ∧ ∀ other ∈ vals, ¬other < val

-- The search of the trie of these values ends, keeps inside of its tables and gives it.
def Right (vals : List Mltval) (val : Mltval) : Prop :=
  ∃ trie, mltadds start.trie vals = some trie ∧ ∃ enough retval, (∀ fuel, enough ≤ fuel → mltfindprev trie val fuel = some retval) ∧ IsPrev vals val retval

-- No digit of the value sought is above that of val - 1, and the path of val - 1 does not
-- end at a table below the first two levels that only leads to larger values.
def Plain (vals : List Mltval) (val : Mltval) : Prop :=
  (∀ most, Largest vals (val - 1) most → Digitwise most (val - 1)) ∧ ∀ len, 2 ≤ len → len ≤ 7 → ¬Fails vals (val - 1) len

section Results

variable (vals : List Mltval) (val : Mltval) (positive : 0 < val)
include positive

theorem before_iff (other : Mltval) : other < val ↔ other ≤ val - 1 := by
  rw [BitVec.lt_def] at positive ⊢
  rw [BitVec.le_def]
  have zero : (0 : Mltval).toNat = 0 := rfl
  have one : (1 : Mltval).toNat = 1 := rfl
  have bound := val.isLt
  rw [BitVec.toNat_sub, one]
  omega

theorem not_sentinel (other : Mltval) (low : other ≤ val - 1) : other ≠ mltinval := by
  rintro rfl
  have below := BitVec.lt_def.mp ((before_iff val positive mltinval).mpr low)
  have top : mltinval.toNat = 2 ^ 64 - 1 := rfl
  have bound := val.isLt
  omega

theorem isPrev_iff (retval : Mltval) : IsPrev vals val retval ↔ Found vals (val - 1) retval := by
  have after : ∀ other : Mltval, ¬other ≤ val - 1 ↔ val - 1 < other := fun _ => Nat.not_le
  simp only [IsPrev, Found, Largest, before_iff val positive, after]

theorem plain_right (plain : Plain vals val) : Right vals val := by
  obtain ⟨trie, adds, stored⟩ := mltadds_stored vals [] start.trie start_stored
  rw [List.nil_append] at stored
  have prev : Prev trie vals (val - 1) := by
    by_cases some_below : ∃ other ∈ vals, other ≤ val - 1
    · obtain ⟨most, largest⟩ := largest_below vals (val - 1) some_below
      exact prev_largest trie vals stored (val - 1) most largest (not_sentinel val positive most largest.2.1) (plain.1 most largest) plain.2
    · push Not at some_below
      exact prev_none trie vals stored (val - 1) (fun other member => Nat.lt_of_not_le (some_below other member)) plain.2
  obtain ⟨enough, retval, ends, found⟩ := prev
  exact ⟨trie, adds, enough, retval, ends, (isPrev_iff vals val positive retval).mpr found⟩

theorem right_digitwise (right : Right vals val) : (∀ most, Largest vals (val - 1) most → Digitwise most (val - 1)) ∧ ¬Fails vals (val - 1) 7 := by
  obtain ⟨trie, adds, enough, retval, ends, prev⟩ := right
  obtain ⟨other, adds', stored⟩ := mltadds_stored vals [] start.trie start_stored
  obtain rfl : trie = other := Option.some.inj (adds.symm.trans adds')
  rw [List.nil_append] at stored
  constructor
  · intro most largest
    rcases (isPrev_iff vals val positive retval).mp prev with ⟨member, low, all⟩ | ⟨-, none⟩
    · obtain rfl : retval = most := BitVec.eq_of_toNat_eq (Nat.le_antisymm (largest.2.2 retval member low) (all most largest.1 largest.2.1))
      have valid := not_sentinel val positive retval low
      exact (loop_digitwise trie vals stored (val - 1) enough _ _ 0 _ (start_within vals (val - 1)) retval (ends enough (Nat.le_refl enough)) valid).2
    · exact absurd largest.2.1 (Nat.not_le_of_gt (none most largest.1))
  · intro fails
    have faults := fails_faults trie vals stored (val - 1) fails enough
    cases faults.symm.trans (ends (enough + 7) (Nat.le_add_right enough 7))

-- Exact but where the path of val - 1 ends at a table of the levels 2 to 6.
theorem mltfindprev_right : (Plain vals val → Right vals val) ∧
    (Right vals val → Plain vals val ∨ ∃ len, 2 ≤ len ∧ len ≤ 6 ∧ Fails vals (val - 1) len) := by
  refine ⟨plain_right vals val positive, fun right => ?_⟩
  obtain ⟨within, last⟩ := right_digitwise vals val positive right
  by_cases inner : ∃ len, 2 ≤ len ∧ len ≤ 6 ∧ Fails vals (val - 1) len
  · exact .inr inner
  · refine .inl ⟨within, fun len low high fails => ?_⟩
    rcases Nat.lt_or_eq_of_le high with early | rfl
    · exact inner ⟨len, low, by omega, fails⟩
    · exact last fails

end Results

theorem mltfindprev_right_two : Right [1, 5] 4 := by
  have shared : ∀ len, len ≤ 7 → path 1 len = path 3 len ∧ ¬digit 3 len < digit 1 len := by decide
  have below : ∀ i, i ≤ 7 → digit 1 i ≤ digit 3 i := by decide
  refine (mltfindprev_right [1, 5] 4 (by decide)).1 ⟨fun most largest => ?_, fun len _ high fails => ?_⟩
  · rcases List.mem_pair.mp largest.1 with rfl | rfl
    · exact below
    · exact absurd largest.2.1 (by decide)
  · exact (shared len high).2 (fails.2 1 List.mem_cons_self (shared len high).1)

-- The last digit of 255 is above that of 256.
theorem mltfindprev_misses : ¬Right [255] 257 := fun right => by
  have within := (right_digitwise [255] 257 (by decide) right).1 255 ⟨List.mem_cons_self, by decide, fun other member _ => by
    obtain rfl := List.mem_singleton.mp member
    exact Nat.le_refl _⟩ 7 (Nat.le_refl 7)
  exact absurd within (by decide)

end OsZero.Trie

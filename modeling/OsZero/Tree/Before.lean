import Mathlib.Data.List.MinMax
import OsZero.Tree.Prev

set_option autoImplicit false

namespace OsZero.Trie

section Scans

variable (trie : Mlt) (vals : List Mltval) (stored : Stored trie vals) (tab : List Nat)

section Pointers

variable (short : tab.length < 7)
include stored short

theorem load_table (ndx : Nat) (byte : ndx < 256) (leads : Leads vals (tab ++ [ndx])) : load trie (.table tab) ndx = some (.table (tab ++ [ndx])) := by
  have slot := stored.table (tab ++ [ndx]) (by simp) (by simp; omega) leads
  simp only [load, if_pos byte, if_pos (show tab.length < mltnptrlvl from short), slot]

theorem load_null (ndx : Nat) (byte : ndx < 256) (off : ¬Leads vals (tab ++ [ndx])) : load trie (.table tab) ndx = some .null := by
  have slot := stored.null (tab ++ [ndx]) (by simp) (by simp; omega) off
  simp only [load, if_pos byte, if_pos (show tab.length < mltnptrlvl from short), slot]

-- The scan comes to the largest index that leads on.
theorem scan_finds (found ndx : Nat) (byte : ndx < 256) (below : found ≤ ndx) (leads : Leads vals (tab ++ [found]))
    (largest : ∀ i, found < i → i ≤ ndx → ¬Leads vals (tab ++ [i])) : scan trie (.table tab) ndx = some (.table (tab ++ [found])) := by
  induction ndx with
  | zero =>
    obtain rfl : found = 0 := by omega
    exact load_table trie vals stored tab short 0 byte leads
  | succ ndx ih =>
    rw [scan]
    rcases Nat.lt_or_eq_of_le below with less | rfl
    · rw [load_null trie vals stored tab short (ndx + 1) byte (largest (ndx + 1) less (Nat.le_refl _))]
      exact ih (by omega) (by omega) fun i low high => largest i low (by omega)
    · rw [load_table trie vals stored tab short (ndx + 1) byte leads]
      rfl

theorem scan_null (ndx : Nat) (byte : ndx < 256) (none : ∀ i, i ≤ ndx → ¬Leads vals (tab ++ [i])) : scan trie (.table tab) ndx = some .null := by
  induction ndx with
  | zero => exact load_null trie vals stored tab short 0 byte (none 0 (Nat.le_refl 0))
  | succ ndx ih =>
    rw [scan, load_null trie vals stored tab short (ndx + 1) byte (none (ndx + 1) (Nat.le_refl _))]
    exact ih (by omega) fun i high => none i (by omega)

end Pointers

section Values

variable (full : tab.length = 7) (there : Leads vals tab)
include stored full there

omit there in
theorem value_found (val : Mltval) (member : val ∈ vals) (ndx : Nat) (byte : ndx < 256) (way : path val 8 = tab ++ [ndx]) :
    value trie (.table tab) ndx = some val := by
  have cell := stored.found val member
  rw [way] at cell
  simp only [value, byte, true_and, if_pos (show tab.length = mltnptrlvl from full), cell]

theorem value_bare (ndx : Nat) (byte : ndx < 256) (none : ∀ val ∈ vals, val ≠ mltinval → path val 8 ≠ tab ++ [ndx]) :
    value trie (.table tab) ndx = some mltinval := by
  by_cases sentinel : mltinval ∈ vals ∧ path mltinval 8 = tab ++ [ndx]
  · exact value_found trie vals stored tab full mltinval sentinel.1 ndx byte sentinel.2
  · have bare := stored.bare (tab ++ [ndx]) (by simp [full]) (by rwa [List.dropLast_concat]) fun val member way => by
      by_cases same : val = mltinval
      · subst same
        exact sentinel ⟨member, way⟩
      · exact none val member same way
    simp only [value, byte, true_and, if_pos (show tab.length = mltnptrlvl from full), bare]

theorem scanvals_finds (val : Mltval) (member : val ∈ vals) (valid : val ≠ mltinval) (found ndx : Nat) (byte : ndx < 256) (below : found ≤ ndx)
    (way : path val 8 = tab ++ [found]) (largest : ∀ i, found < i → i ≤ ndx → ∀ val ∈ vals, val ≠ mltinval → path val 8 ≠ tab ++ [i]) :
    scanvals trie (.table tab) ndx = some val := by
  induction ndx with
  | zero =>
    obtain rfl : found = 0 := by omega
    exact value_found trie vals stored tab full val member 0 byte way
  | succ ndx ih =>
    rw [scanvals]
    rcases Nat.lt_or_eq_of_le below with less | rfl
    · rw [value_bare trie vals stored tab full there (ndx + 1) byte (largest (ndx + 1) less (Nat.le_refl _))]
      exact ih (by omega) (by omega) fun i low high => largest i low (by omega)
    · rw [value_found trie vals stored tab full val member (ndx + 1) byte way, Option.bind_eq_bind, Option.bind_some, if_neg valid]

theorem scanvals_bare (ndx : Nat) (byte : ndx < 256) (none : ∀ i, i ≤ ndx → ∀ val ∈ vals, val ≠ mltinval → path val 8 ≠ tab ++ [i]) :
    scanvals trie (.table tab) ndx = some mltinval := by
  induction ndx with
  | zero => exact value_bare trie vals stored tab full there 0 byte (none 0 (Nat.le_refl 0))
  | succ ndx ih =>
    rw [scanvals, value_bare trie vals stored tab full there (ndx + 1) byte (none (ndx + 1) (Nat.le_refl _))]
    exact ih (by omega) fun i high => none i (by omega)

end Values

end Scans

section Ways

variable (vals : List Mltval)

theorem leads_path (val : Mltval) (len : Nat) : Leads vals (path val len) ↔ ∃ other ∈ vals, Shares other val len := by
  simp only [Leads, path_length, Shares]

theorem path_concat (val other : Mltval) (len ndx : Nat) : path other (len + 1) = path val len ++ [ndx] ↔ Shares other val len ∧ digit other len = ndx := by
  rw [path_succ]
  constructor
  · intro same
    obtain ⟨front, last⟩ := List.append_inj' same rfl
    exact ⟨front, (List.cons.inj last).1⟩
  · rintro ⟨shares, rfl⟩
    rw [shares]

theorem leads_concat (val : Mltval) (len ndx : Nat) : Leads vals (path val len ++ [ndx]) ↔ ∃ other ∈ vals, Shares other val len ∧ digit other len = ndx := by
  simp only [Leads, List.length_append, path_length, List.length_singleton, path_concat]

end Ways

section Turns

variable (trie : Mlt) (tptr ptr : Ptr) (lvl : Nat) (ndxstk : Nat → Int) (fuel : Nat)

-- The table that is scanned at a level.
def scanned (tptr : Ptr) (lvl : Nat) : Ptr := if lvl = 0 then .table [] else tptr

theorem loop_scan (early : lvl < 7) (ndx : 0 ≤ ndxstk lvl) (found : Ptr) (scans : scan trie (scanned tptr lvl) (ndxstk lvl).toNat = some found) :
    findprevLoop trie (fuel + 1) tptr ptr lvl ndxstk =
      if found = .null then
        if lvl ≠ 0 then findprevLoop trie fuel (scanned tptr lvl) found (lvl - 1) (lower ndxstk (lvl - 1)) else some mltinval
      else findprevLoop trie fuel found found (lvl + 1) ndxstk := by
  rw [findprevLoop.eq_def]
  simp only [if_pos ndx, if_neg (show lvl ≠ mltnptrlvl from Nat.ne_of_lt early)]
  rw [scanned] at scans ⊢
  rw [scans]
  rfl

theorem loop_values (ndx : 0 ≤ ndxstk 7) (tab : List Nat) (retval : Mltval) (scans : scanvals trie (.table tab) (ndxstk 7).toNat = some retval) :
    findprevLoop trie (fuel + 1) tptr (.table tab) 7 ndxstk =
      if retval = mltinval then findprevLoop trie fuel tptr (.table tab) 6 (lower ndxstk 6) else some retval := by
  rw [findprevLoop]
  simp only [if_pos ndx, if_pos (show 7 = mltnptrlvl from rfl)]
  rw [if_pos (by exact Ptr.noConfusion), scans]
  rfl

theorem loop_less (ndx : ndxstk (lvl + 1) < 0) : findprevLoop trie (fuel + 1) tptr ptr (lvl + 1) ndxstk = findprevLoop trie fuel tptr ptr lvl ndxstk := by
  rw [findprevLoop]
  exact if_neg (Int.not_le_of_gt ndx)

theorem loop_out (ndx : ndxstk 0 < 0) : findprevLoop trie (fuel + 1) tptr ptr 0 ndxstk = some mltinval := by
  rw [findprevLoop]
  exact if_neg (Int.not_le_of_gt ndx)

end Turns

-- The indices of the stack lead to a value: each scan comes to its digit.
structure Aimed (vals : List Mltval) (val : Mltval) (ndxstk : Nat → Int) : Prop where
  member : val ∈ vals
  valid : val ≠ mltinval
  bound : ∀ i, i ≤ 7 → (digit val i : Int) ≤ ndxstk i ∧ ndxstk i < 256
  largest : ∀ i, i ≤ 7 → ∀ other ∈ vals, Shares other val i → digit val i < digit other i → ndxstk i < digit other i

section Descents

variable (trie : Mlt) (vals : List Mltval) (stored : Stored trie vals)
include stored

omit stored in
theorem aimed_beyond (val : Mltval) (ndxstk : Nat → Int) (aimed : Aimed vals val ndxstk) (lvl : Nat) (early : lvl ≤ 7) (i : Nat) (above : digit val lvl < i)
    (below : i ≤ (ndxstk lvl).toNat) (other : Mltval) (member : other ∈ vals) (shares : Shares other val lvl) : digit other lvl ≠ i := by
  rintro rfl
  have largest := aimed.largest lvl early other member shares above
  omega

-- Each level of the value's path takes one turn.
theorem descend (val : Mltval) (ndxstk : Nat → Int) (aimed : Aimed vals val ndxstk) (left lvl : Nat) (levels : lvl + left = 7) (tptr ptr : Ptr)
    (stands : scanned tptr lvl = .table (path val lvl)) (last : lvl = 7 → ptr = .table (path val 7)) (fuel : Nat) :
    findprevLoop trie (fuel + left + 1) tptr ptr lvl ndxstk = some val := by
  induction left generalizing lvl tptr ptr with
  | zero =>
    obtain rfl : lvl = 7 := by omega
    obtain ⟨low, byte⟩ := aimed.bound 7 (Nat.le_refl 7)
    rw [last rfl]
    have scans := scanvals_finds trie vals stored (path val 7) (path_length val 7) ((leads_path vals val 7).mpr ⟨val, aimed.member, rfl⟩) val aimed.member
      aimed.valid (digit val 7) (ndxstk 7).toNat (by omega) (by omega) (path_succ val 7) fun i above below other member _ way => by
        obtain ⟨shares, same⟩ := (path_concat val other 7 i).mp way
        exact aimed_beyond vals val ndxstk aimed 7 (Nat.le_refl 7) i above below other member shares same
    rw [Nat.add_zero, loop_values trie tptr ndxstk fuel (by omega) _ val scans, if_neg aimed.valid]
  | succ left ih =>
    obtain ⟨low, byte⟩ := aimed.bound lvl (by omega)
    have scans := scan_finds trie vals stored (path val lvl) (by rw [path_length]; omega) (digit val lvl) (ndxstk lvl).toNat (by omega) (by omega)
      ((leads_concat vals val lvl _).mpr ⟨val, aimed.member, rfl, rfl⟩) fun i above below leads => by
        obtain ⟨other, member, shares, same⟩ := (leads_concat vals val lvl i).mp leads
        exact aimed_beyond vals val ndxstk aimed lvl (by omega) i above below other member shares same
    rw [← path_succ, ← stands] at scans
    rw [loop_scan trie tptr ptr lvl ndxstk (fuel + (left + 1)) (by omega) (by omega) _ scans, if_neg (by exact Ptr.noConfusion)]
    refine ih (lvl + 1) (by omega) _ _ (if_neg (Nat.succ_ne_zero lvl)) fun seventh => ?_
    rw [seventh]

-- As long as values go on along the path of val, so does the search.
theorem follow (val : Mltval) (len : Nat) (within : len ≤ 7) (there : ∃ other ∈ vals, Shares other val len) (fuel : Nat) :
    findprevLoop trie (fuel + len) (.table []) .null 0 (digits val) =
      findprevLoop trie fuel (.table (path val len)) (if len = 0 then .null else .table (path val len)) len (digits val) := by
  induction len generalizing fuel with
  | zero => rfl
  | succ len ih =>
    obtain ⟨other, member, shares⟩ := there
    have byte := digit_lt val len
    have here : (digits val len).toNat = digit val len := Int.toNat_natCast _
    have scans := scan_finds trie vals stored (path val len) (by rw [path_length]; omega) (digit val len) (digits val len).toNat (by omega) (by omega)
      ((leads_concat vals val len _).mpr ⟨other, member, shares_less other val _ len shares (by omega), shares_digit other val _ len shares (by omega)⟩)
      fun i above below => by omega
    have stands : scanned (.table (path val len)) len = .table (path val len) := by
      cases len with
      | zero => rfl
      | succ len => rfl
    rw [← path_succ] at scans
    rw [show fuel + (len + 1) = fuel + 1 + len by omega, ih (by omega) ⟨other, member, shares_less other val _ len shares (by omega)⟩ (fuel + 1),
      loop_scan trie _ _ len (digits val) fuel (by omega) (Int.natCast_nonneg _) _ (by rw [stands]; exact scans), if_neg (by exact Ptr.noConfusion)]
    rfl

end Descents

section Ends

-- The path of val goes on down to a level, where all values that share it are larger.
def Fails (vals : List Mltval) (val : Mltval) (len : Nat) : Prop :=
  (∃ other ∈ vals, Shares other val len) ∧ ∀ other ∈ vals, Shares other val len → digit val len < digit other len

theorem fails_from (vals : List Mltval) (val : Mltval) (left len : Nat) (levels : len + left = 8) (there : ∃ other ∈ vals, Shares other val len)
    (above : ∀ other ∈ vals, Shares other val len → val < other) : ∃ more, len ≤ more ∧ more ≤ 7 ∧ Fails vals val more := by
  induction left generalizing len with
  | zero =>
    obtain ⟨other, member, shares⟩ := there
    obtain rfl : len = 8 := by omega
    have same := digits_all other val shares
    exact absurd (above other member shares) (by rw [same]; exact Nat.lt_irrefl _)
  | succ left ih =>
    by_cases further : ∃ other ∈ vals, Shares other val (len + 1)
    · obtain ⟨more, low, high, fails⟩ := ih (len + 1) (by omega) further fun other member shares =>
        above other member (shares_less other val _ len shares (by omega))
      exact ⟨more, by omega, high, fails⟩
    · refine ⟨len, Nat.le_refl len, by omega, there, fun other member shares => ?_⟩
      rcases Nat.lt_trichotomy (digit val len) (digit other len) with less | same | less
      · exact less
      · exact absurd ⟨other, member, shares_succ other val len shares same.symm⟩ further
      · exact absurd (lt_of_digit other val len (by omega) shares less) (Nat.lt_asymm (above other member shares))

theorem largest_below (vals : List Mltval) (val : Mltval) (some_below : ∃ other ∈ vals, other ≤ val) :
    ∃ most ∈ vals, most ≤ val ∧ ∀ other ∈ vals, other ≤ val → other ≤ most := by
  obtain ⟨other, member, low⟩ := some_below
  have inside : other ∈ vals.filter (· ≤ val) := List.mem_filter.mpr ⟨member, decide_eq_true low⟩
  cases most : (vals.filter (· ≤ val)).argmax BitVec.toNat with
  | none => exact absurd (List.argmax_eq_none.mp most) (List.ne_nil_of_mem inside)
  | some m =>
    obtain ⟨member', low'⟩ := List.mem_filter.mp (List.argmax_mem most)
    refine ⟨m, member', of_decide_eq_true low', fun other member low => ?_⟩
    exact List.le_of_mem_argmax (List.mem_filter.mpr ⟨member, decide_eq_true low⟩) most

def Digitwise (val other : Mltval) : Prop := ∀ i, i ≤ 7 → digit val i ≤ digit other i

-- The largest value that is not above.
def Largest (vals : List Mltval) (val most : Mltval) : Prop := most ∈ vals ∧ most ≤ val ∧ ∀ other ∈ vals, other ≤ val → other ≤ most

-- What is found: the largest value, or the sentinel where there is none.
def Found (vals : List Mltval) (val retval : Mltval) : Prop := Largest vals val retval ∨ retval = mltinval ∧ ∀ other ∈ vals, val < other

-- A value that shares the digits of the largest one, but for a larger one that is not
-- above that of val, goes on along the path of val.
theorem largest_digit (vals : List Mltval) (val most other : Mltval) (largest : Largest vals val most) (member : other ∈ vals) (i : Nat) (early : i ≤ 7)
    (shares : Shares other most i) (above : digit most i < digit other i) (within : digit other i ≤ digit val i) :
    Shares most val i ∧ digit most i < digit val i ∧ Shares other val (i + 1) := by
  obtain ⟨-, low, all⟩ := largest
  have less : most < other := lt_of_digit most other i (by omega) shares.symm above
  have not_below : ¬other ≤ val := fun below => Nat.not_le_of_gt less (all other member below)
  have differ : most ≠ val := by
    rintro rfl
    exact absurd above (Nat.not_lt_of_le within)
  obtain ⟨j, inside, along, smaller⟩ := digit_of_lt most val (Nat.lt_of_le_of_ne low fun same => differ (BitVec.eq_of_toNat_eq same))
  rcases Nat.lt_trichotomy i j with early | rfl | late
  · have same := shares_digit most val j i along early
    omega
  · have whole : Shares other val i := shares.trans along
    refine ⟨along, smaller, shares_succ other val i whole ?_⟩
    by_contra apart
    exact not_below (Nat.le_of_lt (lt_of_digit other val i inside whole (by omega)))
  · have same := shares_digit other most i j shares late
    exact absurd (Nat.le_of_lt (lt_of_digit other val j inside ((shares_less other most i j shares (by omega)).trans along) (by omega))) not_below

end Ends

theorem lower_self (ndxstk : Nat → Int) (lvl : Nat) : lower ndxstk lvl lvl = ndxstk lvl - 1 := Function.update_self _ _ _

theorem lower_other (ndxstk : Nat → Int) (lvl other : Nat) (differ : other ≠ lvl) : lower ndxstk lvl other = ndxstk other :=
  Function.update_of_ne differ _ _

section Rightness

variable (trie : Mlt) (vals : List Mltval) (stored : Stored trie vals) (val : Mltval)

-- The search ends and finds the largest value.
def Prev : Prop := ∃ enough retval, (∀ fuel, enough ≤ fuel → findprevLoop trie fuel (.table []) .null 0 (digits val) = some retval) ∧ Found vals val retval

theorem prev_of (most : Nat) (retval : Mltval) (ends : ∀ fuel, findprevLoop trie (fuel + most) (.table []) .null 0 (digits val) = some retval)
    (found : Found vals val retval) : Prev trie vals val := by
  refine ⟨most, retval, fun fuel low => ?_, found⟩
  obtain ⟨more, rfl⟩ := Nat.exists_eq_add_of_le' low
  exact ends more

include stored

-- Back at the root from the first level, the scan goes on below the first index.
theorem back_at_root (fails : Fails vals val 1) (fuel : Nat) : findprevLoop trie (fuel + 2) (.table []) .null 0 (digits val) =
    findprevLoop trie fuel (.table (path val 1)) .null 0 (lower (digits val) 0) := by
  have byte := digit_lt val 1
  have here : (digits val 1).toNat = digit val 1 := Int.toNat_natCast _
  have scans := scan_null trie vals stored (path val 1) (by rw [path_length]; decide) (digits val 1).toNat (by omega) fun i below leads => by
    obtain ⟨other, member, shares, same⟩ := (leads_concat vals val 1 i).mp leads
    have above := fails.2 other member shares
    omega
  rw [follow trie vals stored val 1 (by decide) fails.1 (fuel + 1), loop_scan trie _ _ 1 (digits val) fuel (by decide) (Int.natCast_nonneg _) _ scans, if_pos rfl,
    if_pos Nat.one_ne_zero]
  rfl

theorem prev_largest (most : Mltval) (largest : Largest vals val most) (valid : most ≠ mltinval) (within : Digitwise most val)
    (ends : ∀ len, 2 ≤ len → len ≤ 7 → ¬Fails vals val len) : Prev trie vals val := by
  have byte := digit_lt val
  by_cases straight : ∀ i, i ≤ 7 → ∀ other ∈ vals, Shares other most i → digit most i < digit other i → digits val i < digit other i
  · have aimed : Aimed vals most (digits val) := ⟨largest.1, valid, fun i early => by
      have low := within i early
      have high := byte i
      rw [digits]
      omega, straight⟩
    exact prev_of trie vals val 8 most (fun fuel => descend trie vals stored most (digits val) aimed 7 0 rfl _ _ rfl nofun fuel) (.inl largest)
  · push Not at straight
    obtain ⟨i, early, other, member, shares, above, low⟩ := straight
    rw [digits, Int.ofNat_le] at low
    obtain ⟨along, smaller, further⟩ := largest_digit vals val most other largest member i early shares above low
    obtain ⟨more, start, stop, fails⟩ := fails_from vals val (7 - i) (i + 1) (by omega) ⟨other, member, further⟩ fun later member shares => by
      by_contra below
      have less : most < later := by
        refine lt_of_digit most later i (by omega) (along.trans (shares_less later val _ i shares (by omega)).symm) ?_
        rw [shares_digit later val _ i shares (Nat.lt_succ_self i)]
        exact smaller
      exact absurd (largest.2.2 later member (Nat.le_of_not_lt below)) (Nat.not_le_of_gt less)
    obtain rfl : more = 1 := by
      by_contra other
      exact ends more (by omega) stop fails
    obtain rfl : i = 0 := by omega
    have not_between : ∀ other ∈ vals, most < other → ¬other < val := fun other member above below =>
      absurd (largest.2.2 other member (Nat.le_of_lt below)) (Nat.not_le_of_gt above)
    have aimed : Aimed vals most (lower (digits val) 0) := by
      refine ⟨largest.1, valid, fun i early => ?_, fun i early other member shares above => ?_⟩
      · have low := within i early
        have high := byte i
        rcases Nat.eq_zero_or_pos i with rfl | later
        · rw [lower_self, digits]
          omega
        · rw [lower_other _ _ _ (Nat.ne_of_gt later), digits]
          omega
      · have less := lt_of_digit most other i (by omega) shares.symm above
        rcases Nat.eq_zero_or_pos i with rfl | later
        · rw [lower_self, digits]
          by_contra below
          exact not_between other member less (lt_of_digit other val 0 (by decide) rfl (by omega))
        · have first := shares_digit other most i 0 shares later
          exact absurd (lt_of_digit other val 0 (by decide) rfl (by omega)) (not_between other member less)
    refine prev_of trie vals val 10 most (fun fuel => ?_) (.inl largest)
    rw [show fuel + 10 = fuel + 7 + 1 + 2 from rfl, back_at_root trie vals stored val fails]
    exact descend trie vals stored most _ aimed 7 0 rfl _ _ rfl nofun fuel

-- Nothing at the root leads to a value.
theorem root_ends (tptr ptr : Ptr) (ndxstk : Nat → Int) (ndx : 0 ≤ ndxstk 0) (byte : ndxstk 0 < 256)
    (none : ∀ other ∈ vals, ndxstk 0 < digit other 0) (fuel : Nat) : findprevLoop trie (fuel + 1) tptr ptr 0 ndxstk = some mltinval := by
  have scans := scan_null trie vals stored [] (by decide) (ndxstk 0).toNat (by omega) fun i below leads => by
    obtain ⟨other, member, -, same⟩ := (leads_concat vals 0 0 i).mp leads
    have above := none other member
    omega
  rw [loop_scan trie tptr ptr 0 ndxstk fuel (by decide) ndx _ scans, if_pos rfl]
  exact if_neg fun other => other rfl

theorem prev_none (none : ∀ other ∈ vals, val < other) (ends : ∀ len, 2 ≤ len → len ≤ 7 → ¬Fails vals val len) : Prev trie vals val := by
  have byte := digit_lt val 0
  have found : Found vals val mltinval := .inr ⟨rfl, none⟩
  by_cases first : ∀ other ∈ vals, digits val 0 < digit other 0
  · exact prev_of trie vals val 1 mltinval (root_ends trie vals stored _ _ _ (Int.natCast_nonneg _) (Int.ofNat_lt.mpr byte) first) found
  · push Not at first
    obtain ⟨other, member, low⟩ := first
    rw [digits, Int.ofNat_le] at low
    have same : digit other 0 = digit val 0 := by
      by_contra apart
      exact absurd (lt_of_digit other val 0 (by decide) rfl (by omega)) (Nat.lt_asymm (none other member))
    obtain ⟨more, start, stop, fails⟩ := fails_from vals val 7 1 rfl ⟨other, member, shares_succ other val 0 rfl same⟩ fun other member _ => none other member
    obtain rfl : more = 1 := by
      by_contra other
      exact ends more (by omega) stop fails
    refine prev_of trie vals val 3 mltinval (fun fuel => ?_) found
    rw [show fuel + 3 = fuel + 1 + 2 from rfl, back_at_root trie vals stored val fails]
    have lowered := lower_self (digits val) 0
    rw [digits] at lowered
    rcases Nat.eq_zero_or_pos (digit val 0) with zero | positive
    · exact loop_out trie _ _ _ fuel (by omega)
    · refine root_ends trie vals stored _ _ _ (by omega) (by omega) (fun other member => ?_) fuel
      by_contra below
      exact absurd (lt_of_digit other val 0 (by decide) rfl (by omega)) (Nat.lt_asymm (none other member))

end Rightness

end OsZero.Trie

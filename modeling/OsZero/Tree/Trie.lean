import Mathlib.Logic.Function.Basic
import Mathlib.Tactic.SplitIfs
import OsZero.Lib.Runs

set_option autoImplicit false

namespace OsZero.Trie

abbrev Mltval := BitVec 64

def mltinval : Mltval := 0xffffffffffffffff
def mltnlvlbit : Nat := 8
def mltnptrlvl : Nat := 7
def mltkeymask : Mltval := 0xff

-- What a slot of a pointer table holds: NULL, a table, or the address of a
-- table that was given back to free.
inductive Slot
  | null
  | table
  | freed
  deriving DecidableEq, Repr

-- Only one slot ever points to a table, so the indices that lead to it from the
-- root name it, and a slot by its own index after those of its table.
structure Mlt where
  slots : List Nat → Slot
  vals : List Nat → Mltval
  mltreftab : Nat → Nat → Int

namespace Mlt

def setSlot (trie : Mlt) (ptr : List Nat) (slot : Slot) : Mlt := { trie with slots := Function.update trie.slots ptr slot }

def setVal (trie : Mlt) (ptr : List Nat) (val : Mltval) : Mlt := { trie with vals := Function.update trie.vals ptr val }

def setRef (trie : Mlt) (lvl ndx : Nat) (nref : Int) : Mlt :=
  { trie with mltreftab := fun level index => if level = lvl ∧ index = ndx then nref else trie.mltreftab level index }

end Mlt

-- The slots, or values, that lie in one table.
def inside (tab ptr : List Nat) : Bool := decide (ptr.dropLast = tab ∧ ptr ≠ [])

def mltgetptrtab (trie : Mlt) (tab : List Nat) : Mlt :=
  { trie with slots := fun ptr => if ptr = tab then .table else if inside tab ptr then .null else trie.slots ptr }

def mltgetvaltab (trie : Mlt) (tab : List Nat) : Mlt :=
  { trie with slots := Function.update trie.slots tab .table,
              vals := fun ptr => if inside tab ptr then mltinval else trie.vals ptr }

-- The tables of the path with the index that led to each, the deepest first.
abbrev Stack := List (List Nat × Nat)

-- With the count of the last level that the loop came to.
def mlttrimLoop : Stack → Nat → Int → Mlt → Mlt × Int
  | [], _, nref, trie => (trie, nref)
  | (ptr, ndx) :: stk, nuke, _, trie =>
    let lvl := stk.length
    let trie := if nuke ≠ 0 ∧ lvl < mltnptrlvl then trie.setSlot (ptr ++ [nuke]) .null else trie
    let nref := trie.mltreftab lvl ndx - 1
    let trie := if nref = 0 then trie.setSlot ptr .freed else trie
    mlttrimLoop stk (if nref = 0 then ndx else 0) nref (trie.setRef lvl ndx nref)

def mlttrim (stk : Stack) (trie : Mlt) : Mlt × Int := mlttrimLoop stk 0 (-1) trie

def mltkey0 (val : Mltval) : Nat := (val >>> (mltnptrlvl * mltnlvlbit)).toNat

def mltkey (val : Mltval) (ofs : Nat) : Nat := ((val >>> ofs) &&& mltkeymask).toNat

-- The offset is what is left of the levels; every allocation succeeds. A slot
-- that leads to a freed table makes the next access a fault.
def mltaddLoop (val : Mltval) : Nat → Nat → Mlt → List Nat → Nat → Option Mlt
  | 0, _, trie, tab, ndx => some (trie.setVal (tab ++ [ndx]) val)
  | left + 1, lvl, trie, tab, ndx =>
    let ptr := tab ++ [ndx]
    let ofs := left * mltnlvlbit
    let count := fun (trie : Mlt) => trie.setRef lvl ndx (trie.mltreftab lvl ndx + 1)
    match trie.slots ptr with
    | .freed => none
    | .table => mltaddLoop val left (lvl + 1) (count trie) ptr (mltkey val ofs)
    | .null =>
      let trie := if ofs ≠ 0 then mltgetptrtab trie ptr else mltgetvaltab trie ptr
      mltaddLoop val left (lvl + 1) (count trie) ptr (mltkey val ofs)

def mltadd (trie : Mlt) (val : Mltval) : Option Mlt := mltaddLoop val mltnptrlvl 0 trie [] (mltkey0 val)

-- none for a fault, and no path where a slot is NULL.
def mltwalk (trie : Mlt) (val : Mltval) : Nat → List Nat → Nat → Stack → Option (Option (Stack × List Nat × Nat))
  | 0, tab, ndx, stk => some (some (stk, tab, ndx))
  | left + 1, tab, ndx, stk =>
    let ptr := tab ++ [ndx]
    match trie.slots ptr with
    | .freed => none
    | .null => some none
    | .table => mltwalk trie val left ptr (mltkey val (left * mltnlvlbit)) ((ptr, ndx) :: stk)

-- tab is the table of values by now, and ndxstk[0] the key's first index. A
-- table that its slot no longer leads to has been freed.
def clearRoot (trie : Mlt) (tab : List Nat) (ndx : Nat) : Option Mlt :=
  if trie.slots tab = .table then some (trie.setVal (tab ++ [ndx]) 0) else none

def mltdel (trie : Mlt) (val : Mltval) : Option (Mlt × Int) :=
  (mltwalk trie val mltnptrlvl [] (mltkey0 val) []).bind (fun path =>
    path.elim (some (trie, -1)) (fun path =>
      let trimmed := mlttrim path.1 (trie.setVal (path.2.1 ++ [path.2.2]) mltinval)
      if trimmed.2 = 0 then (clearRoot trimmed.1 path.2.1 (mltkey0 val)).map (fun trie => (trie, 0))
      else some (trimmed.1, 0)))

def mltfindLoop (trie : Mlt) (val : Mltval) : Nat → List Nat → Nat → Option Mltval
  | 0, tab, ndx => some (trie.vals (tab ++ [ndx]))
  | left + 1, tab, ndx =>
    let ptr := tab ++ [ndx]
    match trie.slots ptr with
    | .freed => none
    | .null => some mltinval
    | .table => mltfindLoop trie val left ptr (mltkey val (left * mltnlvlbit))

def mltfind (trie : Mlt) (val : Mltval) : Option Mltval := mltfindLoop trie val mltnptrlvl [] (mltkey0 val)

def digit (val : Mltval) (lvl : Nat) : Nat := mltkey val ((mltnptrlvl - lvl) * mltnlvlbit)

def path (val : Mltval) (len : Nat) : List Nat := (List.range len).map (digit val)

-- Two keys share the tables down to a level where their first indices agree.
def Shares (val other : Mltval) (len : Nat) : Prop := path val len = path other len

def Reached (trie : Mlt) (val : Mltval) (len : Nat) : Prop := ∀ lvl < len, trie.slots (path val (lvl + 1)) = .table

theorem mltkey0_digit (val : Mltval) : mltkey0 val = digit val 0 := by
  have small : val >>> 56 &&& mltkeymask = val >>> 56 := by
    refine BitVec.eq_of_toNat_eq ?_
    rw [BitVec.toNat_and, BitVec.toNat_ushiftRight]
    have bound : val.toNat >>> 56 < 2 ^ 8 := by
      rw [Nat.shiftRight_eq_div_pow]
      omega
    exact Nat.and_two_pow_sub_one_of_lt_two_pow bound
  unfold mltkey0 digit mltkey
  exact congrArg BitVec.toNat small.symm

theorem path_succ (val : Mltval) (len : Nat) : path val (len + 1) = path val len ++ [digit val len] := by
  simp [path, List.range_succ]

theorem path_length (val : Mltval) (len : Nat) : (path val len).length = len := by simp [path]

theorem path_ne (val other : Mltval) (len more : Nat) (different : len ≠ more) : path val len ≠ path other more := by
  intro same
  have lengths := congrArg List.length same
  rw [path_length, path_length] at lengths
  exact different lengths

theorem shares_digit (val other : Mltval) (len lvl : Nat) (shares : Shares val other len) (early : lvl < len) : digit val lvl = digit other lvl := by
  have all := List.map_inj_left.mp shares
  exact all lvl (List.mem_range.mpr early)

theorem shares_less (val other : Mltval) (len less : Nat) (shares : Shares val other len) (early : less ≤ len) : Shares val other less :=
  List.map_inj_left.mpr fun lvl member => shares_digit val other len lvl shares (Nat.lt_of_lt_of_le (List.mem_range.mp member) early)

theorem digits_all (val other : Mltval) (shares : Shares val other 8) : val = other := by
  ext i hi
  have low : i % 8 < 8 := Nat.mod_lt i (by decide)
  have same := shares_digit val other 8 (7 - i / 8) shares (by omega)
  have words : val >>> (i / 8 * 8) &&& mltkeymask = other >>> (i / 8 * 8) &&& mltkeymask := by
    have level : mltnptrlvl - (7 - i / 8) = i / 8 := by
      unfold mltnptrlvl
      omega
    refine BitVec.eq_of_toNat_eq ?_
    simpa [digit, mltkey, level, mltnlvlbit] using same
  have bits := congrArg (fun word : Mltval => word.getLsbD (i % 8)) words
  have mask : mltkeymask.getLsbD (i % 8) = true := by
    have all : ∀ bit < 8, mltkeymask.getLsbD bit = true := by decide
    exact all (i % 8) low
  have place : i / 8 * 8 + i % 8 = i := by omega
  simpa [mask, place, BitVec.getLsbD_eq_getElem hi] using bits

theorem find_advance (trie : Mlt) (val : Mltval) (len : Nat) (within : len ≤ 7) (reached : Reached trie val len) :
    mltfind trie val = mltfindLoop trie val (7 - len) (path val len) (digit val len) := by
  induction len with
  | zero =>
    unfold mltfind
    rw [mltkey0_digit]
    rfl
  | succ len ih =>
    have left : 7 - len = 7 - (len + 1) + 1 := by omega
    rw [ih (by omega) (fun lvl early => reached lvl (by omega)), left]
    simp only [mltfindLoop, ← path_succ, reached len (Nat.lt_succ_self len)]
    rfl

theorem find_reached (trie : Mlt) (val : Mltval) (reached : Reached trie val 7) : mltfind trie val = some (trie.vals (path val 8)) := by
  rw [find_advance trie val 7 (by decide) reached, path_succ val 7]
  rfl

theorem find_null (trie : Mlt) (val : Mltval) (len : Nat) (within : len < 7) (reached : Reached trie val len)
    (null : trie.slots (path val (len + 1)) = .null) : mltfind trie val = some mltinval := by
  have left : 7 - len = 7 - (len + 1) + 1 := by omega
  rw [find_advance trie val len (by omega) reached, left]
  simp only [mltfindLoop, ← path_succ, null]

theorem find_freed (trie : Mlt) (val : Mltval) (len : Nat) (within : len < 7) (reached : Reached trie val len)
    (freed : trie.slots (path val (len + 1)) = .freed) : mltfind trie val = none := by
  have left : 7 - len = 7 - (len + 1) + 1 := by omega
  rw [find_advance trie val len (by omega) reached, left]
  simp only [mltfindLoop, ← path_succ, freed]

theorem reached_or (trie : Mlt) (val : Mltval) (len : Nat) :
    Reached trie val len ∨ ∃ lvl < len, Reached trie val lvl ∧ trie.slots (path val (lvl + 1)) ≠ .table := by
  induction len with
  | zero => exact Or.inl fun lvl early => absurd early (Nat.not_lt_zero lvl)
  | succ len ih =>
    rcases ih with reached | ⟨lvl, early, reached, stops⟩
    · by_cases table : trie.slots (path val (len + 1)) = .table
      · left
        intro lvl early
        rcases Nat.lt_succ_iff_lt_or_eq.mp early with old | rfl
        · exact reached lvl old
        · exact table
      · exact Or.inr ⟨len, Nat.lt_succ_self len, reached, table⟩
    · exact Or.inr ⟨lvl, by omega, reached, stops⟩

theorem find_cases (trie : Mlt) (val : Mltval) : Reached trie val 7 ∨
    ∃ lvl < 7, Reached trie val lvl ∧ (trie.slots (path val (lvl + 1)) = .null ∨ trie.slots (path val (lvl + 1)) = .freed) := by
  rcases reached_or trie val 7 with reached | ⟨lvl, early, reached, stops⟩
  · exact Or.inl reached
  · refine Or.inr ⟨lvl, early, reached, ?_⟩
    cases slot : trie.slots (path val (lvl + 1)) with
    | null => exact Or.inl rfl
    | table => exact absurd slot stops
    | freed => exact Or.inr rfl

-- A search reads the slots of its own path and one value.
theorem find_congr (trie next : Mlt) (val : Mltval) (slots : ∀ lvl < 7, next.slots (path val (lvl + 1)) = trie.slots (path val (lvl + 1)))
    (same : next.vals (path val 8) = trie.vals (path val 8)) : mltfind next val = mltfind trie val := by
  have carried : ∀ len ≤ 7, Reached trie val len → Reached next val len := fun len within reached lvl early => by
    rw [slots lvl (by omega), reached lvl early]
  rcases find_cases trie val with reached | ⟨lvl, early, reached, null | freed⟩
  · rw [find_reached trie val reached, find_reached next val (carried 7 (Nat.le_refl 7) reached), same]
  · rw [find_null trie val lvl early reached null, find_null next val lvl early (carried lvl (by omega) reached) (by rw [slots lvl early, null])]
  · rw [find_freed trie val lvl early reached freed, find_freed next val lvl early (carried lvl (by omega) reached) (by rw [slots lvl early, freed])]

theorem inside_path (val other : Mltval) (len lvl : Nat) :
    inside (path val len) (path other (lvl + 1)) = true ↔ lvl = len ∧ Shares val other len := by
  unfold inside
  rw [path_succ other lvl, List.dropLast_concat, decide_eq_true_iff]
  constructor
  · rintro ⟨same, -⟩
    by_cases level : lvl = len
    · subst level
      exact ⟨rfl, same.symm⟩
    · exact absurd same (path_ne other val lvl len level)
  · rintro ⟨rfl, shares⟩
    exact ⟨shares.symm, List.concat_ne_nil _ _⟩

-- A table that is put under an empty slot changes no search: what it holds is
-- as empty as the slot was.
theorem fresh_find (trie next : Mlt) (val other : Mltval) (len : Nat) (within : len < 7) (reached : Reached trie val len)
    (null : trie.slots (path val (len + 1)) = .null) (table : next.slots (path val (len + 1)) = .table)
    (empty : Shares val other (len + 1) → len + 1 < 7 → next.slots (path other (len + 2)) = .null)
    (bare : Shares val other (len + 1) → len + 1 = 7 → next.vals (path other 8) = mltinval)
    (slots : ∀ lvl < 7, (Shares val other (len + 1) → lvl < len) → next.slots (path other (lvl + 1)) = trie.slots (path other (lvl + 1)))
    (vals : ¬Shares val other (len + 1) → next.vals (path other 8) = trie.vals (path other 8)) : mltfind next other = mltfind trie other := by
  by_cases shares : Shares val other (len + 1)
  · have above : ∀ lvl < len, trie.slots (path other (lvl + 1)) = .table := fun lvl early => by
      rw [← shares_less val other (len + 1) (lvl + 1) shares (by omega)]
      exact reached lvl early
    have below : Reached next other (len + 1) := by
      intro lvl early
      rcases Nat.lt_succ_iff_lt_or_eq.mp early with old | rfl
      · rw [slots lvl (by omega) (fun _ => old), above lvl old]
      · rw [← shares]
        exact table
    have before : mltfind trie other = some mltinval := by
      refine find_null trie other len within above ?_
      rw [← shares]
      exact null
    rw [before]
    rcases Nat.lt_or_ge (len + 1) 7 with more | last
    · exact find_null next other (len + 1) more below (empty shares more)
    · have level : len + 1 = 7 := by omega
      rw [level] at below
      rw [find_reached next other below, bare shares level]
  · exact find_congr trie next other (fun lvl early => slots lvl early (fun shared => absurd shared shares)) (vals shares)

theorem getptrtab_find (trie : Mlt) (val other : Mltval) (len : Nat) (within : len + 1 < 7) (reached : Reached trie val len)
    (null : trie.slots (path val (len + 1)) = .null) : mltfind (mltgetptrtab trie (path val (len + 1))) other = mltfind trie other := by
  refine fresh_find trie _ val other len (by omega) reached null (by simp [mltgetptrtab]) (fun shares _ => ?_) (fun _ last => by omega)
    (fun lvl early off => ?_) (fun _ => rfl)
  · have deeper : path other (len + 2) ≠ path val (len + 1) := path_ne other val _ _ (by omega)
    have within : inside (path val (len + 1)) (path other (len + 1 + 1)) = true := (inside_path val other (len + 1) (len + 1)).mpr ⟨rfl, shares⟩
    simp [mltgetptrtab, deeper, within]
  · have away : path other (lvl + 1) ≠ path val (len + 1) := by
      intro same
      have level : lvl = len := by
        by_contra different
        exact path_ne other val _ _ (by omega) same
      subst level
      exact absurd (off same.symm) (Nat.lt_irrefl lvl)
    have outside : ¬inside (path val (len + 1)) (path other (lvl + 1)) = true := by
      rw [inside_path]
      rintro ⟨rfl, shares⟩
      exact absurd (off shares) (by omega)
    simp [mltgetptrtab, away, outside]

theorem getvaltab_find (trie : Mlt) (val other : Mltval) (reached : Reached trie val 6)
    (null : trie.slots (path val 7) = .null) : mltfind (mltgetvaltab trie (path val 7)) other = mltfind trie other := by
  refine fresh_find trie _ val other 6 (by decide) reached null (by simp [mltgetvaltab]) (fun _ more => by omega) (fun shares _ => ?_)
    (fun lvl early off => ?_) (fun apart => ?_)
  · have within : inside (path val 7) (path other (7 + 1)) = true := (inside_path val other 7 7).mpr ⟨rfl, shares⟩
    simp [mltgetvaltab, within]
  · have away : path other (lvl + 1) ≠ path val 7 := by
      intro same
      have level : lvl = 6 := by
        by_contra different
        exact path_ne other val _ _ (by omega) same
      subst level
      exact absurd (off same.symm) (Nat.lt_irrefl 6)
    simp [mltgetvaltab, away]
  · have outside : ¬inside (path val 7) (path other (7 + 1)) = true := by
      rw [inside_path]
      rintro ⟨-, shares⟩
      exact apart shares
    simp [mltgetvaltab, outside]

theorem setRef_find (trie : Mlt) (lvl ndx : Nat) (nref : Int) (val : Mltval) : mltfind (trie.setRef lvl ndx nref) val = mltfind trie val :=
  find_congr trie _ val (fun _ _ => rfl) rfl

theorem setVal_find_other (trie : Mlt) (val other put : Mltval) (different : other ≠ val) :
    mltfind (trie.setVal (path val 8) put) other = mltfind trie other := by
  refine find_congr trie _ other (fun _ _ => rfl) ?_
  have apart : path other 8 ≠ path val 8 := fun same => different (digits_all other val same)
  simp [Mlt.setVal, apart]

theorem setVal_find_same (trie : Mlt) (val put : Mltval) (reached : Reached trie val 7) :
    mltfind (trie.setVal (path val 8) put) val = some put := by
  rw [find_reached (trie.setVal (path val 8) put) val reached]
  simp [Mlt.setVal]

theorem reached_next (trie : Mlt) (val : Mltval) (len : Nat) (reached : Reached trie val len) (table : trie.slots (path val (len + 1)) = .table) :
    Reached trie val (len + 1) := by
  intro lvl early
  rcases Nat.lt_succ_iff_lt_or_eq.mp early with old | rfl
  · exact reached lvl old
  · exact table

theorem getptrtab_reached (trie : Mlt) (val : Mltval) (len : Nat) (reached : Reached trie val len) :
    Reached (mltgetptrtab trie (path val (len + 1))) val (len + 1) := by
  refine reached_next _ val len (fun lvl early => ?_) (by simp [mltgetptrtab])
  have away : path val (lvl + 1) ≠ path val (len + 1) := path_ne val val _ _ (by omega)
  have outside : ¬inside (path val (len + 1)) (path val (lvl + 1)) = true := by
    rw [inside_path]
    rintro ⟨same, -⟩
    omega
  simp [mltgetptrtab, away, outside, reached lvl early]

theorem getvaltab_reached (trie : Mlt) (val : Mltval) (len : Nat) (reached : Reached trie val len) :
    Reached (mltgetvaltab trie (path val (len + 1))) val (len + 1) := by
  refine reached_next _ val len (fun lvl early => ?_) (by simp [mltgetvaltab])
  have away : path val (lvl + 1) ≠ path val (len + 1) := path_ne val val _ _ (by omega)
  simp [mltgetvaltab, away, reached lvl early]

-- What mltadd leaves of the searches.
structure Added (trie next : Mlt) (val : Mltval) : Prop where
  found : mltfind next val = some val
  others : ∀ other, other ≠ val → mltfind next other = mltfind trie other

-- The loop keeps every search until the value is stored.
theorem addLoop_added (val : Mltval) (left len : Nat) (trie : Mlt) (levels : len + left = 7) (reached : Reached trie val len)
    (sound : mltfind trie val ≠ none) : ∃ next, mltaddLoop val left len trie (path val len) (digit val len) = some next ∧ Added trie next val := by
  induction left generalizing len trie with
  | zero =>
    have deep : len = 7 := by omega
    subst deep
    refine ⟨trie.setVal (path val 8) val, by simp only [mltaddLoop, path_succ val 7], setVal_find_same trie val val reached, fun other different => ?_⟩
    exact setVal_find_other trie val other val different
  | succ left ih =>
    have key : mltkey val (left * mltnlvlbit) = digit val (len + 1) := by
      have level : mltnptrlvl - (len + 1) = left := by
        unfold mltnptrlvl
        omega
      unfold digit
      rw [level]
    have onward : ∀ middle, Reached middle val (len + 1) → (∀ other, mltfind middle other = mltfind trie other) →
        ∃ next, mltaddLoop val left (len + 1) middle (path val (len + 1)) (digit val (len + 1)) = some next ∧ Added trie next val := by
      intro middle further same
      obtain ⟨next, done, added⟩ := ih (len + 1) middle (by omega) further (by rw [same]; exact sound)
      exact ⟨next, done, added.found, fun other different => (added.others other different).trans (same other)⟩
    simp only [mltaddLoop, ← path_succ, key]
    cases slot : trie.slots (path val (len + 1)) with
    | freed => exact absurd (find_freed trie val len (by omega) reached slot) sound
    | table => exact onward _ (reached_next trie val len reached slot) (fun other => setRef_find _ _ _ _ _)
    | null =>
      dsimp only
      split_ifs with more
      · have within : len + 1 < 7 := by
          unfold mltnlvlbit at more
          omega
        exact onward _ (getptrtab_reached trie val len reached)
          (fun other => (setRef_find _ _ _ _ _).trans (getptrtab_find trie val other len within reached slot))
      · have last : len = 6 := by
          unfold mltnlvlbit at more
          omega
        subst last
        exact onward _ (getvaltab_reached trie val 6 reached) (fun other => (setRef_find _ _ _ _ _).trans (getvaltab_find trie val other reached slot))

theorem mltadd_added (trie : Mlt) (val : Mltval) (sound : mltfind trie val ≠ none) : ∃ next, mltadd trie val = some next ∧ Added trie next val := by
  unfold mltadd
  rw [mltkey0_digit]
  exact addLoop_added val 7 0 trie rfl (fun lvl early => absurd early (Nat.not_lt_zero lvl)) sound

def stack (val : Mltval) : Nat → Stack
  | 0 => []
  | len + 1 => (path val (len + 1), digit val len) :: stack val len

theorem stack_length (val : Mltval) (len : Nat) : (stack val len).length = len := by
  induction len with
  | zero => rfl
  | succ len ih => simp [stack, ih]

theorem walk_advance (trie : Mlt) (val : Mltval) (len : Nat) (within : len ≤ 7) (reached : Reached trie val len) :
    mltwalk trie val mltnptrlvl [] (mltkey0 val) [] = mltwalk trie val (7 - len) (path val len) (digit val len) (stack val len) := by
  induction len with
  | zero =>
    rw [mltkey0_digit]
    rfl
  | succ len ih =>
    have left : 7 - len = 7 - (len + 1) + 1 := by omega
    rw [ih (by omega) (fun lvl early => reached lvl (by omega)), left]
    simp only [mltwalk, ← path_succ, reached len (Nat.lt_succ_self len)]
    rfl

theorem del_missing (trie : Mlt) (val : Mltval) (len : Nat) (within : len < 7) (reached : Reached trie val len)
    (null : trie.slots (path val (len + 1)) = .null) : mltdel trie val = some (trie, -1) := by
  have left : 7 - len = 7 - (len + 1) + 1 := by omega
  unfold mltdel
  rw [walk_advance trie val len (by omega) reached, left]
  simp only [mltwalk, ← path_succ, null]
  rfl

-- The trie before the counts are taken down.
def erased (trie : Mlt) (val : Mltval) : Mlt := trie.setVal (path val 8) mltinval

theorem del_reached (trie : Mlt) (val : Mltval) (reached : Reached trie val 7) :
    mltdel trie val = if (mlttrim (stack val 7) (erased trie val)).2 = 0 then
        (clearRoot (mlttrim (stack val 7) (erased trie val)).1 (path val 7) (mltkey0 val)).map (fun trie => (trie, 0))
      else some ((mlttrim (stack val 7) (erased trie val)).1, 0) := by
  unfold mltdel
  rw [walk_advance trie val 7 (Nat.le_refl 7) reached]
  simp only [Nat.sub_self, mltwalk, Option.bind_some, Option.elim_some, ← path_succ val 7]
  rfl

-- The level whose count this deletion takes to zero.
def Lone (trie : Mlt) (val : Mltval) (lvl : Nat) : Prop := trie.mltreftab lvl (digit val lvl) = 1

instance (trie : Mlt) (val : Mltval) (lvl : Nat) : Decidable (Lone trie val lvl) := inferInstanceAs (Decidable (_ = _))

def nuked (trie : Mlt) (val : Mltval) (len nuke : Nat) : Mlt :=
  if nuke ≠ 0 ∧ len < mltnptrlvl then trie.setSlot (path val (len + 1) ++ [nuke]) .null else trie

def trimStep (trie : Mlt) (val : Mltval) (len nuke : Nat) : Mlt :=
  (if Lone trie val len then (nuked trie val len nuke).setSlot (path val (len + 1)) .freed else nuked trie val len nuke).setRef
    len (digit val len) (trie.mltreftab len (digit val len) - 1)

theorem nuked_reftab (trie : Mlt) (val : Mltval) (len nuke : Nat) : (nuked trie val len nuke).mltreftab = trie.mltreftab := by
  unfold nuked
  split_ifs <;> rfl

theorem trimStep_reftab (trie : Mlt) (val : Mltval) (len nuke lvl ndx : Nat) (other : lvl ≠ len) :
    (trimStep trie val len nuke).mltreftab lvl ndx = trie.mltreftab lvl ndx := by
  have same := congrFun (congrFun (nuked_reftab trie val len nuke) lvl) ndx
  unfold trimStep
  split_ifs <;> simpa [Mlt.setRef, Mlt.setSlot, other] using same

theorem trimStep_lone (trie : Mlt) (val : Mltval) (len nuke lvl : Nat) (other : lvl ≠ len) :
    Lone (trimStep trie val len nuke) val lvl ↔ Lone trie val lvl := by
  unfold Lone
  rw [trimStep_reftab trie val len nuke lvl _ other]

theorem trim_unfold (val : Mltval) (trie : Mlt) (len nuke : Nat) (nref : Int) :
    mlttrimLoop (stack val (len + 1)) nuke nref trie =
      mlttrimLoop (stack val len) (if Lone trie val len then digit val len else 0) (trie.mltreftab len (digit val len) - 1) (trimStep trie val len nuke) := by
  have zero : trie.mltreftab len (digit val len) - 1 = 0 ↔ Lone trie val len := by
    unfold Lone
    omega
  have counts := congrFun (congrFun (nuked_reftab trie val len nuke) len) (digit val len)
  unfold nuked at counts
  simp only [stack, mlttrimLoop, stack_length, trimStep, nuked]
  rw [counts]
  simp only [zero]

theorem trimStep_slots (trie : Mlt) (val : Mltval) (len nuke : Nat) (ptr : List Nat) (away : Lone trie val len → ptr ≠ path val (len + 1))
    (off : nuke ≠ 0 → ptr ≠ path val (len + 1) ++ [nuke]) : (trimStep trie val len nuke).slots ptr = trie.slots ptr := by
  have kept : (nuked trie val len nuke).slots ptr = trie.slots ptr := by
    unfold nuked
    split_ifs with some_nuke
    · simp [Mlt.setSlot, off some_nuke.1]
    · rfl
  unfold trimStep
  split_ifs with lone
  · simpa [Mlt.setRef, Mlt.setSlot, away lone] using kept
  · exact kept

theorem trimStep_freed (trie : Mlt) (val : Mltval) (len nuke : Nat) (lone : Lone trie val len) :
    (trimStep trie val len nuke).slots (path val (len + 1)) = .freed := by
  simp [trimStep, lone, Mlt.setRef, Mlt.setSlot]

-- The loop changes the slots of the path whose count comes to zero, and no other.
theorem trim_off (val : Mltval) (len nuke : Nat) (nref : Int) (trie : Mlt) (ptr : List Nat)
    (away : ∀ lvl < len, Lone trie val lvl → ptr ≠ path val (lvl + 1)) (off : 0 < len → nuke ≠ 0 → ptr ≠ path val len ++ [nuke]) :
    (mlttrimLoop (stack val len) nuke nref trie).1.slots ptr = trie.slots ptr := by
  induction len generalizing nuke nref trie with
  | zero => rfl
  | succ len ih =>
    have now := away len (Nat.lt_succ_self len)
    rw [trim_unfold, ih _ _ _ (fun lvl early lone => ?_) (fun _ some_nuke => ?_), trimStep_slots trie val len nuke ptr now (off (Nat.succ_pos len))]
    · exact away lvl (by omega) ((trimStep_lone trie val len nuke lvl (by omega)).mp lone)
    · split_ifs at some_nuke ⊢ with lone
      · rw [← path_succ]
        exact now lone
      · exact absurd rfl some_nuke

theorem trim_nuke (val : Mltval) (len nuke : Nat) (nref : Int) (trie : Mlt) (within : len < mltnptrlvl) (some_nuke : nuke ≠ 0) :
    (mlttrimLoop (stack val (len + 1)) nuke nref trie).1.slots (path val (len + 1) ++ [nuke]) = .null := by
  have long : (path val (len + 1) ++ [nuke]).length = len + 2 := by simp [path_length]
  have apart : ∀ lvl ≤ len, path val (len + 1) ++ [nuke] ≠ path val (lvl + 1) := fun lvl early same => by
    rw [same, path_length] at long
    omega
  rw [trim_unfold, trim_off]
  · unfold trimStep nuked
    split_ifs <;> simp_all [Mlt.setRef, Mlt.setSlot]
  · exact fun lvl early _ => apart lvl (by omega)
  · intro _ _ same
    rw [same] at long
    simp [path_length] at long

theorem trim_lone (val : Mltval) (len nuke lvl : Nat) (nref : Int) (trie : Mlt) (within : len ≤ mltnptrlvl) (early : lvl < len)
    (lone : Lone trie val lvl) :
    (mlttrimLoop (stack val len) nuke nref trie).1.slots (path val (lvl + 1)) = if lvl = 0 ∨ digit val lvl = 0 then .freed else .null := by
  induction len generalizing nuke nref trie with
  | zero => exact absurd early (Nat.not_lt_zero lvl)
  | succ len ih =>
    rw [trim_unfold]
    rcases Nat.lt_succ_iff_lt_or_eq.mp early with old | rfl
    · exact ih _ _ _ (by omega) old ((trimStep_lone trie val len nuke lvl (by omega)).mpr lone)
    · rw [if_pos lone]
      by_cases stays : lvl = 0 ∨ digit val lvl = 0
      · rw [if_pos stays, trim_off]
        · exact trimStep_freed trie val lvl nuke lone
        · exact fun less before _ => path_ne val val _ _ (by omega)
        · exact fun below some_nuke => absurd (stays.resolve_left (Nat.pos_iff_ne_zero.mp below)) some_nuke
      · rw [if_neg stays]
        obtain ⟨above, rfl⟩ : ∃ above, lvl = above + 1 := Nat.exists_eq_succ_of_ne_zero fun zero => stays (Or.inl zero)
        rw [path_succ val (above + 1)]
        exact trim_nuke val above _ _ _ (by omega) fun zero => stays (Or.inr zero)

theorem trim_vals (stk : Stack) (nuke : Nat) (nref : Int) (trie : Mlt) : (mlttrimLoop stk nuke nref trie).1.vals = trie.vals := by
  induction stk generalizing nuke nref trie with
  | nil => rfl
  | cons top stk ih =>
    simp only [mlttrimLoop]
    rw [ih]
    split_ifs <;> rfl

theorem trim_count (val : Mltval) (len nuke : Nat) (nref : Int) (trie : Mlt) :
    (mlttrimLoop (stack val (len + 1)) nuke nref trie).2 = trie.mltreftab 0 (digit val 0) - 1 := by
  induction len generalizing nuke nref trie with
  | zero => rw [trim_unfold]; rfl
  | succ len ih => rw [trim_unfold, ih, trimStep_reftab trie val (len + 1) nuke 0 _ (by omega)]

-- The values that are added and not deleted since.
structure State where
  trie : Mlt
  present : Mltval → Bool

inductive Op
  | mltadd (val : Mltval)
  | mltdel (val : Mltval)
  deriving DecidableEq

def Op.val : Op → Mltval
  | .mltadd val => val
  | .mltdel val => val

def step (state : State) : Op → Option State
  | .mltadd val => (mltadd state.trie val).map (fun trie => ⟨trie, Function.update state.present val true⟩)
  | .mltdel val => (mltdel state.trie val).map (fun next => ⟨next.1, Function.update state.present val false⟩)

def start : State := ⟨⟨fun _ => .null, fun _ => mltinval, fun _ _ => 0⟩, fun _ => false⟩

-- A search that came to a freed table would have no result.
def Finds (state : State) : Prop := ∀ val, mltfind state.trie val = some (if state.present val then val else mltinval)

-- A table that a step takes away held no value that is left.
def Emptied (state : State) (op : Op) : Prop := ∀ next, step state op = some next → ∀ val lvl, val ≠ mltinval → lvl < 7 →
  state.trie.slots (path val (lvl + 1)) = .table → next.trie.slots (path val (lvl + 1)) ≠ .table → next.present val = false

-- Of the tables that a deletion frees, the one nearest to the root.
structure Topmost (trie : Mlt) (val : Mltval) (lvl : Nat) : Prop where
  lone : Lone trie val lvl
  above : ∀ less < lvl, ¬Lone trie val less

def Deletable (trie : Mlt) (val : Mltval) : Prop := Reached trie val 7 → ∀ lvl < 7, Topmost trie val lvl →
  lvl ≠ 0 ∧ digit val lvl ≠ 0 ∧ ∀ other, other ≠ val → Shares val other (lvl + 1) → mltfind trie other = some mltinval

def Cond (state : State) : Op → Prop
  | .mltadd _ => True
  | .mltdel val => Deletable state.trie val

theorem topmost_or (trie : Mlt) (val : Mltval) (len : Nat) : (∀ lvl < len, ¬Lone trie val lvl) ∨ ∃ lvl < len, Topmost trie val lvl := by
  induction len with
  | zero => exact Or.inl fun lvl early => absurd early (Nat.not_lt_zero lvl)
  | succ len ih =>
    rcases ih with none_lone | ⟨lvl, early, top⟩
    · by_cases lone : Lone trie val len
      · exact Or.inr ⟨len, Nat.lt_succ_self len, lone, none_lone⟩
      · left
        intro lvl early
        rcases Nat.lt_succ_iff_lt_or_eq.mp early with old | rfl
        · exact none_lone lvl old
        · exact lone
    · exact Or.inr ⟨lvl, by omega, top⟩

-- A path that leaves the deleted one above every freed table is as it was.
theorem trim_find (trie : Mlt) (val other : Mltval) (different : other ≠ val)
    (away : ∀ lvl < 7, Lone trie val lvl → ¬Shares val other (lvl + 1)) :
    mltfind (mlttrim (stack val 7) (erased trie val)).1 other = mltfind trie other := by
  rw [← setVal_find_other trie val other mltinval different]
  refine find_congr (erased trie val) _ other (fun lvl early => ?_) (congrFun (trim_vals _ _ _ _) _)
  refine trim_off val 7 0 (-1) (erased trie val) _ (fun less early lone same => ?_) (fun _ some_nuke => absurd rfl some_nuke)
  have level : lvl = less := by
    by_contra apart
    exact path_ne other val _ _ (by omega) same
  subst level
  exact away lvl early lone same.symm

theorem trim_reached (trie : Mlt) (val other : Mltval) (lvl : Nat) (within : lvl < 7) (reached : Reached trie val 7) (top : Topmost trie val lvl)
    (shares : Shares val other lvl) : Reached (mlttrim (stack val 7) (erased trie val)).1 other lvl := by
  intro less early
  rw [← shares_less val other lvl (less + 1) shares (by omega)]
  refine (trim_off val 7 0 (-1) (erased trie val) _ (fun more before lone same => ?_) (fun _ some_nuke => absurd rfl some_nuke)).trans (reached less (by omega))
  have level : less = more := by
    by_contra apart
    exact path_ne val val _ _ (by omega) same
  subst level
  exact top.above less early lone

theorem trim_topmost (trie : Mlt) (val : Mltval) (lvl : Nat) (within : lvl < 7) (top : Topmost trie val lvl) :
    (mlttrim (stack val 7) (erased trie val)).1.slots (path val (lvl + 1)) = if lvl = 0 ∨ digit val lvl = 0 then .freed else .null :=
  trim_lone val 7 0 lvl (-1) (erased trie val) (Nat.le_refl 7) within top.lone

theorem trim_zero (trie : Mlt) (val : Mltval) : (mlttrim (stack val 7) (erased trie val)).2 = 0 ↔ Lone trie val 0 := by
  have count := trim_count val 6 0 (-1) (erased trie val)
  have same : (erased trie val).mltreftab 0 (digit val 0) = trie.mltreftab 0 (digit val 0) := rfl
  rw [same] at count
  unfold mlttrim Lone
  rw [count]
  omega

-- What mltdel leaves of the searches.
structure Deleted (trie next : Mlt) (val : Mltval) : Prop where
  gone : mltfind next val = some mltinval
  others : ∀ other, other ≠ val → mltfind next other = mltfind trie other

theorem del_deleted (trie : Mlt) (val : Mltval) (reached : Reached trie val 7) (deletable : Deletable trie val) :
    ∃ next, mltdel trie val = some (next, 0) ∧ Deleted trie next val := by
  have counted : ¬Lone trie val 0 := by
    intro lone
    exact (deletable reached 0 (by decide) ⟨lone, fun less early => absurd early (Nat.not_lt_zero less)⟩).1 rfl
  rw [del_reached trie val reached, if_neg (fun zero => counted ((trim_zero trie val).mp zero))]
  refine ⟨_, rfl, ?_⟩
  rcases topmost_or trie val 7 with none_lone | ⟨lvl, early, top⟩
  · refine ⟨?_, fun other different => trim_find trie val other different fun lvl early lone => absurd lone (none_lone lvl early)⟩
    rw [find_reached, mlttrim, trim_vals, erased]
    · simp [Mlt.setVal]
    · intro lvl early
      refine (trim_off val 7 0 (-1) (erased trie val) _ (fun less early lone => ?_) (fun _ some_nuke => absurd rfl some_nuke)).trans (reached lvl early)
      exact absurd lone (none_lone less early)
  · obtain ⟨inner, some_digit, alone⟩ := deletable reached lvl early top
    have null : (mlttrim (stack val 7) (erased trie val)).1.slots (path val (lvl + 1)) = .null := by
      rw [trim_topmost trie val lvl early top, if_neg (by simp [inner, some_digit])]
    have under : ∀ other, Shares val other (lvl + 1) → mltfind (mlttrim (stack val 7) (erased trie val)).1 other = some mltinval := by
      intro other shares
      refine find_null _ other lvl early (trim_reached trie val other lvl early reached top (shares_less val other _ _ shares (by omega))) ?_
      rw [← shares]
      exact null
    refine ⟨under val rfl, fun other different => ?_⟩
    by_cases shares : Shares val other (lvl + 1)
    · rw [under other shares, alone other different shares]
    · refine trim_find trie val other different fun more before lone shared => shares (shares_less val other _ _ shared ?_)
      by_contra deeper
      exact top.above more (by omega) lone

-- A deletion that leaves every search defined met the condition.
theorem del_only (state next : State) (val : Mltval) (finds : Finds state) (done : step state (.mltdel val) = some next) (later : Finds next) :
    Deletable state.trie val := by
  intro reached lvl early top
  obtain ⟨after, deleted, rfl⟩ := Option.map_eq_some_iff.mp done
  have slot := trim_topmost state.trie val lvl early top
  have above := trim_reached state.trie val val lvl early reached top rfl
  rw [del_reached state.trie val reached] at deleted
  by_cases zero : (mlttrim (stack val 7) (erased state.trie val)).2 = 0
  · rw [if_pos zero] at deleted
    obtain ⟨cleared, kept, rfl⟩ := Option.map_eq_some_iff.mp deleted
    have lone := (trim_zero state.trie val).mp zero
    have top0 : Topmost state.trie val 0 := ⟨lone, fun less before => absurd before (Nat.not_lt_zero less)⟩
    have freed : (mlttrim (stack val 7) (erased state.trie val)).1.slots (path val (0 + 1)) = .freed := trim_topmost state.trie val 0 (by decide) top0
    unfold clearRoot at kept
    split_ifs at kept with table
    cases kept
    have lost := find_freed ((mlttrim (stack val 7) (erased state.trie val)).1.setVal (path val 7 ++ [mltkey0 val]) 0) val 0 (by decide)
      (fun less before => absurd before (Nat.not_lt_zero less)) freed
    have total := later val
    rw [lost] at total
    cases total
  · rw [if_neg zero] at deleted
    cases deleted
    have inner : lvl ≠ 0 := by
      rintro rfl
      exact zero ((trim_zero state.trie val).mpr top.lone)
    have some_digit : digit val lvl ≠ 0 := by
      intro none_digit
      rw [if_pos (Or.inr none_digit)] at slot
      have lost := find_freed _ val lvl early above slot
      have total := later val
      rw [lost] at total
      cases total
    refine ⟨inner, some_digit, fun other different shares => ?_⟩
    rw [if_neg (by simp [inner, some_digit])] at slot
    have below := trim_reached state.trie val other lvl early reached top (shares_less val other _ _ shares (by omega))
    rw [shares] at slot
    have gone := find_null _ other lvl early below slot
    have after := later other
    have before := finds other
    rw [gone] at after
    have absent : state.present other = true → other = mltinval := by
      intro here
      simpa [Function.update_of_ne different, here] using after.symm
    rw [before]
    split_ifs with here
    · rw [absent here]
    · rfl

theorem emptied_of_finds (state next : State) (op : Op) (done : step state op = some next) (finds : Finds next) : Emptied state op := by
  intro other same val lvl some_val early _ gone
  rw [done] at same
  cases same
  have found := finds val
  rcases find_cases next.trie val with reached | ⟨less, before, above, null | freed⟩
  · exact absurd (reached lvl early) gone
  · rw [find_null next.trie val less before above null] at found
    by_contra here
    rw [Bool.not_eq_false] at here
    rw [here] at found
    exact some_val (Option.some.inj found).symm
  · rw [find_freed next.trie val less before above freed] at found
    cases found

theorem add_finds (state : State) (val : Mltval) (finds : Finds state) : ∃ next, step state (.mltadd val) = some next ∧ Finds next := by
  obtain ⟨after, added, result⟩ := mltadd_added state.trie val (by rw [finds val]; simp)
  refine ⟨⟨after, Function.update state.present val true⟩, by simp [step, added], fun other => ?_⟩
  by_cases same : other = val
  · subst same
    simpa using result.found
  · rw [result.others other same, finds other]
    simp [same]

theorem del_finds (state : State) (val : Mltval) (finds : Finds state) (deletable : Deletable state.trie val) :
    ∃ next, step state (.mltdel val) = some next ∧ Finds next := by
  have kept : ∀ after out, mltdel state.trie val = some (after, out) → mltfind after val = some mltinval →
      (∀ other, other ≠ val → mltfind after other = mltfind state.trie other) → ∃ next, step state (.mltdel val) = some next ∧ Finds next := by
    intro after out deleted gone others
    refine ⟨⟨after, Function.update state.present val false⟩, by simp [step, deleted], fun other => ?_⟩
    by_cases same : other = val
    · subst same
      simpa using gone
    · rw [others other same, finds other]
      simp [same]
  rcases find_cases state.trie val with reached | ⟨lvl, early, reached, null | freed⟩
  · obtain ⟨after, deleted, result⟩ := del_deleted state.trie val reached deletable
    exact kept after 0 deleted result.gone result.others
  · exact kept state.trie (-1) (del_missing state.trie val lvl early reached null) (find_null state.trie val lvl early reached null) fun _ _ => rfl
  · have total := finds val
    rw [find_freed state.trie val lvl early reached freed] at total
    cases total

theorem start_finds : Finds start := by
  intro val
  rw [find_null start.trie val 0 (by decide) (fun lvl early => absurd early (Nat.not_lt_zero lvl)) rfl]
  rfl

theorem step_exact (state : State) (op : Op) (finds : Finds state) :
    (Emptied state op ∧ ∃ next, step state op = some next ∧ Finds next) ↔ Cond state op := by
  have emptied : (∃ next, step state op = some next ∧ Finds next) → Emptied state op := fun ⟨next, done, later⟩ =>
    emptied_of_finds state next op done later
  cases op with
  | mltadd val =>
    have added := add_finds state val finds
    exact ⟨fun _ => trivial, fun _ => ⟨emptied added, added⟩⟩
  | mltdel val =>
    constructor
    · rintro ⟨-, next, done, later⟩
      exact del_only state next val finds done later
    · intro deletable
      have deleted := del_finds state val finds deletable
      exact ⟨emptied deleted, deleted⟩

theorem mlt_holds (ops : List Op) : Runs.Holds step Finds Emptied start ops ↔ Runs.Meets step Cond start ops :=
  Runs.holds_iff_meets_kept step Finds Emptied Cond (fun _ => True) (fun state op finds _ => step_exact state op finds) start ops start_finds
    fun _ _ => trivial

-- Counts of one on every level: the root's slot keeps the freed table.
theorem mlt_fails : ¬∀ ops : List Op, (∀ op ∈ ops, op.val ≠ mltinval) → Runs.Holds step Finds Emptied start ops := by
  intro all
  obtain ⟨-, -, first, added, -, -, second, deleted, -⟩ := all [.mltadd 1, .mltdel 1] (by decide)
  have faults : ((step start (.mltadd 1)).bind (fun state => step state (.mltdel 1))).isNone = true := by decide +kernel
  rw [added, Option.bind_some, deleted] at faults
  cases faults

end OsZero.Trie

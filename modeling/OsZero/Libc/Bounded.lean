import OsZero.Lib.Cstring
import OsZero.Lib.Stores

set_option autoImplicit false

namespace OsZero.Libc

open Cstring Stores

-- while ((*src) && (n--)) *cptr++ = *src++, where cptr is cstr bytes into dest when src
-- is at its start: n and the place in src behind the loop.
def copyloop (src : Nat → UInt8) (cstr : Nat) : Nat → Nat → Mem UInt8 → Nat × Nat × Mem UInt8
  | 0, i, dest => if src i ≠ 0 then (SIZE_MAX, i, dest) else (0, i, dest)
  | n + 1, i, dest => if src i ≠ 0 then copyloop src cstr n (i + 1) (dest.put (cstr + i) (src i)) else (n + 1, i, dest)

def strncpy (dest : Mem UInt8) (src : Nat → UInt8) (n : Nat) : Mem UInt8 :=
  if n ≠ 0 then
    let ends := copyloop src 0 n 0 dest
    if ends.1 ≠ 0 then ends.2.2.put ends.2.1 (src ends.2.1) else ends.2.2
  else dest

def strncat (room : Nat) (dest : Mem UInt8) (src : Nat → UInt8) (n : Nat) : Option (Mem UInt8) :=
  if n ≠ 0 then do
    let cstr ← advance (fun i => dest.cell i ≠ 0) room 0
    let ends := copyloop src cstr n 0 dest
    some (if ends.1 ≠ 0 then ends.2.2.put (cstr + ends.2.1) (src ends.2.1) else ends.2.2)
  else some dest

theorem countdown_le (p : Nat → Bool) (n i : Nat) : i ≤ (countdown p n i).2 := by
  obtain ⟨k, -, -, ⟨-, ends⟩ | ⟨-, -, ends⟩⟩ := countdown_stops p n i
  · rw [ends]
    exact Nat.le_add_right i k
  · rw [ends]
    exact Nat.le_add_right i k

theorem copyloop_eq (src : Nat → UInt8) (cstr n i : Nat) (dest : Mem UInt8) : copyloop src cstr n i dest =
    ((countdown (fun i => src i ≠ 0) n i).1, (countdown (fun i => src i ≠ 0) n i).2,
      dest.fill (cstr + i) (slice src i (countdown (fun i => src i ≠ 0) n i).2)) := by
  induction n generalizing i dest with
  | zero =>
    rw [copyloop, countdown]
    by_cases more : src i ≠ 0
    · rw [if_pos more, if_pos (decide_eq_true more), slice_empty, Mem.fill]
    · rw [if_neg more, if_neg (by simpa using more), slice_empty, Mem.fill]
  | succ n ih =>
    rw [copyloop, countdown]
    by_cases more : src i ≠ 0
    · have further : i < (countdown (fun i => src i ≠ 0) n (i + 1)).2 := countdown_le _ n (i + 1)
      rw [if_pos more, if_pos (decide_eq_true more), ih, slice_cons src i _ further, Mem.fill, Nat.add_assoc]
    · rw [if_neg more, if_neg (by simpa using more), slice_empty, Mem.fill]

-- A bound that runs out in front of the source is past zero behind the loop.
theorem copyloop_cstr (src : Cstr) (cstr n : Nat) (dest : Mem UInt8) : copyloop src.buf cstr n 0 dest =
    (if src.len ≤ n then n - src.len else SIZE_MAX, min n src.len, dest.fill cstr (slice src.buf 0 (min n src.len))) := by
  obtain ⟨k, low, run, ends⟩ := countdown_stops (fun i => src.buf i ≠ 0) n 0
  simp only [Nat.zero_add, decide_eq_true_eq, decide_eq_false_iff_not, not_not] at run ends
  have inside : k ≤ src.len := Nat.le_of_not_lt fun less => run src.len less src.nul
  rw [copyloop_eq, Nat.add_zero]
  rcases ends with ⟨nul, stop⟩ | ⟨rfl, more, stop⟩
  · have last : k = src.len := Nat.le_antisymm inside (Nat.le_of_not_lt fun less => src.before k less nul)
    rw [stop, last, if_pos (last ▸ low), Nat.min_eq_right (last ▸ low)]
  · have less : k < src.len := Nat.lt_of_le_of_ne inside fun last => more (last ▸ src.nul)
    rw [stop, if_neg (Nat.not_le_of_lt less), Nat.min_eq_left inside]

-- What strncpy has to leave: the string, and NULs up to the bound.
def Fills (src : Cstr) (n : Nat) (dest : Nat → UInt8) (after : Mem UInt8) : Prop :=
  after.Within 0 n ∧ (∀ i, n ≤ i → after.cell i = dest i) ∧
    ∀ i, i < n → after.cell i = if i < src.len then src.buf i else 0

-- What strncat has to leave behind the string that dest holds.
def Appends (dest src : Cstr) (n : Nat) (after : Mem UInt8) : Prop :=
  after.Within dest.len (dest.len + min n src.len + 1) ∧
    (∀ i, i < dest.len ∨ dest.len + min n src.len < i → after.cell i = dest.buf i) ∧
    (∀ i, i < min n src.len → after.cell (dest.len + i) = src.buf i) ∧ after.cell (dest.len + min n src.len) = 0

theorem slice_getElem (buf : Nat → UInt8) (lim i : Nat) (inside : i < lim) : (slice buf 0 lim)[i]? = some (buf i) := by
  rw [slice, Nat.sub_zero, List.getElem?_map, List.getElem?_range inside, Option.map_some, Nat.zero_add]

-- The bytes that both functions copy.
theorem copied_cell (src : Cstr) (cstr lim i : Nat) (dest : Nat → UInt8) (inside : i < lim) :
    (Mem.fill ⟨dest, []⟩ cstr (slice src.buf 0 lim)).cell (cstr + i) = src.buf i :=
  fill_inside _ cstr i _ _ (slice_getElem src.buf lim i inside)

theorem uncopied_cell (src : Cstr) (cstr lim i : Nat) (dest : Nat → UInt8) (outside : i < cstr ∨ cstr + lim ≤ i) :
    (Mem.fill ⟨dest, []⟩ cstr (slice src.buf 0 lim)).cell i = dest i := by
  apply fill_outside
  rwa [slice_length, Nat.sub_zero]

theorem copied_within (src : Cstr) (cstr lim high : Nat) (dest : Nat → UInt8) (inside : cstr + lim ≤ high) :
    (Mem.fill ⟨dest, []⟩ cstr (slice src.buf 0 lim)).Within cstr high := by
  intro i member
  rw [fill_stored, slice_length, Nat.sub_zero, List.nil_append, List.mem_range'_1] at member
  exact ⟨member.1, Nat.lt_of_lt_of_le member.2 inside⟩

theorem strncpy_short (src : Cstr) (n : Nat) (dest : Mem UInt8) (short : src.len < n) :
    strncpy dest src.buf n = (dest.fill 0 (slice src.buf 0 src.len)).put src.len 0 := by
  rw [strncpy, if_pos (Nat.ne_zero_of_lt short), copyloop_cstr]
  dsimp only
  rw [if_pos (Nat.le_of_lt short), if_pos (Nat.sub_ne_zero_of_lt short), Nat.min_eq_right (Nat.le_of_lt short), src.nul]

theorem strncpy_full (src : Cstr) (dest : Mem UInt8) : strncpy dest src.buf src.len = dest.fill 0 (slice src.buf 0 src.len) := by
  by_cases empty : src.len = 0
  · rw [strncpy, empty, if_neg (not_not_intro rfl), slice_empty, Mem.fill]
  · rw [strncpy, if_pos empty, copyloop_cstr]
    dsimp only
    rw [if_pos (Nat.le_refl _), Nat.sub_self, if_neg (not_not_intro rfl), Nat.min_self]

theorem strncpy_long (src : Cstr) (n : Nat) (dest : Mem UInt8) (some_bytes : n ≠ 0) (long : n < src.len) :
    strncpy dest src.buf n = (dest.fill 0 (slice src.buf 0 n)).put n (src.buf n) := by
  rw [strncpy, if_pos some_bytes, copyloop_cstr]
  dsimp only
  rw [if_neg (Nat.not_le_of_lt long), if_pos size_max_ne_zero, Nat.min_eq_left (Nat.le_of_lt long)]

theorem strncpy_fills_iff (src : Cstr) (n : Nat) : (∀ dest, Fills src n dest (strncpy ⟨dest, []⟩ src.buf n)) ↔
    n = 0 ∨ src.len = n ∨ src.len + 1 = n := by
  rcases Nat.lt_trichotomy src.len n with short | same | long
  · constructor
    · intro fills
      refine .inr (.inr (Nat.le_antisymm short (Nat.le_of_not_lt fun gap => ?_)))
      have rest := (fills fun _ => 1).2.2 (src.len + 1) gap
      rw [strncpy_short src n _ short, put_cell_of_ne _ _ _ _ (Nat.succ_ne_self _), uncopied_cell src 0 _ _ _ (.inr (by omega)),
        if_neg (by omega)] at rest
      contradiction
    · intro bound dest
      rw [strncpy_short src n _ short]
      have last : n = src.len + 1 := by omega
      subst last
      refine ⟨put_within _ _ _ _ _ (copied_within src 0 _ _ _ (by omega)) (Nat.zero_le _) (Nat.lt_succ_self _), fun i high => ?_, fun i low => ?_⟩
      · rw [put_cell_of_ne _ _ _ _ (by omega), uncopied_cell src 0 _ _ _ (.inr (by omega))]
      · by_cases inside : i < src.len
        · have copied := copied_cell src 0 src.len i dest inside
          rw [Nat.zero_add] at copied
          rw [put_cell_of_ne _ _ _ _ (Nat.ne_of_lt inside), copied, if_pos inside]
        · have atEnd : i = src.len := by omega
          rw [atEnd, put_cell_self, if_neg (Nat.lt_irrefl _)]
  · refine iff_of_true (fun dest => ?_) (.inr (.inl same))
    rw [← same, strncpy_full]
    refine ⟨copied_within src 0 _ _ _ (by omega), fun i high => uncopied_cell src 0 _ _ _ (.inr (by omega)), fun i low => ?_⟩
    have copied := copied_cell src 0 src.len i dest low
    rw [Nat.zero_add] at copied
    rw [copied, if_pos low]
  · by_cases empty : n = 0
    · subst empty
      exact iff_of_true (fun dest => ⟨fun _ member => absurd member List.not_mem_nil, fun _ _ => rfl, fun i low => absurd low (Nat.not_lt_zero i)⟩)
        (.inl rfl)
    · refine iff_of_false (fun fills => ?_) (by omega)
      have stores := (fills fun _ => 0).1 n (by
        rw [strncpy_long src n _ empty long, put_stored]
        exact List.mem_append_right _ List.mem_cons_self)
      exact Nat.lt_irrefl n stores.2

theorem advance_len (dest : Cstr) (more : Nat) : advance (fun i => dest.buf i ≠ 0) (dest.len + 1 + more) 0 = some dest.len := by
  obtain ⟨pos, found, -, low, ends, -⟩ := advance_stops (fun i => dest.buf i ≠ 0) (dest.len + 1 + more) 0 dest.len
    (by simpa using dest.nul) (Nat.zero_le _) (by omega)
  simp only [decide_eq_false_iff_not, not_not] at ends
  rw [found, Nat.le_antisymm low (Nat.le_of_not_lt fun less => dest.before pos less ends)]

theorem strncat_eq (dest src : Cstr) (n more : Nat) (some_bytes : n ≠ 0) :
    strncat (dest.len + 1 + more) ⟨dest.buf, []⟩ src.buf n =
      some (if n = src.len then Mem.fill ⟨dest.buf, []⟩ dest.len (slice src.buf 0 (min n src.len))
        else (Mem.fill ⟨dest.buf, []⟩ dest.len (slice src.buf 0 (min n src.len))).put (dest.len + min n src.len) (src.buf (min n src.len))) := by
  rw [strncat, if_pos some_bytes, advance_len]
  simp only [Option.bind_eq_bind, Option.bind_some, copyloop_cstr]
  rcases Nat.lt_trichotomy src.len n with short | rfl | long
  · rw [if_pos (Nat.le_of_lt short), if_pos (Nat.sub_ne_zero_of_lt short), if_neg (Nat.ne_of_gt short)]
  · rw [if_pos (Nat.le_refl _), Nat.sub_self, if_neg (not_not_intro rfl), if_pos rfl]
  · rw [if_neg (Nat.not_le_of_lt long), if_pos size_max_ne_zero, if_neg (Nat.ne_of_lt long)]

-- A string without bytes, with other bytes behind its end.
def cleared : Cstr := ⟨fun i => if i = 0 then 0 else 1, 0, rfl, fun i low => absurd low (Nat.not_lt_zero i)⟩

theorem strncat_appends_iff (src : Cstr) (n more : Nat) :
    (∀ dest : Cstr, ∃ after, strncat (dest.len + 1 + more) ⟨dest.buf, []⟩ src.buf n = some after ∧ Appends dest src n after) ↔
      n = 0 ∨ src.len < n := by
  by_cases empty : n = 0
  · subst empty
    refine iff_of_true (fun dest => ⟨_, rfl, fun _ member => absurd member List.not_mem_nil, fun _ _ => rfl, fun i low => ?_, ?_⟩) (.inl rfl)
    · rw [Nat.zero_min] at low
      exact absurd low (Nat.not_lt_zero i)
    · rw [Nat.zero_min]
      exact dest.nul
  · rw [or_iff_right empty]
    constructor
    · intro appends
      apply Nat.lt_of_not_le
      intro long
      obtain ⟨after, taken, -, -, -, nul⟩ := appends cleared
      rw [strncat_eq cleared src n more empty, Option.some.injEq, Nat.min_eq_left long] at taken
      rw [Nat.min_eq_left long] at nul
      by_cases same : n = src.len
      · rw [if_pos same] at taken
        rw [← taken, uncopied_cell src cleared.len n _ _ (.inr (Nat.le_refl _))] at nul
        have behind : cleared.buf (cleared.len + n) = 1 := if_neg (by rw [cleared]; omega)
        rw [behind] at nul
        contradiction
      · rw [if_neg same] at taken
        rw [← taken, put_cell_self] at nul
        exact src.before n (Nat.lt_of_le_of_ne long same) nul
    · intro short dest
      refine ⟨_, strncat_eq dest src n more empty, ?_⟩
      rw [if_neg (Nat.ne_of_gt short), Nat.min_eq_right (Nat.le_of_lt short), src.nul]
      rw [Appends, Nat.min_eq_right (Nat.le_of_lt short)]
      refine ⟨put_within _ _ _ _ _ (copied_within src dest.len _ _ _ (by omega)) (by omega) (by omega), fun i outside => ?_, fun i low => ?_,
        put_cell_self _ _ _⟩
      · rw [put_cell_of_ne _ _ _ _ (by omega), uncopied_cell src dest.len _ _ _ (by omega)]
      · rw [put_cell_of_ne _ _ _ _ (by omega), copied_cell src dest.len src.len i dest.buf low]

-- The bound of strncpy and of strncat is kept by a source that ends in front of it, and
-- the rest of the bound is filled by one that leaves no more than the place of its NUL.
theorem bounded_copies_iff (src : Cstr) (n : Nat) :
    ((∀ dest, Fills src n dest (strncpy ⟨dest, []⟩ src.buf n)) ↔ n = 0 ∨ src.len = n ∨ src.len + 1 = n) ∧
      ∀ more, (∀ dest : Cstr, ∃ after, strncat (dest.len + 1 + more) ⟨dest.buf, []⟩ src.buf n = some after ∧ Appends dest src n after) ↔
        n = 0 ∨ src.len < n := ⟨strncpy_fills_iff src n, strncat_appends_iff src n⟩

def three : Cstr := ⟨fun i => (text "abc").getD i 0, 3, rfl, by decide⟩

theorem bound_stored_into : ¬ Fills three 2 (fun _ => 0) (strncpy ⟨fun _ => 0, []⟩ three.buf 2) ∧
    ¬ ∃ after, strncat 1 ⟨cleared.buf, []⟩ three.buf 2 = some after ∧ Appends cleared three 2 after := by
  constructor
  · intro fills
    have store : 2 ∈ (strncpy ⟨fun _ => 0, []⟩ three.buf 2).stored := by decide
    exact Nat.lt_irrefl 2 (fills.1 2 store).2
  · rintro ⟨after, taken, -, -, -, nul⟩
    have last : (strncat 1 ⟨cleared.buf, []⟩ three.buf 2).map (fun after => after.cell 2) = some (code 'c') := by decide
    rw [taken, Option.map_some, Option.some.injEq] at last
    exact absurd (nul.symm.trans last) (by decide)

end OsZero.Libc

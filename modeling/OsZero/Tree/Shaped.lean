import OsZero.Tree.Trie

set_option autoImplicit false

namespace OsZero.Trie

-- Which tables a trie has, and what its tables of values hold.
structure Shaped (trie : Mlt) (vals : List Mltval) (reached : List Nat → Prop) : Prop where
  table : ∀ ptr, 0 < ptr.length → ptr.length ≤ 7 → reached ptr → trie.slots ptr = .table
  null : ∀ ptr, 0 < ptr.length → ptr.length ≤ 7 → ¬reached ptr → trie.slots ptr = .null
  found : ∀ val ∈ vals, trie.vals (path val 8) = val
  bare : ∀ ptr, ptr.length = 8 → reached ptr.dropLast → (∀ val ∈ vals, path val 8 ≠ ptr) → trie.vals ptr = mltinval

-- The tables on the way to a value.
def Leads (vals : List Mltval) (ptr : List Nat) : Prop := ∃ val ∈ vals, path val ptr.length = ptr

-- Those, and the first ones on the way to a value that is being added.
def Adding (vals : List Mltval) (val : Mltval) (len : Nat) (ptr : List Nat) : Prop := Leads vals ptr ∨ ptr.length ≤ len ∧ path val ptr.length = ptr

def Stored (trie : Mlt) (vals : List Mltval) : Prop := Shaped trie vals (Leads vals)

theorem leads_dropLast (vals : List Mltval) (ptr : List Nat) (some_ptr : 0 < ptr.length) (leads : Leads vals ptr) : Leads vals ptr.dropLast := by
  obtain ⟨val, member, way⟩ := leads
  refine ⟨val, member, ?_⟩
  have split : ptr.length = ptr.length - 1 + 1 := by omega
  rw [split, path_succ] at way
  rw [← way, List.dropLast_concat, path_length]

theorem adding_next (vals : List Mltval) (val : Mltval) (len : Nat) (ptr : List Nat) :
    Adding vals val (len + 1) ptr ↔ Adding vals val len ptr ∨ ptr = path val (len + 1) := by
  constructor
  · rintro (leads | ⟨short, way⟩)
    · exact .inl (.inl leads)
    · rcases Nat.lt_or_eq_of_le short with less | same
      · exact .inl (.inr ⟨by omega, way⟩)
      · exact .inr (by rw [← same, way])
  · rintro ((leads | ⟨short, way⟩) | rfl)
    · exact .inl leads
    · exact .inr ⟨by omega, way⟩
    · exact .inr ⟨Nat.le_of_eq (path_length val (len + 1)), by rw [path_length]⟩

theorem start_stored : Stored start.trie [] := by
  refine ⟨fun ptr _ _ leads => ?_, fun _ _ _ _ => rfl, fun val member => absurd member List.not_mem_nil, fun _ _ _ _ => rfl⟩
  obtain ⟨val, member, -⟩ := leads
  exact absurd member List.not_mem_nil

section Adding

variable (trie : Mlt) (vals : List Mltval) (val : Mltval) (len : Nat) (shaped : Shaped trie vals (Adding vals val len))

theorem shaped_table (shaped : Shaped trie vals (Adding vals val len)) (there : Adding vals val len (path val (len + 1))) :
    Shaped trie vals (Adding vals val (len + 1)) := by
  have same : ∀ ptr, Adding vals val (len + 1) ptr ↔ Adding vals val len ptr := fun ptr =>
    (adding_next vals val len ptr).trans (or_iff_left_of_imp fun here => by rwa [here])
  exact ⟨fun ptr some_ptr short reached => shaped.table ptr some_ptr short ((same ptr).mp reached),
    fun ptr some_ptr short off => shaped.null ptr some_ptr short fun reached => off ((same ptr).mpr reached), shaped.found,
    fun ptr long reached other => shaped.bare ptr long ((same _).mp reached) other⟩

theorem inside_iff (tab ptr : List Nat) : inside tab ptr = true ↔ ptr.dropLast = tab ∧ ptr ≠ [] := decide_eq_true_iff

-- No table hangs below a slot that is empty.
theorem off_below (null : ¬Adding vals val len (path val (len + 1))) (ptr : List Nat) (within : inside (path val (len + 1)) ptr = true) :
    ¬Adding vals val (len + 1) ptr := by
  obtain ⟨below, some_ptr⟩ := (inside_iff _ _).mp within
  have long := congrArg List.length below
  rw [List.length_dropLast, path_length] at long
  rintro (leads | ⟨short, -⟩)
  · have above := leads_dropLast vals ptr (List.length_pos_iff.mpr some_ptr) leads
    rw [below] at above
    exact null (.inl above)
  · omega

include shaped

theorem getptrtab_shaped (within : len + 1 < 7) (null : ¬Adding vals val len (path val (len + 1))) :
    Shaped (mltgetptrtab trie (path val (len + 1))) vals (Adding vals val (len + 1)) := by
  refine ⟨fun ptr some_ptr short reached => ?_, fun ptr some_ptr short off => ?_, shaped.found, fun ptr long reached other => ?_⟩
  · have outside : ¬inside (path val (len + 1)) ptr = true := fun within => off_below vals val len null ptr within reached
    rcases (adding_next vals val len ptr).mp reached with before | rfl
    · simp only [mltgetptrtab, if_neg outside, shaped.table ptr some_ptr short before, ite_self]
    · exact if_pos rfl
  · rw [adding_next, not_or] at off
    simp only [mltgetptrtab, if_neg off.2, shaped.null ptr some_ptr short off.1, ite_self]
  · refine shaped.bare ptr long ?_ other
    refine ((adding_next vals val len _).mp reached).resolve_right fun here => ?_
    have short := congrArg List.length here
    rw [List.length_dropLast, path_length] at short
    omega

theorem getvaltab_shaped (last : len + 1 = 7) (null : ¬Adding vals val len (path val (len + 1))) :
    Shaped (mltgetvaltab trie (path val (len + 1))) vals (Adding vals val (len + 1)) := by
  refine ⟨fun ptr some_ptr short reached => ?_, fun ptr some_ptr short off => ?_, fun stored member => ?_, fun ptr long reached other => ?_⟩
  · simp only [mltgetvaltab, Function.update_apply]
    split_ifs with here
    · rfl
    · exact shaped.table ptr some_ptr short (((adding_next vals val len ptr).mp reached).resolve_right here)
  · rw [adding_next, not_or] at off
    simp only [mltgetvaltab, Function.update_of_ne off.2]
    exact shaped.null ptr some_ptr short off.1
  · have outside : ¬inside (path val (len + 1)) (path stored 8) = true := fun within => by
      obtain ⟨below, -⟩ := (inside_iff _ _).mp within
      rw [path_succ, List.dropLast_concat] at below
      exact null (.inl ⟨stored, member, by rw [path_length, last, below, last]⟩)
    simp only [mltgetvaltab, if_neg outside]
    exact shaped.found stored member
  · simp only [mltgetvaltab]
    split_ifs with within
    · rfl
    · refine shaped.bare ptr long (((adding_next vals val len _).mp reached).resolve_right fun here => within ?_) other
      exact (inside_iff _ _).mpr ⟨here, fun empty => by rw [empty] at long; exact absurd long (by decide)⟩

theorem setVal_shaped (full : len = 7) : Stored (trie.setVal (path val 8) val) (val :: vals) := by
  subst full
  have reached : ∀ ptr, ptr.length ≤ 7 → (Leads (val :: vals) ptr ↔ Adding vals val 7 ptr) := by
    intro ptr short
    simp only [Leads, Adding, List.mem_cons, exists_eq_or_imp, short, true_and]
    exact or_comm
  refine ⟨fun ptr some_ptr short leads => shaped.table ptr some_ptr short ((reached ptr short).mp leads),
    fun ptr some_ptr short off => shaped.null ptr some_ptr short fun adding => off ((reached ptr short).mpr adding), fun stored member => ?_,
    fun ptr long leads other => ?_⟩
  · by_cases same : path stored 8 = path val 8
    · rw [digits_all stored val same]
      exact Function.update_self _ _ _
    · refine (Function.update_of_ne same _ _).trans (shaped.found stored ((List.mem_cons.mp member).resolve_left fun here => same (by rw [here])))
  · have below : ptr.dropLast.length ≤ 7 := by
      rw [List.length_dropLast]
      omega
    refine (Function.update_of_ne (Ne.symm (other val List.mem_cons_self)) _ _).trans ?_
    exact shaped.bare ptr long ((reached _ below).mp leads) fun stored member => other stored (List.mem_cons_of_mem val member)

end Adding

theorem setRef_shaped (trie : Mlt) (vals : List Mltval) (reached : List Nat → Prop) (lvl ndx : Nat) (nref : Int) (shaped : Shaped trie vals reached) :
    Shaped (trie.setRef lvl ndx nref) vals reached := ⟨shaped.table, shaped.null, shaped.found, shaped.bare⟩

theorem addLoop_stored (vals : List Mltval) (val : Mltval) (left len : Nat) (trie : Mlt) (levels : len + left = 7)
    (shaped : Shaped trie vals (Adding vals val len)) :
    ∃ next, mltaddLoop val left len trie (path val len) (digit val len) = some next ∧ Stored next (val :: vals) := by
  induction left generalizing len trie with
  | zero =>
    obtain rfl : len = 7 := by omega
    exact ⟨trie.setVal (path val 8) val, by simp only [mltaddLoop, path_succ val 7], setVal_shaped trie vals val 7 shaped rfl⟩
  | succ left ih =>
    have key : mltkey val (left * mltnlvlbit) = digit val (len + 1) := by
      have level : mltnptrlvl - (len + 1) = left := by
        unfold mltnptrlvl
        omega
      unfold digit
      rw [level]
    have onward : ∀ middle nref, Shaped middle vals (Adding vals val (len + 1)) →
        ∃ next, mltaddLoop val left (len + 1) (middle.setRef len (digit val len) nref) (path val (len + 1)) (digit val (len + 1)) = some next ∧
          Stored next (val :: vals) := fun middle nref shaped => ih (len + 1) _ (by omega) (setRef_shaped middle vals _ _ _ nref shaped)
    have some_ptr : 0 < (path val (len + 1)).length := by
      rw [path_length]
      exact Nat.succ_pos len
    have short : (path val (len + 1)).length ≤ 7 := by
      rw [path_length]
      omega
    simp only [mltaddLoop, ← path_succ, key]
    by_cases there : Adding vals val len (path val (len + 1))
    · rw [shaped.table _ some_ptr short there]
      exact onward trie _ (shaped_table trie vals val len shaped there)
    · rw [shaped.null _ some_ptr short there]
      dsimp only
      split_ifs with more
      · exact onward _ _ (getptrtab_shaped trie vals val len shaped (by unfold mltnlvlbit at more; omega) there)
      · exact onward _ _ (getvaltab_shaped trie vals val len shaped (by unfold mltnlvlbit at more; omega) there)

theorem mltadd_stored (trie : Mlt) (vals : List Mltval) (val : Mltval) (stored : Stored trie vals) :
    ∃ next, mltadd trie val = some next ∧ Stored next (val :: vals) := by
  have shaped : Shaped trie vals (Adding vals val 0) := by
    have same : ∀ ptr, 0 < ptr.length → (Adding vals val 0 ptr ↔ Leads vals ptr) := fun ptr some_ptr =>
      or_iff_left fun early => absurd early.1 (by omega)
    refine ⟨fun ptr some_ptr short reached => stored.table ptr some_ptr short ((same ptr some_ptr).mp reached),
      fun ptr some_ptr short off => stored.null ptr some_ptr short fun leads => off ((same ptr some_ptr).mpr leads), stored.found,
      fun ptr long reached other => stored.bare ptr long ((same _ ?_).mp reached) other⟩
    rw [List.length_dropLast]
    omega
  rw [mltadd, mltkey0_digit]
  exact addLoop_stored vals val 7 0 trie rfl shaped

-- The values added one after the other.
def mltadds (trie : Mlt) : List Mltval → Option Mlt
  | [] => some trie
  | val :: vals => mltadd trie val >>= fun trie => mltadds trie vals

theorem stored_congr (trie : Mlt) (vals others : List Mltval) (same : ∀ val, val ∈ vals ↔ val ∈ others) (stored : Stored trie vals) : Stored trie others := by
  have leads : Leads vals = Leads others := by
    funext ptr
    simp only [Leads, same]
  obtain ⟨table, null, found, bare⟩ := stored
  rw [leads] at table null bare
  exact ⟨table, null, fun val member => found val ((same val).mpr member), fun ptr long reached other =>
    bare ptr long reached fun val member => other val ((same val).mp member)⟩

theorem mltadds_stored (vals before : List Mltval) (trie : Mlt) (stored : Stored trie before) :
    ∃ next, mltadds trie vals = some next ∧ Stored next (before ++ vals) := by
  induction vals generalizing before trie with
  | nil => exact ⟨trie, rfl, by rwa [List.append_nil]⟩
  | cons val vals ih =>
    obtain ⟨next, added, stored⟩ := mltadd_stored trie before val stored
    obtain ⟨last, adds, stored⟩ := ih (val :: before) next stored
    refine ⟨last, ?_, stored_congr last _ _ (fun other => ?_) stored⟩
    · rw [mltadds, added]
      exact adds
    · simp only [List.cons_append, List.mem_cons, List.mem_append]
      exact or_left_comm

end OsZero.Trie

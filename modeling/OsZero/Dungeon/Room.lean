import OsZero.Dungeon.Cell
import Mathlib.Data.Nat.Log

set_option autoImplicit false

namespace OsZero.Dungeon

-- The entries of a table that begins with 16 and doubles where it is full: what holds n.
def roomlog (n : Nat) : Nat := Nat.clog 2 ((n + 15) / 16)

def room (n : Nat) : Nat := 16 * 2 ^ roomlog n

theorem roomlog_le_iff (n k : Nat) : roomlog n ≤ k ↔ n ≤ 16 * 2 ^ k := by
  rw [roomlog, Nat.clog_le_iff_le_pow (by decide)]
  omega

theorem le_room (n : Nat) : n ≤ room n := (roomlog_le_iff n (roomlog n)).mp (Nat.le_refl _)

theorem roomlog_of_between (n k : Nat) (above : 16 * 2 ^ k < n) (below : n ≤ 16 * 2 ^ (k + 1)) : roomlog n = k + 1 := by
  have most := (roomlog_le_iff n (k + 1)).mpr below
  have least : ¬ roomlog n ≤ k := fun less => Nat.not_le.mpr above ((roomlog_le_iff n k).mp less)
  omega

theorem roomlog_bounds (n k : Nat) (log : roomlog n = k + 1) : 16 * 2 ^ k < n ∧ n ≤ 16 * 2 ^ (k + 1) := by
  constructor
  · apply Nat.lt_of_not_le
    intro less
    have := (roomlog_le_iff n k).mpr less
    omega
  · exact (roomlog_le_iff n (k + 1)).mp (Nat.le_of_eq log)

theorem roomlog_full (k : Nat) : roomlog (16 * 2 ^ k) = k := by
  have positive : 0 < 2 ^ k := Nat.two_pow_pos k
  cases k with
  | zero => exact Nat.le_zero.mp ((roomlog_le_iff _ 0).mpr (Nat.le_refl _))
  | succ k =>
      have double := Nat.pow_succ (m := k) (n := 2)
      exact roomlog_of_between _ k (by omega) (Nat.le_refl _)

theorem room_full (k : Nat) : room (16 * 2 ^ k) = 16 * 2 ^ k := by rw [room, roomlog_full]

theorem roomlog_mono (n m : Nat) (less : n ≤ m) : roomlog n ≤ roomlog m :=
  (roomlog_le_iff n _).mpr (Nat.le_trans less (le_room m))

theorem room_inj (n m : Nat) (same : room n = room m) : roomlog n = roomlog m := by
  rw [room, room] at same
  exact Nat.pow_right_injective (Nat.le_refl 2) (Nat.eq_of_mul_eq_mul_left (by decide) same)

theorem roomlog_succ_of_lt (n : Nat) (free : n < room n) : roomlog (n + 1) = roomlog n :=
  Nat.le_antisymm ((roomlog_le_iff (n + 1) _).mpr free) (roomlog_mono n (n + 1) (Nat.le_succ n))

theorem roomlog_succ_of_full (n : Nat) (full : n = room n) : roomlog (n + 1) = roomlog n + 1 := by
  have positive : 0 < 2 ^ roomlog n := Nat.two_pow_pos _
  have double := Nat.pow_succ (m := roomlog n) (n := 2)
  rw [room] at full
  exact roomlog_of_between _ _ (by omega) (by omega)

theorem room_succ_of_full (n : Nat) (full : n = room n) : room (n + 1) = n <<< 1 := by
  rw [room, roomlog_succ_of_full n full, Nat.pow_succ, Nat.shiftLeft_eq, pow_one, ← Nat.mul_assoc]
  exact congrArg (· * 2) full.symm

variable {α : Type}

-- Cell number 32 * 2 ^ k of a walk is found from a cell numbered at least 16 * 2 ^ k,
-- or from the cell that number 16 * 2 ^ k is found from.
def Near (list : List (Nat × α)) (k mark : Nat) : Prop := 16 * 2 ^ k < mark ∨ ∃ entry, list[16 * 2 ^ k]? = some entry ∧ entry.1 = mark

def Roomy (list : List (Nat × α)) : Prop := ∀ k entry, list[16 * 2 ^ (k + 1)]? = some entry → Near list k entry.1

-- The frame that the walk came to with mark cells listed knows the table's room.
def Synced (mark : Nat) (list : List (Nat × α)) : Prop := ∀ k, roomlog list.length = k + 1 → Near list k mark

def Knows (mark : Nat) (list : List (Nat × α)) (ncellmax : Nat) : Prop :=
  (∃ k, ncellmax = 16 * 2 ^ k) ∧ ncellmax ≤ room list.length ∧ (ncellmax = room list.length ↔ Synced mark list)

theorem near_append (list found : List (Nat × α)) (k mark : Nat) (inside : 16 * 2 ^ k < list.length) :
    Near (list ++ found) k mark ↔ Near list k mark := by
  rw [Near, Near, List.getElem?_append_left inside]

theorem roomy_nil : Roomy ([] : List (Nat × α)) := fun _ _ absent => absurd absent (by simp)

theorem half_lt (k : Nat) : 16 * 2 ^ k < 16 * 2 ^ (k + 1) := by
  have positive : 0 < 2 ^ k := Nat.two_pow_pos k
  rw [Nat.pow_succ]
  omega

theorem roomy_of_append (list found : List (Nat × α)) (roomy : Roomy (list ++ found)) : Roomy list := by
  intro k entry present
  have inside := (List.getElem?_eq_some_iff.mp present).1
  have near := roomy k entry (by rw [List.getElem?_append_left inside]; exact present)
  exact (near_append list found k _ (Nat.lt_trans (half_lt k) inside)).mp near

theorem roomy_append (list : List (Nat × α)) (mark : Nat) (cell : α) :
    Roomy (list ++ [(mark, cell)]) ↔ Roomy list ∧ (list.length = room list.length → Synced mark list) := by
  constructor
  · intro roomy
    refine ⟨roomy_of_append list _ roomy, fun full k log => ?_⟩
    have last : list.length = 16 * 2 ^ (k + 1) := by rw [full, room, log]
    have near := roomy k (mark, cell) (by rw [← last, List.getElem?_concat_length])
    exact (near_append list _ k _ (by rw [last]; exact half_lt k)).mp near
  · rintro ⟨roomy, synced⟩ k entry present
    have reached := (List.getElem?_eq_some_iff.mp present).1
    rw [List.length_append, List.length_singleton] at reached
    rw [near_append list _ k _ (by have := half_lt k; omega)]
    rcases Nat.lt_or_eq_of_le (Nat.le_of_lt_succ reached) with inside | last
    · rw [List.getElem?_append_left inside] at present
      exact roomy k entry present
    · rw [last, List.getElem?_concat_length] at present
      obtain rfl := Option.some.inj present
      have log : roomlog list.length = k + 1 := by rw [← last, roomlog_full]
      exact synced (by rw [← last, room_full]) k log

theorem synced_own (list : List (Nat × α)) : Synced list.length list := fun k log => .inl (roomlog_bounds _ k log).1

theorem synced_append (list : List (Nat × α)) (mark : Nat) (cell : α) :
    Synced mark (list ++ [(mark, cell)]) ↔ (list.length = room list.length ∨ Synced mark list) := by
  rw [Synced, List.length_append, List.length_singleton]
  by_cases full : list.length = room list.length
  · refine ⟨fun _ => .inl full, fun _ k log => .inr ⟨(mark, cell), ?_, rfl⟩⟩
    rw [roomlog_succ_of_full _ full] at log
    have last : 16 * 2 ^ k = list.length := by rw [full, room, Nat.succ.inj log]
    rw [last, List.getElem?_concat_length]
  · have free : list.length < room list.length := Nat.lt_of_le_of_ne (le_room _) full
    rw [roomlog_succ_of_lt _ free, or_iff_right full]
    exact forall_congr' fun k => forall_congr' fun log => near_append list _ k mark (roomlog_bounds _ k log).1

-- What is found from cells that the walk came to later changes what a frame knows only by a new room.
theorem synced_extends (list found : List (Nat × α)) (mark : Nat) (earlier : mark ≤ list.length) (later : ∀ entry ∈ found, mark < entry.1) :
    Synced mark (list ++ found) ↔ roomlog (list ++ found).length = roomlog list.length ∧ Synced mark list := by
  by_cases same : roomlog (list ++ found).length = roomlog list.length
  · rw [Synced, same, and_iff_right rfl]
    exact forall_congr' fun k => forall_congr' fun log => near_append list _ k mark (roomlog_bounds _ k log).1
  · refine iff_of_false (fun synced => ?_) fun both => same both.1
    have grown := roomlog_mono list.length (list ++ found).length (by rw [List.length_append]; exact Nat.le_add_right _ _)
    obtain ⟨k, log⟩ : ∃ k, roomlog (list ++ found).length = k + 1 := Nat.exists_eq_succ_of_ne_zero (by omega)
    have outside : list.length ≤ 16 * 2 ^ k := (roomlog_le_iff _ k).mp (by omega)
    rcases synced k log with above | ⟨entry, present, own⟩
    · omega
    · rw [List.getElem?_append_right outside] at present
      have := later entry (List.mem_of_getElem? present)
      omega

theorem knows_own (list : List (Nat × α)) : Knows list.length list (room list.length) :=
  ⟨⟨_, rfl⟩, Nat.le_refl _, iff_of_true rfl (synced_own list)⟩

theorem knows_extends (list found : List (Nat × α)) (mark ncellmax : Nat) (earlier : mark ≤ list.length)
    (later : ∀ entry ∈ found, mark < entry.1) (knows : Knows mark list ncellmax) : Knows mark (list ++ found) ncellmax := by
  obtain ⟨power, below, synced⟩ := knows
  have grown := roomlog_mono list.length (list ++ found).length (by rw [List.length_append]; exact Nat.le_add_right _ _)
  have wider : room list.length ≤ room (list ++ found).length := Nat.mul_le_mul_left _ (Nat.pow_le_pow_right (by decide) grown)
  refine ⟨power, Nat.le_trans below wider, ?_⟩
  rw [synced_extends list found mark earlier later, ← synced]
  constructor
  · intro same
    have inner : room list.length = room (list ++ found).length := Nat.le_antisymm wider (same ▸ below)
    exact ⟨room_inj _ _ inner.symm, same.trans inner.symm⟩
  · rintro ⟨log, same⟩
    rw [same, room, room, log]

-- Adding one cell: a frame that knows the room of a full table doubles it, and one that
-- does not writes behind the table.
theorem knows_append (list : List (Nat × α)) (mark ncellmax : Nat) (cell : α) (knows : Knows mark list ncellmax) :
    (list.length < (if list.length = ncellmax then ncellmax <<< 1 else room list.length) ↔ (list.length = room list.length → Synced mark list)) ∧
      ((list.length = room list.length → Synced mark list) →
        (if list.length = ncellmax then ncellmax <<< 1 else room list.length) = room (list ++ [(mark, cell)]).length ∧
          Knows mark (list ++ [(mark, cell)]) (if list.length = ncellmax then ncellmax <<< 1 else ncellmax)) := by
  obtain ⟨⟨k, power⟩, below, synced⟩ := knows
  rw [Knows, synced_append, List.length_append, List.length_singleton]
  by_cases full : list.length = ncellmax
  · have known : ncellmax = room list.length := by rw [full, power, room_full]
    have doubled := room_succ_of_full list.length (full.trans known)
    have positive : 0 < 2 ^ k := Nat.two_pow_pos k
    have more : ncellmax <<< 1 = 16 * 2 ^ (k + 1) := by rw [power, Nat.shiftLeft_eq, pow_one, Nat.mul_assoc, Nat.pow_succ]
    have larger : list.length < ncellmax <<< 1 := by
      rw [full, Nat.shiftLeft_eq]
      omega
    simp only [if_pos full]
    refine ⟨iff_of_true larger fun _ => synced.mp known, fun _ => ⟨by rw [doubled, full], ⟨k + 1, more⟩, ?_, ?_⟩⟩
    · rw [doubled, full]
    · exact iff_of_true (by rw [doubled, full]) (.inl (full.trans known))
  · simp only [if_neg full]
    by_cases free : list.length < room list.length
    · have notFull : list.length ≠ room list.length := Nat.ne_of_lt free
      have same : room (list.length + 1) = room list.length := by rw [room, room, roomlog_succ_of_lt _ free]
      rw [same, or_iff_right notFull]
      exact ⟨iff_of_true free fun full => absurd full notFull, fun _ => ⟨rfl, ⟨k, power⟩, below, synced⟩⟩
    · have last : list.length = room list.length := Nat.le_antisymm (le_room _) (Nat.le_of_not_lt free)
      have stale : ¬ Synced mark list := fun known => full (last.trans (synced.mpr known).symm)
      exact ⟨iff_of_false free fun knows => stale (knows last), fun knows => absurd (knows last) stale⟩

end OsZero.Dungeon

import OsZero.Libc.Sorted

set_option autoImplicit false

namespace OsZero.Libc

open Blocks Sorting

variable {call : Sortcall}

-- The elements from lo to hi, with a cut on either side.
structure Piece (call : Sortcall) (a : Nat → Item call.size) (lo hi : Nat) : Prop where
  order : lo ≤ hi
  inside : hi < call.nitems
  left : Cut call.cmp a lo call.nitems
  right : Cut call.cmp a (hi + 1) call.nitems

-- Element i is in a piece that is within maxthres or pending.
def Placed (call : Sortcall) (parts : List (Nat × Nat)) (a : Nat → Item call.size) (i : Nat) : Prop :=
  ∃ lo hi, lo ≤ i ∧ i ≤ hi ∧ Piece call a lo hi ∧ ((hi - lo) * call.size ≤ maxthres call ∨ (lo, hi) ∈ parts)

structure Covers (call : Sortcall) (parts : List (Nat × Nat)) (a : Nat → Item call.size) : Prop where
  pieces : ∀ part ∈ parts, Piece call a part.1 part.2
  covered : ∀ i < call.nitems, Placed call parts a i

theorem covers_whole (a : Nat → Item call.size) (some : 0 < call.nitems) : Covers call [(0, call.nitems - 1)] a := by
  have whole : Piece call a 0 (call.nitems - 1) :=
    ⟨Nat.zero_le _, by omega, fun i j before => absurd before (Nat.not_lt_zero i), fun i j _ behind low => by omega⟩
  refine ⟨fun part member => ?_, fun i low => ⟨0, call.nitems - 1, Nat.zero_le i, by omega, whole, Or.inr List.mem_cons_self⟩⟩
  rw [List.mem_singleton.mp member]
  exact whole

section Turn

variable (lo hi l r : Nat) (segs : List (Nat × Nat))

theorem nextsegs_old (part : Nat × Nat) (member : part ∈ segs) : part ∈ nextsegs call lo hi l r segs := by
  unfold nextsegs
  split_ifs <;> simp [member]

theorem nextsegs_left : (r - lo) * call.size ≤ maxthres call ∨ (lo, r) ∈ nextsegs call lo hi l r segs := by
  unfold nextsegs
  split_ifs with left <;> simp [left]

theorem nextsegs_right : (hi - l) * call.size ≤ maxthres call ∨ (l, hi) ∈ nextsegs call lo hi l r segs := by
  unfold nextsegs
  split_ifs with left right right <;> simp [right]

end Turn

section Kept

variable (lo hi l r : Nat) (segs : List (Nat × Nat)) (mem after : Memory) (inside : hi < call.nitems)
  (cloven : Cloven call lo hi l r mem after) (piece : Piece call (items call mem) lo hi)
include inside cloven piece

omit piece in
theorem piece_kept (one two : Nat) (other : Piece call (items call mem) one two) (apart : two < lo ∨ hi < one) :
    Piece call (items call after) one two := by
  have order := other.order
  refine ⟨order, other.inside, cut_shuffled one cloven.shuffled inside ?_ other.left, cut_shuffled (two + 1) cloven.shuffled inside ?_ other.right⟩
  · omega
  · omega

theorem edges_kept : Cut call.cmp (items call after) lo call.nitems ∧ Cut call.cmp (items call after) (hi + 1) call.nitems :=
  ⟨cut_shuffled lo cloven.shuffled inside (Or.inr (Nat.le_refl lo)) piece.left,
    cut_shuffled (hi + 1) cloven.shuffled inside (Or.inl (Nat.lt_succ_self hi)) piece.right⟩

-- A cut between the parts is one of the whole array.
theorem cloven_cut (c : Nat) (low : r < c) (high : c ≤ l) : Cut call.cmp (items call after) c call.nitems := by
  obtain ⟨left, right⟩ := edges_kept lo hi l r mem after inside cloven piece
  have start := cloven.low
  have stop := cloven.high
  intro i j before behind below
  rcases Nat.lt_or_ge i lo with outside | iLow
  · exact left i j outside (by omega) below
  · rcases Nat.lt_or_ge hi j with outside | jHigh
    · exact right i j (by omega) outside below
    · exact cloven.cut c i j low high iLow before behind jHigh

theorem parts_pieces : Piece call (items call after) lo r ∧ Piece call (items call after) l hi := by
  obtain ⟨left, right⟩ := edges_kept lo hi l r mem after inside cloven piece
  have cut := cloven_cut lo hi l r mem after inside cloven piece
  have cross := cloven.cross
  have high := cloven.high
  exact ⟨⟨cloven.low, by omega, left, cut (r + 1) (Nat.lt_succ_self r) cross⟩, ⟨high, inside, cut l cross (Nat.le_refl l), right⟩⟩

theorem placed_within (i : Nat) (low : lo ≤ i) (high : i ≤ hi) : Placed call (nextsegs call lo hi l r segs) (items call after) i := by
  obtain ⟨first, last⟩ := parts_pieces lo hi l r mem after inside cloven piece
  have cut := cloven_cut lo hi l r mem after inside cloven piece
  rcases Nat.lt_or_ge r i with behind | before
  · rcases Nat.lt_or_ge i l with between | here
    · -- an element no less than the first part's and no greater than the last's
      refine ⟨i, i, Nat.le_refl i, Nat.le_refl i, ⟨Nat.le_refl i, by omega, cut i behind (Nat.le_of_lt between), cut (i + 1) (by omega) between⟩, ?_⟩
      rw [Nat.sub_self, Nat.zero_mul]
      exact Or.inl (Nat.zero_le _)
    · exact ⟨l, hi, here, high, last, nextsegs_right lo hi l r segs⟩
  · exact ⟨lo, r, low, before, first, nextsegs_left lo hi l r segs⟩

-- A small piece that reaches into the part is cut off at its edge.
theorem placed_trimmed (i one two : Nat) (oneLow : one ≤ i) (twoHigh : i ≤ two) (outside : i < lo ∨ hi < i) (old : Piece call (items call mem) one two)
    (small : (two - one) * call.size ≤ maxthres call) : Placed call (nextsegs call lo hi l r segs) (items call after) i := by
  obtain ⟨left, right⟩ := edges_kept lo hi l r mem after inside cloven piece
  have order := piece.order
  rcases outside with before | behind
  · by_cases alone : two < lo
    · exact ⟨one, two, oneLow, twoHigh, piece_kept lo hi l r mem after inside cloven one two old (Or.inl alone), Or.inl small⟩
    · refine ⟨one, lo - 1, oneLow, by omega, ⟨by omega, by omega, cut_shuffled one cloven.shuffled inside (by omega) old.left, ?_⟩, Or.inl ?_⟩
      · rwa [Nat.sub_add_cancel (by omega)]
      · exact Nat.le_trans (Nat.mul_le_mul_right _ (by omega)) small
  · by_cases alone : hi < one
    · exact ⟨one, two, oneLow, twoHigh, piece_kept lo hi l r mem after inside cloven one two old (Or.inr alone), Or.inl small⟩
    · refine ⟨hi + 1, two, behind, twoHigh, ⟨by omega, old.inside, right, cut_shuffled (two + 1) cloven.shuffled inside (by omega) old.right⟩, Or.inl ?_⟩
      exact Nat.le_trans (Nat.mul_le_mul_right _ (by omega)) small

theorem placed_outside (beside : ∀ part ∈ segs, part.2 < lo ∨ hi < part.1) (i : Nat) (outside : i < lo ∨ hi < i)
    (placed : Placed call ((lo, hi) :: segs) (items call mem) i) : Placed call (nextsegs call lo hi l r segs) (items call after) i := by
  obtain ⟨one, two, oneLow, twoHigh, old, small | member⟩ := placed
  · exact placed_trimmed lo hi l r segs mem after inside cloven piece i one two oneLow twoHigh outside old small
  · rcases List.mem_cons.mp member with same | other
    · cases same
      omega
    · exact ⟨one, two, oneLow, twoHigh, piece_kept lo hi l r mem after inside cloven one two old (beside _ other),
        Or.inr (nextsegs_old lo hi l r segs _ other)⟩

theorem covers_kept (apart : Apart ((lo, hi) :: segs)) (covers : Covers call ((lo, hi) :: segs) (items call mem)) :
    Covers call (nextsegs call lo hi l r segs) (items call after) := by
  obtain ⟨first, last⟩ := parts_pieces lo hi l r mem after inside cloven piece
  have beside : ∀ part ∈ segs, part.2 < lo ∨ hi < part.1 := fun part member => ((List.pairwise_cons.mp apart).1 part member).symm
  refine ⟨fun part member => ?_, fun i below => ?_⟩
  · rcases nextsegs_mem lo hi l r segs cloven.low cloven.high part member with old | ⟨rfl, -⟩ | ⟨rfl, -⟩
    · exact piece_kept lo hi l r mem after inside cloven part.1 part.2 (covers.pieces part (List.mem_cons_of_mem _ old)) (beside part old)
    · exact first
    · exact last
  · by_cases within : lo ≤ i ∧ i ≤ hi
    · exact placed_within lo hi l r segs mem after inside cloven piece i within.1 within.2
    · exact placed_outside lo hi l r segs mem after inside cloven piece beside i (by omega) (covers.covered i below)

end Kept

theorem covers_segmented (a : Nat → Item call.size) (sized : 0 < call.size) (covers : Covers call [] a) :
    ∃ sizes, (∀ size ∈ sizes, 0 < size ∧ size ≤ 5) ∧ Segmented call.cmp a call.nitems 0 sizes := by
  refine segmented_found a call.nitems 5 fun i low => ?_
  obtain ⟨lo, hi, before, behind, piece, pending⟩ := covers.covered i low
  have small := pending.resolve_right List.not_mem_nil
  have few : hi - lo ≤ 4 := Nat.le_of_mul_le_mul_right (Nat.le_trans small (Nat.mod_le _ _)) sized
  exact ⟨lo, hi + 1, before, by omega, piece.inside, by omega, piece.right⟩

theorem quickphase_segments (call : Sortcall) (mem : Memory) (sized : 0 < call.size) (fits : call.nitems * call.size < 18446744073709551616)
    (compares : Compares call.cmp) (many : 4 * call.size < call.nitems) :
    ∃ after, quickphase call (maxthres call) call.nitems call.base (lastItem call) [(0, 0)] mem = some after ∧ Beyond call mem after ∧
      ((List.range call.nitems).map (items call after)).Perm ((List.range call.nitems).map (items call mem)) ∧
        ∃ sizes, (∀ size ∈ sizes, 0 < size ∧ size ≤ 5) ∧ Segmented call.cmp (items call after) call.nitems 0 sizes := by
  obtain ⟨after, phase, beyond, shuffled, covers⟩ := quickphase_whole sized fits compares (Covers call)
    (fun lo hi l r segs mem after inside apart cloven covers =>
      covers_kept lo hi l r segs mem after inside cloven (covers.pieces (lo, hi) List.mem_cons_self) apart covers)
    mem (by omega) (covers_whole _ (by omega))
  rw [← last_adr] at phase
  exact ⟨after, phase, beyond, shuffled.perm, covers_segmented _ sized covers⟩

theorem quickphase_segments_nine_shorts : ∃ after, quickphase (shorts 9) (maxthres (shorts 9)) 9 4096 (lastItem (shorts 9)) [(0, 0)] descending = some after ∧
    Beyond (shorts 9) descending after ∧
      ((List.range 9).map (items (shorts 9) after)).Perm ((List.range 9).map (items (shorts 9) descending)) ∧
        ∃ sizes, (∀ size ∈ sizes, 0 < size ∧ size ≤ 5) ∧ Segmented cmpFirst (items (shorts 9) after) 9 0 sizes :=
  quickphase_segments (shorts 9) descending (by decide) (by decide) cmpFirst_compares (by decide)

end OsZero.Libc

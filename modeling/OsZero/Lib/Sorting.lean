import Mathlib.Data.List.Nodup
import Mathlib.Data.List.Perm.Subperm
import Mathlib.Tactic.SplitIfs

set_option autoImplicit false

namespace Sorting

universe u
variable {α : Type u} (cmp : α → α → Int)

-- A total preorder as a comparison function gives it.
structure Compares : Prop where
  anti : ∀ a b, cmp a b < 0 ↔ 0 < cmp b a
  trans : ∀ a b c, cmp a b ≤ 0 → cmp b c ≤ 0 → cmp a c ≤ 0

variable {cmp}

theorem not_below (compares : Compares cmp) (a b : α) : ¬ cmp a b < 0 ↔ cmp b a ≤ 0 := by
  rw [compares.anti, Int.not_lt]

theorem cmp_self (compares : Compares cmp) (a : α) : cmp a a ≤ 0 := by
  have same := compares.anti a a
  omega

variable (cmp)

def Ascending (a : Nat → α) (n : Nat) : Prop := ∀ i j, i ≤ j → j < n → cmp (a i) (a j) ≤ 0

def Least (a : Nat → α) (n i : Nat) : Prop := ∀ j < n, cmp (a i) (a j) ≤ 0

-- No element up to e is greater than one behind it.
def Parted (a : Nat → α) (e n : Nat) : Prop := ∀ i j, i ≤ e → e < j → j < n → cmp (a i) (a j) ≤ 0

-- No element before c is greater than one from c on.
def Cut (a : Nat → α) (c n : Nat) : Prop := ∀ i j, i < c → c ≤ j → j < n → cmp (a i) (a j) ≤ 0

-- Consecutive segments from start to n by their sizes, each behind a cut.
def Segmented (a : Nat → α) (n : Nat) : Nat → List Nat → Prop
  | start, [] => start = n
  | start, size :: sizes => Cut cmp a start n ∧ Segmented a n (start + size) sizes

variable {cmp}

theorem least_found (compares : Compares cmp) (a : Nat → α) (e : Nat) : ∃ i ≤ e, ∀ j ≤ e, cmp (a i) (a j) ≤ 0 := by
  induction e with
  | zero => exact ⟨0, Nat.le_refl 0, fun j low => by rw [Nat.le_zero.mp low]; exact cmp_self compares _⟩
  | succ e ih =>
    obtain ⟨i, low, least⟩ := ih
    by_cases below : cmp (a (e + 1)) (a i) ≤ 0
    · refine ⟨e + 1, Nat.le_refl _, fun j top => ?_⟩
      rcases Nat.lt_or_ge e j with last | before
      · rw [show j = e + 1 by omega]
        exact cmp_self compares _
      · exact compares.trans _ _ _ below (least j before)
    · refine ⟨i, by omega, fun j top => ?_⟩
      rcases Nat.lt_or_ge e j with last | before
      · rw [show j = e + 1 by omega]
        exact (not_below compares _ _).mp fun above => below (Int.le_of_lt above)
      · exact least j before

theorem parted_least (compares : Compares cmp) (a : Nat → α) (e n : Nat) (parted : Parted cmp a e n) : ∃ i ≤ e, Least cmp a n i := by
  obtain ⟨i, low, least⟩ := least_found compares a e
  refine ⟨i, low, fun j below => ?_⟩
  rcases Nat.lt_or_ge e j with behind | before
  · exact parted i j low behind below
  · exact least j before

def exchanged (i j : Nat) (a : Nat → α) : Nat → α := fun k => if k = i then a j else if k = j then a i else a k

-- The element at m moves to p, and those from p on make room for it.
def rotated (p m : Nat) (a : Nat → α) : Nat → α := fun k => if k = p then a m else if p < k ∧ k ≤ m then a (k - 1) else a k

-- b has the elements of a in another order, and differs from lo to hi only.
structure Shuffled (n lo hi : Nat) (a b : Nat → α) : Prop where
  perm : ((List.range n).map b).Perm ((List.range n).map a)
  outside : ∀ k, k < lo ∨ hi < k → b k = a k
  inside : ∀ k, lo ≤ k → k ≤ hi → ∃ i, lo ≤ i ∧ i ≤ hi ∧ b k = a i

theorem shuffled_refl (n lo hi : Nat) (a : Nat → α) : Shuffled n lo hi a a :=
  ⟨List.Perm.refl _, fun _ _ => rfl, fun k low high => ⟨k, low, high, rfl⟩⟩

theorem shuffled_trans {n lo hi : Nat} {a b c : Nat → α} (first : Shuffled n lo hi a b) (second : Shuffled n lo hi b c) :
    Shuffled n lo hi a c := by
  refine ⟨second.perm.trans first.perm, fun k apart => (second.outside k apart).trans (first.outside k apart), fun k low high => ?_⟩
  obtain ⟨i, iLow, iHigh, same⟩ := second.inside k low high
  obtain ⟨j, jLow, jHigh, again⟩ := first.inside i iLow iHigh
  exact ⟨j, jLow, jHigh, same.trans again⟩

theorem shuffled_wider {n lo hi low high : Nat} {a b : Nat → α} (shuffled : Shuffled n lo hi a b) (left : low ≤ lo) (right : hi ≤ high) :
    Shuffled n low high a b := by
  refine ⟨shuffled.perm, fun k apart => shuffled.outside k (by omega), fun k kLow kHigh => ?_⟩
  by_cases within : lo ≤ k ∧ k ≤ hi
  · obtain ⟨i, iLow, iHigh, same⟩ := shuffled.inside k within.1 within.2
    exact ⟨i, by omega, by omega, same⟩
  · exact ⟨k, kLow, kHigh, shuffled.outside k (by omega)⟩

theorem shuffled_index (f : Nat → Nat) (n lo hi : Nat) (a : Nat → α) (below : hi < n)
    (maps : ∀ k, lo ≤ k → k ≤ hi → lo ≤ f k ∧ f k ≤ hi) (fixes : ∀ k, k < lo ∨ hi < k → f k = k) (injective : ∀ i j, f i = f j → i = j) :
    Shuffled n lo hi a fun k => a (f k) := by
  refine ⟨?_, fun k apart => congrArg a (fixes k apart), fun k low high => ⟨f k, (maps k low high).1, (maps k low high).2, rfl⟩⟩
  have inside : ∀ k < n, f k < n := by
    intro k low
    by_cases within : lo ≤ k ∧ k ≤ hi
    · have mapped := maps k within.1 within.2
      omega
    · rw [fixes k (by omega)]
      exact low
  have nodup : ((List.range n).map f).Nodup := List.nodup_range.map (fun i j => injective i j)
  have indices : ((List.range n).map f).Perm (List.range n) := by
    apply (List.subperm_of_subset nodup ?_).perm_of_length_le (by simp)
    intro k member
    obtain ⟨i, from_range, rfl⟩ := List.mem_map.mp member
    exact List.mem_range.mpr (inside i (List.mem_range.mp from_range))
  have mapped := indices.map a
  rwa [List.map_map] at mapped

theorem exchanged_shuffled (n lo hi i j : Nat) (a : Nat → α) (below : hi < n) (left : lo ≤ i ∧ i ≤ hi) (right : lo ≤ j ∧ j ≤ hi) :
    Shuffled n lo hi a (exchanged i j a) := by
  have indexed : exchanged i j a = fun k => a (if k = i then j else if k = j then i else k) := by
    funext k
    unfold exchanged
    split_ifs <;> rfl
  rw [indexed]
  apply shuffled_index (fun k => if k = i then j else if k = j then i else k) n lo hi a below
  · intro k low high
    split_ifs <;> omega
  · intro k apart
    split_ifs <;> omega
  · intro one two same
    split_ifs at same <;> omega

theorem rotated_shuffled (n p m : Nat) (a : Nat → α) (below : m < n) (order : p ≤ m) : Shuffled n p m a (rotated p m a) := by
  have indexed : rotated p m a = fun k => a (if k = p then m else if p < k ∧ k ≤ m then k - 1 else k) := by
    funext k
    unfold rotated
    split_ifs <;> rfl
  rw [indexed]
  apply shuffled_index (fun k => if k = p then m else if p < k ∧ k ≤ m then k - 1 else k) n p m a below
  · intro k low high
    split_ifs <;> omega
  · intro k apart
    split_ifs <;> omega
  · intro one two same
    split_ifs at same <;> omega

theorem cut_shuffled {n lo hi : Nat} {a b : Nat → α} (c : Nat) (shuffled : Shuffled n lo hi a b) (below : hi < n) (apart : hi < c ∨ c ≤ lo)
    (cut : Cut cmp a c n) : Cut cmp b c n := by
  have from_a : ∀ k, ∃ i, b k = a i ∧ (k < c → i < c) ∧ (c ≤ k → c ≤ i) ∧ (k < n → i < n) := by
    intro k
    by_cases within : lo ≤ k ∧ k ≤ hi
    · obtain ⟨i, low, high, same⟩ := shuffled.inside k within.1 within.2
      exact ⟨i, same, by omega, by omega, by omega⟩
    · exact ⟨k, shuffled.outside k (by omega), id, id, id⟩
  intro i j before behind low
  obtain ⟨x, left, xLow, -, -⟩ := from_a i
  obtain ⟨y, right, -, yHigh, yLow⟩ := from_a j
  rw [left, right]
  exact cut x y (xLow before) (yHigh behind) (yLow low)

theorem parted_shuffled {n lo hi : Nat} {a b : Nat → α} (e : Nat) (shuffled : Shuffled n lo hi a b) (below : hi < n) (apart : hi ≤ e ∨ e < lo)
    (parted : Parted cmp a e n) : Parted cmp b e n := by
  have cut : Cut cmp a (e + 1) n := fun i j before => parted i j (Nat.le_of_lt_succ before)
  have kept := cut_shuffled (e + 1) shuffled below (by omega) cut
  exact fun i j before => kept i j (Nat.lt_succ_of_le before)

-- Short pieces between cuts that cover every place leave short segments.
theorem segmented_found (a : Nat → α) (n most : Nat)
    (covered : ∀ i < n, ∃ lo hi, lo ≤ i ∧ i < hi ∧ hi ≤ n ∧ hi ≤ lo + most ∧ Cut cmp a hi n) :
    ∃ sizes, (∀ size ∈ sizes, 0 < size ∧ size ≤ most) ∧ Segmented cmp a n 0 sizes := by
  have from_cut : ∀ left start, n ≤ start + left → start ≤ n → Cut cmp a start n →
      ∃ sizes, (∀ size ∈ sizes, 0 < size ∧ size ≤ most) ∧ Segmented cmp a n start sizes := by
    intro left
    induction left with
    | zero => exact fun start whole low _ => ⟨[], List.forall_mem_nil _, by rw [Segmented]; omega⟩
    | succ left ih =>
      intro start whole low cut
      by_cases last : start = n
      · exact ⟨[], List.forall_mem_nil _, last⟩
      · obtain ⟨lo, hi, before, behind, inside, short, next⟩ := covered start (by omega)
        obtain ⟨sizes, few, segmented⟩ := ih hi (by omega) inside next
        refine ⟨(hi - start) :: sizes, List.forall_mem_cons.mpr ⟨by omega, few⟩, cut, ?_⟩
        rwa [Nat.add_sub_of_le (Nat.le_of_lt behind)]
  exact from_cut n 0 (by omega) (Nat.zero_le n) fun i j before => absurd before (Nat.not_lt_zero i)

-- What is placed in front of the greater ones keeps the order.
theorem ascending_rotated (compares : Compares cmp) (a : Nat → α) (p m : Nat) (order : p ≤ m) (ascending : Ascending cmp a m)
    (before : ∀ k < p, cmp (a k) (a m) ≤ 0) (behind : ∀ k, p ≤ k → k < m → cmp (a m) (a k) ≤ 0) : Ascending cmp (rotated p m a) (m + 1) := by
  intro i j low high
  unfold rotated
  split_ifs with first second between third
  · exact cmp_self compares _
  · exact behind (j - 1) (by omega) (by omega)
  · omega
  · omega
  · exact ascending (i - 1) (j - 1) (by omega) (by omega)
  · omega
  · exact before i (by omega)
  · exact ascending i (j - 1) (by omega) (by omega)
  · exact ascending i j low (by omega)

theorem shuffled_members_back {n lo hi : Nat} {a b : Nat → α} (shuffled : Shuffled n lo hi a b) (k : Nat) (below : k < n) : ∃ i < n, b k = a i := by
  have member : b k ∈ (List.range n).map b := List.mem_map.mpr ⟨k, List.mem_range.mpr below, rfl⟩
  obtain ⟨i, inside, same⟩ := List.mem_map.mp (shuffled.perm.mem_iff.mp member)
  exact ⟨i, List.mem_range.mp inside, same.symm⟩

end Sorting

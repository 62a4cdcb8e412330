import Mathlib.Algebra.Group.Nat.Defs
import Mathlib.Data.BitVec

set_option autoImplicit false

namespace Lanes

-- A word as a list of lanes of k bits, the lowest first.
def pack (k : Nat) : List Nat → Nat
  | [] => 0
  | x :: xs => 2 ^ k * pack k xs + x

def Below (bound : Nat) (xs : List Nat) : Prop := ∀ x ∈ xs, x < bound

def total : List Nat → Nat
  | [] => 0
  | x :: xs => x + total xs

-- Neighbouring lanes added.
def pairs : List Nat → List Nat
  | x :: y :: xs => (x + y) :: pairs xs
  | xs => xs

-- The lanes of a word of n lanes of k bits.
def lanes (k : Nat) : Nat → Nat → List Nat
  | 0, _ => []
  | n + 1, word => word % 2 ^ k :: lanes k n (word / 2 ^ k)

section Lists

variable {bound : Nat} {x y : Nat} {xs : List Nat}

theorem below_head (below : Below bound (x :: xs)) : x < bound := below x (List.mem_cons_self ..)

theorem below_tail (below : Below bound (x :: xs)) : Below bound xs := fun z member => below z (List.mem_cons_of_mem _ member)

end Lists

theorem lanes_length (k n word : Nat) : (lanes k n word).length = n := by
  induction n generalizing word with
  | zero => rfl
  | succ n ih => rw [lanes, List.length_cons, ih]

theorem lanes_below (k n word : Nat) : Below (2 ^ k) (lanes k n word) := by
  induction n generalizing word with
  | zero =>
      intro x member
      cases member
  | succ n ih =>
      intro x member
      obtain rfl | member := List.mem_cons.mp member
      · exact Nat.mod_lt _ (Nat.two_pow_pos k)
      · exact ih _ x member

theorem pack_lanes (k n word : Nat) (small : word < 2 ^ (k * n)) : pack k (lanes k n word) = word := by
  induction n generalizing word with
  | zero =>
      rw [Nat.mul_zero, Nat.pow_zero] at small
      exact (Nat.lt_one_iff.mp small).symm
  | succ n ih =>
      have rest : word / 2 ^ k < 2 ^ (k * n) := by
        rw [Nat.div_lt_iff_lt_mul (Nat.two_pow_pos k), ← Nat.pow_add, ← Nat.mul_succ]
        exact small
      rw [lanes, pack, ih _ rest]
      exact Nat.div_add_mod word (2 ^ k)

section Words

variable (k : Nat) (xs ys : List Nat)

-- Two lanes side by side are masked apart.
theorem land_lane (x y m n : Nat) (lane : x < 2 ^ k) (mask : m < 2 ^ k) :
    (2 ^ k * y + x) &&& (2 ^ k * n + m) = 2 ^ k * (y &&& n) + (x &&& m) := by
  apply Nat.eq_of_testBit_eq
  intro i
  have both : x &&& m < 2 ^ k := Nat.lt_of_le_of_lt Nat.and_le_left lane
  rw [Nat.testBit_and, Nat.testBit_two_pow_mul_add _ lane, Nat.testBit_two_pow_mul_add _ mask, Nat.testBit_two_pow_mul_add _ both]
  split
  · exact (Nat.testBit_and ..).symm
  · exact (Nat.testBit_and ..).symm

theorem shift_lane (x y : Nat) (lane : x < 2 ^ k) : (2 ^ k * y + x) >>> k = y := by
  rw [Nat.shiftRight_eq_div_pow, Nat.mul_add_div (Nat.two_pow_pos k), Nat.div_eq_of_lt lane, Nat.add_zero]

theorem pack_shift (x : Nat) (below : Below (2 ^ k) (x :: xs)) : pack k (x :: xs) >>> k = pack k xs := shift_lane k x _ (below_head below)

end Words

-- The mask c in every lane of n lanes of k bits.
def mask (k c : Nat) : Nat → Nat
  | 0 => 0
  | n + 1 => 2 ^ k * mask k c n + c

-- A mask of double lanes keeps the lower half of each.
theorem land_half (k c m x y : Nat) (lane : x < 2 ^ k) (small : c < 2 ^ k) :
    (2 ^ k * y + x) &&& (2 ^ (2 * k) * m + c) = 2 ^ (2 * k) * (y >>> k &&& m) + (x &&& c) := by
  have wide : 2 ^ (2 * k) = 2 ^ k * 2 ^ k := by rw [Nat.two_mul, Nat.pow_add]
  have halves : 2 ^ k * y + x = 2 ^ (2 * k) * (y >>> k) + (2 ^ k * (y % 2 ^ k) + x) := by
    have whole := Nat.div_add_mod y (2 ^ k)
    rw [Nat.shiftRight_eq_div_pow, wide, Nat.mul_assoc, ← Nat.add_assoc, ← Nat.mul_add, whole]
  have lower : 2 ^ k * (y % 2 ^ k) + x < 2 ^ (2 * k) := by
    rw [wide]
    calc 2 ^ k * (y % 2 ^ k) + x < 2 ^ k * (y % 2 ^ k) + 2 ^ k := Nat.add_lt_add_left lane _
      _ = 2 ^ k * (y % 2 ^ k + 1) := (Nat.mul_succ _ _).symm
      _ ≤ 2 ^ k * 2 ^ k := Nat.mul_le_mul_left _ (Nat.mod_lt _ (Nat.two_pow_pos k))
  have cut : c < 2 ^ (2 * k) := Nat.lt_of_lt_of_le small (Nat.pow_le_pow_right (by decide) (by omega))
  have first := land_lane k x (y % 2 ^ k) c 0 lane small
  rw [Nat.mul_zero, Nat.zero_add, Nat.and_zero, Nat.mul_zero, Nat.zero_add] at first
  rw [halves, land_lane (2 * k) _ _ _ _ lower cut, first]

theorem two_lanes (xs : List Nat) (n : Nat) (even : xs.length = 2 * (n + 1)) : ∃ x y rest, xs = x :: y :: rest ∧ rest.length = 2 * n := by
  rcases xs with _ | ⟨x, _ | ⟨y, rest⟩⟩
  · simp at even
  · simp at even
    omega
  · simp at even
    exact ⟨x, y, rest, rfl, by omega⟩

-- A stage of a parallel sum: the odd lanes shifted down and the even lanes, each
-- cut to double lanes by a mask that is wide enough for them.
theorem stage_pairs (k c : Nat) (xs : List Nat) (n : Nat) (even : xs.length = 2 * n) (below : Below (2 ^ k) xs) (kept : ∀ x ∈ xs, x &&& c = x)
    (small : c < 2 ^ k) : (pack k xs >>> k &&& mask (2 * k) c n) + (pack k xs &&& mask (2 * k) c n) = pack (2 * k) (pairs xs) := by
  induction n generalizing xs with
  | zero =>
      obtain rfl := List.length_eq_zero_iff.mp even
      simp [pack, mask, pairs]
  | succ n ih =>
      obtain ⟨x, y, rest, rfl, half⟩ := two_lanes xs n even
      have later := ih rest half (below_tail (below_tail below)) fun z member => kept z (by simp [member])
      have first := below_head below
      have second := below_head (below_tail below)
      rw [pack_shift k (y :: rest) x below, pack, pack, mask, land_half k c _ y _ second small, land_half k c _ x _ first small,
        pack_shift k rest y (below_tail below), kept x (by simp), kept y (by simp), pairs, pack, ← later, Nat.mul_add]
      omega

theorem pairs_length (xs : List Nat) (n : Nat) (even : xs.length = 2 * n) : (pairs xs).length = n := by
  induction n generalizing xs with
  | zero =>
      obtain rfl := List.length_eq_zero_iff.mp even
      rfl
  | succ n ih =>
      obtain ⟨x, y, rest, rfl, half⟩ := two_lanes xs n even
      rw [pairs, List.length_cons, ih rest half]

theorem pairs_total (xs : List Nat) (n : Nat) (even : xs.length = 2 * n) : total (pairs xs) = total xs := by
  induction n generalizing xs with
  | zero =>
      obtain rfl := List.length_eq_zero_iff.mp even
      rfl
  | succ n ih =>
      obtain ⟨x, y, rest, rfl, half⟩ := two_lanes xs n even
      rw [pairs, total, ih rest half, total, total, Nat.add_assoc]

theorem pairs_below (xs : List Nat) (n bound : Nat) (even : xs.length = 2 * n) (below : Below (bound + 1) xs) :
    Below (2 * bound + 1) (pairs xs) := by
  induction n generalizing xs with
  | zero =>
      obtain rfl := List.length_eq_zero_iff.mp even
      intro x member
      cases member
  | succ n ih =>
      obtain ⟨x, y, rest, rfl, half⟩ := two_lanes xs n even
      have first := below_head below
      have second := below_head (below_tail below)
      intro z member
      obtain rfl | member := List.mem_cons.mp member
      · omega
      · exact ih rest half (below_tail (below_tail below)) z member

-- A word is its odd lanes above its even lanes.
theorem stage_whole (k c : Nat) (xs : List Nat) (n : Nat) (even : xs.length = 2 * n) (below : Below (2 ^ k) xs) (kept : ∀ x ∈ xs, x &&& c = x)
    (small : c < 2 ^ k) : 2 ^ k * (pack k xs >>> k &&& mask (2 * k) c n) + (pack k xs &&& mask (2 * k) c n) = pack k xs := by
  induction n generalizing xs with
  | zero =>
      obtain rfl := List.length_eq_zero_iff.mp even
      simp [pack, mask]
  | succ n ih =>
      obtain ⟨x, y, rest, rfl, half⟩ := two_lanes xs n even
      have later := ih rest half (below_tail (below_tail below)) fun z member => kept z (by simp [member])
      have first := below_head below
      have second := below_head (below_tail below)
      have wide : 2 ^ (2 * k) = 2 ^ k * 2 ^ k := by rw [Nat.two_mul, Nat.pow_add]
      rw [pack_shift k (y :: rest) x below, pack, pack, mask, land_half k c _ y _ second small, land_half k c _ x _ first small,
        pack_shift k rest y (below_tail below), kept x (by simp), kept y (by simp), wide]
      generalize pack k rest >>> k &&& mask (2 * k) c n = odds at later ⊢
      generalize pack k rest &&& mask (2 * k) c n = evens at later ⊢
      rw [pack, ← later]
      simp only [Nat.mul_add, Nat.mul_assoc]
      omega

theorem pack_le (k bound : Nat) (xs : List Nat) (below : Below (bound + 1) xs) : pack k xs ≤ mask k bound xs.length := by
  induction xs with
  | nil => exact Nat.le_refl 0
  | cons x xs ih =>
      have head := below_head below
      exact Nat.add_le_add (Nat.mul_le_mul_left _ (ih (below_tail below))) (by omega)

theorem shift_split (k y z : Nat) (rest : Nat) (lane : y + rest % 2 ^ k < 2 ^ k) (whole : z = 2 ^ k * rest + y) :
    (rest + z) >>> k = rest >>> k + rest := by
  have split := Nat.div_add_mod rest (2 ^ k)
  have sum : rest + z = 2 ^ k * (rest / 2 ^ k + rest) + (y + rest % 2 ^ k) := by
    rw [Nat.mul_add]
    omega
  rw [sum, shift_lane k _ _ lane, Nat.shiftRight_eq_div_pow]

theorem pack_mod (k : Nat) (xs : List Nat) (bound : Nat) (below : Below (bound + 1) xs) : pack k xs % 2 ^ k ≤ bound := by
  rcases xs with _ | ⟨x, rest⟩
  · rw [pack, Nat.zero_mod]
    exact Nat.zero_le _
  · have head := below_head below
    rw [pack, Nat.mul_add_mod]
    exact Nat.le_trans (Nat.mod_le x _) (by omega)

-- The same stage with the mask after the sum, where no two neighbours fill a lane.
theorem late_pairs (k c bound : Nat) (xs : List Nat) (n : Nat) (even : xs.length = 2 * n) (below : Below (bound + 1) xs)
    (kept : ∀ x, x ≤ 2 * bound → x &&& c = x) (fits : 2 * bound < 2 ^ k) (small : c < 2 ^ k) :
    (pack k xs >>> k + pack k xs) &&& mask (2 * k) c n = pack (2 * k) (pairs xs) := by
  induction n generalizing xs with
  | zero =>
      obtain rfl := List.length_eq_zero_iff.mp even
      simp [pack, mask, pairs]
  | succ n ih =>
      obtain ⟨x, y, rest, rfl, half⟩ := two_lanes xs n even
      have later := ih rest half (below_tail (below_tail below))
      have first := below_head below
      have second := below_head (below_tail below)
      have third := pack_mod k rest bound (below_tail (below_tail below))
      have sum : pack k (x :: y :: rest) >>> k + pack k (x :: y :: rest) = 2 ^ k * (pack k rest + pack k (y :: rest)) + (x + y) := by
        have whole : pack k (x :: y :: rest) = 2 ^ k * pack k (y :: rest) + x := rfl
        have next : pack k (y :: rest) = 2 ^ k * pack k rest + y := rfl
        rw [pack_shift k (y :: rest) x fun z member => Nat.lt_of_lt_of_le (below z member) (by omega), whole, Nat.mul_add]
        omega
      have above : (pack k rest + pack k (y :: rest)) >>> k = pack k rest >>> k + pack k rest :=
        shift_split k y _ (pack k rest) (by omega) rfl
      rw [sum, mask, land_half k c _ (x + y) _ (by omega) small, above, later, kept (x + y) (by omega), pairs, pack]

-- The word is n lanes of k bits, none above the bound, that add up to the count.
def Sums (k n bound count word : Nat) : Prop := ∃ xs, word = pack k xs ∧ xs.length = n ∧ Below (bound + 1) xs ∧ total xs = count

theorem sums_lanes (n word : Nat) (small : word < 2 ^ n) : Sums 1 n 1 (total (lanes 1 n word)) word :=
  ⟨lanes 1 n word, (pack_lanes 1 n word (by rwa [Nat.one_mul])).symm, lanes_length 1 n word, lanes_below 1 n word, rfl⟩

theorem sums_stage (k c n bound count word : Nat) (sums : Sums k (2 * n) bound count word) (fits : bound < 2 ^ k)
    (kept : ∀ x, x ≤ bound → x &&& c = x) (small : c < 2 ^ k) :
    Sums (2 * k) n (2 * bound) count ((word >>> k &&& mask (2 * k) c n) + (word &&& mask (2 * k) c n)) := by
  obtain ⟨xs, rfl, length, below, rfl⟩ := sums
  have wide : Below (2 ^ k) xs := fun x member => Nat.lt_of_lt_of_le (below x member) fits
  have each : ∀ x ∈ xs, x &&& c = x := fun x member => kept x (Nat.le_of_lt_succ (below x member))
  exact ⟨pairs xs, stage_pairs k c xs n length wide each small, pairs_length xs n length, pairs_below xs n bound length below,
    pairs_total xs n length⟩

theorem sums_late (k c n bound count word : Nat) (sums : Sums k (2 * n) bound count word) (fits : 2 * bound < 2 ^ k)
    (kept : ∀ x, x ≤ 2 * bound → x &&& c = x) (small : c < 2 ^ k) :
    Sums (2 * k) n (2 * bound) count ((word >>> k + word) &&& mask (2 * k) c n) := by
  obtain ⟨xs, rfl, length, below, rfl⟩ := sums
  exact ⟨pairs xs, late_pairs k c bound xs n length below kept fits small, pairs_length xs n length, pairs_below xs n bound length below,
    pairs_total xs n length⟩

theorem sums_le (k n bound count word : Nat) (sums : Sums k n bound count word) : word ≤ mask k bound n := by
  obtain ⟨xs, rfl, rfl, below, -⟩ := sums
  exact pack_le k bound xs below

end Lanes

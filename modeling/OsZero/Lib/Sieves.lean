import Mathlib.Data.Nat.Prime.Basic
import Mathlib.Tactic.Ring

set_option autoImplicit false

namespace Sieves

-- No prime in front of l crosses i out.
def Kept (l i : Nat) : Prop := ∀ p, p.Prime → p < l → p ∣ i → p = i

theorem kept_two (i : Nat) : Kept 2 i := fun _ prime less _ => absurd prime.two_le (Nat.not_le.mpr less)

theorem kept_prime (l i : Nat) (prime : i.Prime) : Kept l i := fun _ first _ divides => (Nat.prime_dvd_prime_iff_eq first prime).mp divides

-- Numbers that are not prime cross nothing out.
theorem kept_skip (l next i : Nat) (low : l ≤ next) (none : ∀ j, l ≤ j → j < next → ¬j.Prime) : Kept next i ↔ Kept l i := by
  constructor
  · intro kept p prime less divides
    exact kept p prime (Nat.lt_of_lt_of_le less low) divides
  · intro kept p prime less divides
    by_cases before : p < l
    · exact kept p prime before divides
    · exact absurd prime (none p (Nat.le_of_not_lt before) less)

theorem kept_self (l : Nat) (large : 2 ≤ l) (kept : Kept l l) : l.Prime := by
  have prime := Nat.minFac_prime (n := l) (by omega)
  rcases Nat.lt_or_eq_of_le (Nat.minFac_le (n := l) (by omega)) with less | same
  · exact kept l.minFac prime less (Nat.minFac_dvd l) ▸ prime
  · exact same ▸ prime

theorem kept_all (lim i : Nat) (large : 2 ≤ i) (less : i < lim) : Kept lim i ↔ i.Prime := by
  refine ⟨fun kept => kept_self i large fun p prime before divides => ?_, kept_prime lim i⟩
  exact kept p prime (Nat.lt_trans before less) divides

-- A multiple of l below its square was crossed out by a smaller prime.
theorem kept_square (l i : Nat) (positive : 0 < i) (prime : l.Prime) (kept : Kept l i) (divides : l ∣ i) (below : i < l * l) : l = i := by
  obtain ⟨k, rfl⟩ := divides
  by_cases one : k = 1
  · rw [one, Nat.mul_one]
  · have less : k < l := Nat.lt_of_mul_lt_mul_left below
    have factor := Nat.minFac_prime one
    have inside : k.minFac ∣ l * k := (Nat.minFac_dvd k).trans (Nat.dvd_mul_left k l)
    have some_k : 0 < k := Nat.pos_of_mul_pos_left positive
    have small := Nat.minFac_le some_k
    have whole := kept k.minFac factor (by omega) inside
    have large := Nat.le_mul_of_pos_left k prime.pos
    have bound : l ≤ l * k := Nat.le_mul_of_pos_right l some_k
    omega

-- The multiples from the square on are enough.
theorem kept_cross (l i : Nat) (positive : 0 < i) (prime : l.Prime) : Kept (l + 1) i ↔ Kept l i ∧ ¬∃ k, i = l * l + k * l := by
  constructor
  · refine fun kept => ⟨fun p first less divides => kept p first (by omega) divides, ?_⟩
    rintro ⟨k, same⟩
    have divides : l ∣ i := ⟨l + k, by rw [same, Nat.mul_add, Nat.mul_comm k l]⟩
    have whole := kept l prime (Nat.lt_succ_self l) divides
    have large := Nat.mul_le_mul_right l prime.two_le
    have some_l := prime.pos
    omega
  · rintro ⟨kept, clear⟩ p first less divides
    rcases Nat.lt_or_eq_of_le (Nat.le_of_lt_succ less) with before | rfl
    · exact kept p first before divides
    · by_cases below : i < p * p
      · exact kept_square p i positive prime kept divides below
      · obtain ⟨m, rfl⟩ := divides
        have large : p ≤ m := Nat.le_of_mul_le_mul_left (Nat.le_of_not_lt below) prime.pos
        exact absurd ⟨m - p, by rw [← Nat.add_mul, Nat.add_sub_cancel' large, Nat.mul_comm]⟩ clear

-- For an odd l every other one of them is enough: the even ones have gone.
theorem kept_cross_odd (l i : Nat) (positive : 0 < i) (prime : l.Prime) (odd : 2 < l) :
    Kept (l + 1) i ↔ Kept l i ∧ ¬∃ k, i = l * l + k * (2 * l) := by
  rw [kept_cross l i positive prime]
  refine and_congr_right fun kept => not_congr ⟨?_, ?_⟩
  · rintro ⟨k, same⟩
    rcases Nat.even_or_odd' k with ⟨half, rfl | rfl⟩
    · exact ⟨half, by rw [same, Nat.mul_comm 2 half, Nat.mul_assoc]⟩
    · obtain ⟨half', parity⟩ := prime.odd_of_ne_two (Nat.ne_of_gt odd)
      have even : 2 ∣ i := ⟨l * (half' + half + 1), by rw [same, parity]; ring⟩
      have two := kept 2 Nat.prime_two odd even
      have large := Nat.mul_le_mul odd.le odd.le
      omega
  · rintro ⟨k, same⟩
    exact ⟨k * 2, by rw [same, Nat.mul_assoc]⟩

end Sieves

import Mathlib.Data.Nat.Digits.Defs

set_option autoImplicit false

namespace Numerals

-- The digits of a number as they are written, the highest first; zero has one.
def numeral (base n : Nat) : List Nat := if n = 0 then [0] else (Nat.digits base n).reverse

def horner (base : Nat) (digits : List Nat) : Nat := digits.foldl (fun v d => v * base + d) 0

section Numerals

variable {base : Nat} (large : 1 < base) (n : Nat)
include large

theorem numeral_step : numeral base n = (if n / base = 0 then [] else numeral base (n / base)) ++ [n % base] := by
  by_cases zero : n = 0
  · subst zero
    rw [Nat.zero_div, if_pos rfl, Nat.zero_mod]
    rfl
  · rw [numeral, if_neg zero, Nat.digits_def' large (Nat.pos_of_ne_zero zero), List.reverse_cons]
    by_cases last : n / base = 0
    · rw [if_pos last, last, Nat.digits_zero, List.reverse_nil]
    · rw [if_neg last, numeral, if_neg last]

theorem numeral_below (d : Nat) (digit : d ∈ numeral base n) : d < base := by
  rw [numeral] at digit
  by_cases zero : n = 0
  · rw [if_pos zero, List.mem_singleton] at digit
    omega
  · rw [if_neg zero, List.mem_reverse] at digit
    exact Nat.digits_lt_base large digit

theorem numeral_value : horner base (numeral base n) = n := by
  induction n using Nat.strongRecOn with
  | _ n ih =>
    rw [numeral_step large, horner, List.foldl_append]
    have whole := Nat.mod_add_div n base
    by_cases last : n / base = 0
    · rw [last, Nat.mul_zero] at whole
      rw [if_pos last, List.foldl_nil, List.foldl_cons, List.foldl_nil, Nat.zero_mul, Nat.zero_add]
      exact whole
    · have less : n / base < n := Nat.div_lt_self (Nat.pos_of_ne_zero fun zero => last (by rw [zero, Nat.zero_div])) large
      have before : List.foldl (fun v d => v * base + d) 0 (numeral base (n / base)) = n / base := ih _ less
      rw [if_neg last, before, List.foldl_cons, List.foldl_nil, Nat.mul_comm, Nat.add_comm]
      exact whole

theorem numeral_length (k : Nat) (nonzero : 0 < k) (small : n < base ^ k) : (numeral base n).length ≤ k := by
  induction k generalizing n with
  | zero => omega
  | succ k ih =>
    rw [numeral_step large, List.length_append, List.length_singleton]
    by_cases last : n / base = 0
    · rw [if_pos last, List.length_nil]
      omega
    · have less : n / base < base ^ k := Nat.div_lt_of_lt_mul (by rwa [Nat.mul_comm, ← Nat.pow_succ])
      have more : 0 < k := by
        rcases Nat.eq_zero_or_pos k with rfl | more
        · exact absurd (Nat.lt_one_iff.mp less) last
        · exact more
      rw [if_neg last]
      exact Nat.succ_le_succ (ih _ more less)

end Numerals

end Numerals

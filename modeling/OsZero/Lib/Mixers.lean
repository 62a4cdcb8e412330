import Mathlib.Data.BitVec
import Mathlib.Logic.Function.Basic

set_option autoImplicit false

namespace Mixers

variable {w : Nat}

def xorshift (n : Nat) (x : BitVec w) : BitVec w := x ^^^ (x >>> n)

theorem shift_xor (n : Nat) (x : BitVec w) : (x >>> n) ^^^ x = xorshift n x := BitVec.xor_comm _ _

theorem xorshift_bit (n i : Nat) (x : BitVec w) : (xorshift n x).getLsbD i = (x.getLsbD i ^^ x.getLsbD (n + i)) := by
  rw [xorshift, BitVec.getLsbD_xor, BitVec.getLsbD_ushiftRight]

-- From the highest bit down, each bit is what the bits above leave of it.
theorem xorshift_injective (n : Nat) (positive : 0 < n) : Function.Injective (xorshift (w := w) n) := by
  intro x y same
  have above (count : Nat) : ∀ i, w ≤ i + count → x.getLsbD i = y.getLsbD i := by
    induction count with
    | zero =>
        intro i outside
        rw [BitVec.getLsbD_of_ge x i outside, BitVec.getLsbD_of_ge y i outside]
    | succ count ih =>
        intro i outside
        have higher := ih (n + i) (by omega)
        have bit := congrArg (fun z : BitVec w => z.getLsbD i) same
        rw [xorshift_bit, xorshift_bit, higher] at bit
        exact Bool.xor_left_inj.mp bit
  apply BitVec.eq_of_getLsbD_eq
  intro i _
  exact above w i (Nat.le_add_left w i)

-- Shifts of half the word or more undo themselves.
theorem xorshift_twice (n : Nat) (half : w ≤ n + n) (x : BitVec w) : xorshift n (xorshift n x) = x := by
  apply BitVec.eq_of_getLsbD_eq
  intro i _
  rw [xorshift_bit, xorshift_bit, xorshift_bit, BitVec.getLsbD_of_ge x (n + (n + i)) (by omega), Bool.xor_false, Bool.xor_assoc,
    Bool.xor_self, Bool.xor_false]

theorem mul_cancel (factor inverse x : BitVec w) (inverts : factor * inverse = 1#w) : x * factor * inverse = x := by
  rw [BitVec.mul_assoc, inverts, BitVec.mul_one]

theorem mul_injective (factor inverse : BitVec w) (inverts : factor * inverse = 1#w) : Function.Injective fun x => x * factor := by
  intro x y same
  rw [← mul_cancel factor inverse x inverts, ← mul_cancel factor inverse y inverts]
  exact congrArg (fun product => product * inverse) same

end Mixers

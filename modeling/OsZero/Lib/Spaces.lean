import Mathlib.Data.BitVec
import Mathlib.Logic.Function.Iterate

set_option autoImplicit false

namespace Spaces

variable {w : Nat}

-- Memory by bytes, where addresses go round at the width of a pointer.
abbrev Space (w : Nat) := BitVec w → UInt8

def filled (adr : BitVec w) (count : Nat) (byte : UInt8) (mem : Space w) : Space w := fun a => if (a - adr).toNat < count then byte else mem a

theorem filled_none (adr : BitVec w) (byte : UInt8) (mem : Space w) : filled adr 0 byte mem = mem := by
  funext a
  rw [filled, if_neg (Nat.not_lt_zero _)]

theorem filled_filled (adr : BitVec w) (first second : Nat) (byte : UInt8) (mem : Space w) :
    filled (adr + BitVec.ofNat w first) second byte (filled adr first byte mem) = filled adr (first + second) byte mem := by
  funext a
  simp only [filled]
  by_cases before : (a - adr).toNat < first
  · rw [if_pos before, if_pos (Nat.lt_add_right second before), ite_self]
  · have word : first < 2 ^ w := Nat.lt_of_le_of_lt (Nat.le_of_not_lt before) (a - adr).isLt
    have offset : (BitVec.ofNat w first).toNat = first := by rw [BitVec.toNat_ofNat, Nat.mod_eq_of_lt word]
    have rest : (a - (adr + BitVec.ofNat w first)).toNat = (a - adr).toNat - first := by
      rw [sub_add_eq_sub_sub, BitVec.toNat_sub_of_le (BitVec.le_def.mpr (by rw [offset]; omega)), offset]
    rw [if_neg before, rest]
    apply ite_congr
    · exact propext (by omega)
    · exact fun _ => rfl
    · exact fun _ => rfl

-- Two fillings agree just where the bytes that only one of them sets are set already.
theorem filled_agrees_iff (adr : BitVec w) (count len : Nat) (byte : UInt8) (mem : Space w) :
    (∀ a, filled adr count byte mem a = filled adr len byte mem a) ↔
      ∀ a : BitVec w, min count len ≤ (a - adr).toNat → (a - adr).toNat < max count len → mem a = byte := by
  apply forall_congr'
  intro a
  simp only [filled]
  by_cases one : (a - adr).toNat < count
  · by_cases two : (a - adr).toNat < len
    · rw [if_pos one, if_pos two]
      exact ⟨fun _ low => by omega, fun _ => rfl⟩
    · rw [if_pos one, if_neg two]
      exact ⟨fun same _ _ => same.symm, fun set => (set (by omega) (by omega)).symm⟩
  · by_cases two : (a - adr).toNat < len
    · rw [if_neg one, if_pos two]
      exact ⟨fun same _ _ => same, fun set => set (by omega) (by omega)⟩
    · rw [if_neg one, if_neg two]
      exact ⟨fun _ _ high => by omega, fun _ => rfl⟩

-- A store of size bytes that moves the pointer on behind them.
def stored (size : Nat) (byte : UInt8) (cursor : BitVec w × Space w) : BitVec w × Space w :=
  (cursor.1 + BitVec.ofNat w size, filled cursor.1 size byte cursor.2)

theorem stored_stored (first second : Nat) (byte : UInt8) (cursor : BitVec w × Space w) :
    stored second byte (stored first byte cursor) = stored (first + second) byte cursor := by
  simp only [stored]
  rw [filled_filled, add_assoc, ← BitVec.ofNat_add]

theorem stored_none (byte : UInt8) (cursor : BitVec w × Space w) : stored 0 byte cursor = cursor := by
  rw [stored, filled_none, BitVec.add_zero]

theorem stored_iterate (size count : Nat) (byte : UInt8) (cursor : BitVec w × Space w) :
    (stored size byte)^[count] cursor = stored (count * size) byte cursor := by
  induction count with
  | zero => rw [Function.iterate_zero_apply, Nat.zero_mul, stored_none]
  | succ count ih => rw [Function.iterate_succ_apply', ih, stored_stored, Nat.succ_mul]

end Spaces

import OsZero.Lib.Rounding
import OsZero.Lib.Spaces

set_option autoImplicit false

namespace OsZero.Libc

open Spaces Rounding

section Loops

variable {State : Type}

-- while (n--) with a signed n, which never ends when n is negative.
def countlong (n : Int) (body : State → State) (state : State) : Option State := if n < 0 then none else some (body^[n.toNat] state)

theorem countlong_nat (n : Nat) (body : State → State) (state : State) : countlong (n : Int) body state = some (body^[n] state) := by
  rw [countlong, if_neg (by omega), Int.toNat_natCast]

theorem countlong_negative (n : Int) (body : State → State) (state : State) (negative : n < 0) : countlong n body state = none := by
  rw [countlong, if_pos negative]

end Loops

-- A long has 2 ^ log bytes, where log stands for LONGSIZELOG2, and a pointer its bits.
variable (log : Nat)

abbrev longbits : Nat := 8 * 2 ^ log

-- lptr[0] = 0 to lptr[7] = 0, and lptr += 8.
def zeroline (cursor : BitVec (longbits log) × Space (longbits log)) : BitVec (longbits log) × Space (longbits log) :=
  (cursor.1 + BitVec.ofNat _ (8 * 2 ^ log),
    (List.range 8).foldl (fun mem i => filled (cursor.1 + BitVec.ofNat _ (i * 2 ^ log)) (2 ^ log) 0 mem) cursor.2)

-- n & mask, where the mask is unsigned.
def longand (n : Int) (mask : BitVec (longbits log)) : Int := (BitVec.ofInt _ n &&& mask).toInt

-- How far it is to the next long, in bytes.
def unaligned (ptr : BitVec (longbits log)) : Nat :=
  let val := ptr.toNat &&& (2 ^ log - 1)
  if val ≠ 0 then 2 ^ log - val else 0

def bzero (ptr nb : BitVec (longbits log)) (mem : Space (longbits log)) : Option (Space (longbits log)) :=
  let n : Int := unaligned log ptr
  let nleft := nb.toInt - n
  (countlong n (stored 1 0) (ptr, mem)).bind fun cursor =>
  (countlong (nleft >>> (3 + log - 1)) (zeroline log) cursor).bind fun cursor =>
  let nleft := longand log nleft (~~~BitVec.ofNat _ (8 * 2 ^ log - 1))
  (countlong (nleft >>> log) (stored (2 ^ log) 0) cursor).bind fun cursor =>
  let nleft := longand log nleft (BitVec.ofNat _ (2 ^ log - 1))
  (countlong nleft (stored 1 0) cursor).map Prod.snd

theorem zeroline_stored : zeroline log = stored (8 * 2 ^ log) 0 := by
  funext cursor
  have upto (n : Nat) : (List.range n).foldl (fun mem i => filled (cursor.1 + BitVec.ofNat _ (i * 2 ^ log)) (2 ^ log) 0 mem) cursor.2 =
      filled cursor.1 (n * 2 ^ log) 0 cursor.2 := by
    induction n with
    | zero => rw [Nat.zero_mul, filled_none]; rfl
    | succ n ih => rw [List.range_succ, List.foldl_append, ih, List.foldl_cons, List.foldl_nil, filled_filled, Nat.succ_mul]
  rw [zeroline, upto 8]
  rfl

theorem longand_nat (n : Nat) (mask : BitVec (longbits log)) (low : 2 * n < 2 ^ longbits log) :
    longand log n mask = ((BitVec.ofNat _ n &&& mask).toNat : Int) := by
  have less : (BitVec.ofNat (longbits log) n &&& mask).toNat ≤ n := by
    rw [BitVec.toNat_and, BitVec.toNat_ofNat, Nat.mod_eq_of_lt (by omega)]
    exact Nat.and_le_left
  rw [longand, BitVec.ofInt_natCast, BitVec.toInt_eq_toNat_of_lt (by omega)]

theorem shift_nat (n k : Nat) : (n : Int) >>> k = ((n / 2 ^ k : Nat) : Int) := by
  rw [Int.shiftRight_eq_div_pow]
  rfl

-- What the four loops set when nleft bytes are left behind the first long boundary.
def zerobytes (nleft : Nat) : Nat := nleft / 2 ^ (log + 2) * (8 * 2 ^ log) + nleft / 2 ^ (log + 3) * 2 ^ (log + 3)

theorem bzero_negative (ptr nb : BitVec (longbits log)) (mem : Space (longbits log)) (short : nb.toInt < unaligned log ptr) :
    bzero log ptr nb mem = none := by
  have negative : (nb.toInt - unaligned log ptr) >>> (3 + log - 1) < 0 := by
    rw [Int.shiftRight_eq_div_pow]
    exact Int.ediv_neg_of_neg_of_pos (by omega) (Int.natCast_pos.mpr (Nat.two_pow_pos _))
  rw [bzero, countlong_nat, Option.bind_some, countlong_negative _ _ _ negative]
  rfl

theorem line_mask (size : log = 2 ∨ log = 3) :
    ~~~BitVec.ofNat (longbits log) (8 * 2 ^ log - 1) = BitVec.allOnes (longbits log) <<< (log + 3) := by
  rcases size with rfl | rfl <;> decide

theorem bzero_filled (size : log = 2 ∨ log = 3) (ptr nb : BitVec (longbits log)) (mem : Space (longbits log)) (nleft : Nat)
    (left : nb.toInt = (unaligned log ptr + nleft : Nat)) :
    bzero log ptr nb mem = some (filled ptr (unaligned log ptr + zerobytes log nleft) 0 mem) := by
  have signed : 2 * nb.toInt < ((2 ^ longbits log : Nat) : Int) := by
    push_cast
    exact BitVec.two_mul_toInt_lt
  have low : 2 * nleft < 2 ^ longbits log := by omega
  have rest : nb.toInt - unaligned log ptr = (nleft : Int) := by omega
  have word : (BitVec.ofNat (longbits log) nleft).toNat = nleft := by
    rw [BitVec.toNat_ofNat, Nat.mod_eq_of_lt (by omega)]
  have lines : longand log nleft (~~~BitVec.ofNat _ (8 * 2 ^ log - 1)) = ((nleft / 2 ^ (log + 3) * 2 ^ (log + 3) : Nat) : Int) := by
    rw [longand_nat log nleft _ low, line_mask log size, toNat_high, word]
  have whole : nleft / 2 ^ (log + 3) * 2 ^ (log + 3) = nleft / 2 ^ (log + 3) * 8 * 2 ^ log := by
    rw [Nat.pow_add, Nat.mul_comm (2 ^ log), Nat.mul_assoc]
  have less : nleft / 2 ^ (log + 3) * 2 ^ (log + 3) ≤ nleft := Nat.div_mul_le_self _ _
  have tail : longand log ((nleft / 2 ^ (log + 3) * 2 ^ (log + 3) : Nat) : Int) (BitVec.ofNat _ (2 ^ log - 1)) = ((0 : Nat) : Int) := by
    rw [longand_nat log _ _ (by omega), BitVec.toNat_and, BitVec.toNat_ofNat, BitVec.toNat_ofNat, Nat.mod_eq_of_lt (by omega),
      Nat.mod_eq_of_lt (show 2 ^ log - 1 < 2 ^ longbits log by rcases size with rfl | rfl <;> decide), Nat.and_two_pow_sub_one_eq_mod,
      whole, Nat.mul_mod_left]
  have longs : nleft / 2 ^ (log + 3) * 2 ^ (log + 3) / 2 ^ log = nleft / 2 ^ (log + 3) * 8 := by
    rw [whole, Nat.mul_div_cancel _ (Nat.two_pow_pos log)]
  rw [bzero, show 3 + log - 1 = log + 2 by omega]
  simp only [countlong_nat, Option.bind_some, rest, lines, tail, shift_nat, zeroline_stored, longs, stored_iterate, stored_stored,
    Option.map_some, Nat.mul_one, Nat.add_zero]
  rw [stored, zerobytes, whole]

-- Twice the rounds of the lines and the longs again: only nothing comes out right.
theorem zerobytes_exact (size : log = 2 ∨ log = 3) (nleft : Nat) : zerobytes log nleft = nleft ↔ nleft = 0 := by
  rw [zerobytes]
  rcases size with rfl | rfl
  all_goals
    simp only [Nat.reduceAdd, Nat.reducePow, Nat.reduceMul]
    omega

-- What clearing nb bytes from ptr on has to leave.
def Clears {w : Nat} (ptr nb : BitVec w) (mem after : Space w) : Prop :=
  ∀ a, after a = if (a - ptr).toNat < nb.toNat then 0 else mem a

theorem toInt_nonneg {w : Nat} (nb : BitVec w) (positive : 0 ≤ nb.toInt) : nb.toInt = nb.toNat := by
  have word := nb.isLt
  unfold BitVec.toInt at *
  split_ifs at * <;> omega

theorem unaligned_small (size : log = 2 ∨ log = 3) (ptr : BitVec (longbits log)) : unaligned log ptr ≤ 2 ^ log ∧ 2 * 2 ^ log < 2 ^ longbits log := by
  constructor
  · rw [unaligned]
    split_ifs
    · exact Nat.sub_le _ _
    · exact Nat.zero_le _
  · rcases size with rfl | rfl <;> decide

-- How many bytes from ptr on bzero sets when it ends.
def zerototal (ptr nb : BitVec (longbits log)) : Nat := unaligned log ptr + zerobytes log (nb.toNat - unaligned log ptr)

theorem bzero_clears (size : log = 2 ∨ log = 3) (ptr nb : BitVec (longbits log)) (mem : Space (longbits log)) :
    (∃ after, bzero log ptr nb mem = some after ∧ Clears ptr nb mem after) ↔
      (unaligned log ptr : Int) ≤ nb.toInt ∧
        ∀ a, min (zerototal log ptr nb) nb.toNat ≤ (a - ptr).toNat → (a - ptr).toNat < max (zerototal log ptr nb) nb.toNat → mem a = 0 := by
  rcases Int.lt_or_le nb.toInt (unaligned log ptr) with short | enough
  · rw [bzero_negative log ptr nb mem short]
    constructor
    · rintro ⟨after, same, -⟩
      cases same
    · rintro ⟨enough, -⟩
      omega
  · have value := toInt_nonneg nb (by omega)
    rw [bzero_filled log size ptr nb mem (nb.toNat - unaligned log ptr) (by omega), ← filled_agrees_iff]
    constructor
    · rintro ⟨after, same, clears⟩
      cases same
      exact ⟨enough, clears⟩
    · rintro ⟨-, agrees⟩
      exact ⟨_, rfl, agrees⟩

-- A memory without a zero tells when too much or too little is set.
theorem bzero_exact (size : log = 2 ∨ log = 3) (ptr nb : BitVec (longbits log))
    (clears : ∃ after, bzero log ptr nb (fun _ => 1) = some after ∧ Clears ptr nb (fun _ => 1) after) : nb.toNat = unaligned log ptr := by
  obtain ⟨enough, apart⟩ := (bzero_clears log size ptr nb _).mp clears
  have value := toInt_nonneg nb (by omega)
  have word := nb.isLt
  have same : zerototal log ptr nb = nb.toNat := by
    by_contra different
    generalize zerototal log ptr nb = total at apart different
    have offset : (ptr + BitVec.ofNat _ (min total nb.toNat) - ptr).toNat = min total nb.toNat := by
      rw [add_sub_cancel_left, BitVec.toNat_ofNat, Nat.mod_eq_of_lt (by omega)]
    have set := apart (ptr + BitVec.ofNat _ (min total nb.toNat)) (by rw [offset]) (by rw [offset]; omega)
    exact absurd set (by decide)
  rw [zerototal] at same
  have nothing := (zerobytes_exact log size (nb.toNat - unaligned log ptr)).mp (by omega)
  omega

theorem bzero_aligned (size : log = 2 ∨ log = 3) (ptr nb : BitVec (longbits log)) (mem : Space (longbits log))
    (nothing : nb.toNat = unaligned log ptr) : ∃ after, bzero log ptr nb mem = some after ∧ Clears ptr nb mem after := by
  obtain ⟨small, word⟩ := unaligned_small log size ptr
  have value : nb.toInt = nb.toNat := BitVec.toInt_eq_toNat_of_lt (by omega)
  refine (bzero_clears log size ptr nb mem).mpr ⟨by omega, fun a low high => ?_⟩
  rw [zerototal, nothing, Nat.sub_self, (zerobytes_exact log size 0).mpr rfl] at low high
  omega

theorem bzero_clears_iff (size : log = 2 ∨ log = 3) (ptr nb : BitVec (longbits log)) :
    (∀ mem, (∃ after, bzero log ptr nb mem = some after ∧ Clears ptr nb mem after) ↔
      (unaligned log ptr : Int) ≤ nb.toInt ∧
        ∀ a, min (zerototal log ptr nb) nb.toNat ≤ (a - ptr).toNat → (a - ptr).toNat < max (zerototal log ptr nb) nb.toNat → mem a = 0) ∧
      ((∀ mem, ∃ after, bzero log ptr nb mem = some after ∧ Clears ptr nb mem after) ↔ nb.toNat = unaligned log ptr) := by
  refine ⟨bzero_clears log size ptr nb, ?_, ?_⟩
  · intro clears
    exact bzero_exact log size ptr nb (clears _)
  · intro nothing mem
    exact bzero_aligned log size ptr nb mem nothing

theorem bzero_clears_five : ∃ after, bzero 3 4099 5 (fun _ => 1) = some after ∧ Clears 4099 5 (fun _ => 1) after := by
  exact (bzero_clears_iff 3 (.inr rfl) 4099 5).2.mpr (by decide) _

theorem bzero_wrong : bzero 3 4097 3 (fun _ => 1) = none ∧
    ¬ ∃ after, bzero 3 4096 32 (fun _ => 1) = some after ∧ Clears 4096 32 (fun _ => 1) after := by
  refine ⟨bzero_negative 3 4097 3 _ (by decide), ?_⟩
  rintro ⟨after, same, clears⟩
  rw [bzero_filled 3 (.inr rfl) 4096 32 _ 32 (by decide)] at same
  cases same
  have behind := clears 4128
  revert behind
  decide

end OsZero.Libc

import Mathlib.Algebra.Group.Nat.Defs
import OsZero.Tree.Shaped

set_option autoImplicit false

namespace OsZero.Trie

-- What a slot that is read as a pointer holds; garbage is a value, or a pointer to a table
-- that was freed.
inductive Ptr
  | null
  | table (tab : List Nat)
  | garbage
  deriving DecidableEq

-- ((void **)ptr)[ndx]; none outside of a table.
def load (trie : Mlt) (ptr : Ptr) (ndx : Nat) : Option Ptr :=
  match ptr with
  | .table tab =>
    if ndx < 256 then
      if tab.length < mltnptrlvl then
        match trie.slots (tab ++ [ndx]) with
        | .null => some .null
        | .table => some (.table (tab ++ [ndx]))
        | .freed => some .garbage
      else some (if trie.vals (tab ++ [ndx]) = 0 then .null else .garbage)
    else none
  | _ => none

-- ((MLTVAL_T *)ptr)[ndx]; none outside of a table of values.
def value (trie : Mlt) (ptr : Ptr) (ndx : Nat) : Option Mltval :=
  match ptr with
  | .table tab => if ndx < 256 ∧ tab.length = mltnptrlvl then some (trie.vals (tab ++ [ndx])) else none
  | _ => none

-- do { ptr = tptr[ndx]; ndx--; } while (ndx >= lim && !ptr);
def scan (trie : Mlt) (tptr : Ptr) : Nat → Option Ptr
  | 0 => load trie tptr 0
  | ndx + 1 => load trie tptr (ndx + 1) >>= fun ptr => if ptr = .null then scan trie tptr ndx else some ptr

-- do { retval = ((MLTVAL_T *)ptr)[ndx]; ndx--; } while (ndx >= lim && retval == MLTINVAL);
def scanvals (trie : Mlt) (ptr : Ptr) : Nat → Option Mltval
  | 0 => value trie ptr 0
  | ndx + 1 => value trie ptr (ndx + 1) >>= fun retval => if retval = mltinval then scanvals trie ptr ndx else some retval

-- ndxstk[lvl]--;
def lower (ndxstk : Nat → Int) (lvl : Nat) : Nat → Int := Function.update ndxstk lvl (ndxstk lvl - 1)

-- retval is MLTINVAL wherever the loop comes round or ends.
def findprevLoop (trie : Mlt) : Nat → Ptr → Ptr → Nat → (Nat → Int) → Option Mltval
  | 0, _, _, _, _ => none
  | fuel + 1, tptr, ptr, lvl, ndxstk =>
    let ndx := ndxstk lvl
    if 0 ≤ ndx then
      if lvl = mltnptrlvl then
        if ptr ≠ .null then do
          let retval ← scanvals trie ptr ndx.toNat
          if retval = mltinval then findprevLoop trie fuel tptr ptr (lvl - 1) (lower ndxstk (lvl - 1)) else some retval
        else findprevLoop trie fuel tptr ptr 0 (lower ndxstk 0)
      else
        let tptr := if lvl = 0 then .table [] else tptr
        do
          let ptr ← scan trie tptr ndx.toNat
          if ptr = .null then
            if lvl ≠ 0 then findprevLoop trie fuel tptr ptr (lvl - 1) (lower ndxstk (lvl - 1)) else some mltinval
          else findprevLoop trie fuel ptr ptr (lvl + 1) ndxstk
    else
      match lvl with
      -- The level falls below zero.
      | 0 => some mltinval
      | lvl + 1 => findprevLoop trie fuel tptr ptr lvl ndxstk

def digits (val : Mltval) (lvl : Nat) : Int := digit val lvl

def mltfindprev (trie : Mlt) (val : Mltval) (fuel : Nat) : Option Mltval := findprevLoop trie fuel (.table []) .null 0 (digits (val - 1))

section Order

theorem digit_eq (val : Mltval) (lvl : Nat) : digit val lvl = val.toNat / 256 ^ (7 - lvl) % 256 := by
  have power : 2 ^ ((mltnptrlvl - lvl) * mltnlvlbit) = 256 ^ (7 - lvl) := by
    rw [Nat.mul_comm, Nat.pow_mul]
    rfl
  rw [digit, mltkey, BitVec.toNat_and, BitVec.toNat_ushiftRight, Nat.shiftRight_eq_div_pow, power]
  exact Nat.and_two_pow_sub_one_eq_mod _ 8

theorem digit_lt (val : Mltval) (lvl : Nat) : digit val lvl < 256 := by
  rw [digit_eq]
  exact Nat.mod_lt _ (by decide)

-- The number that the first digits make.
def front (val : Mltval) (len : Nat) : Nat := val.toNat / 256 ^ (8 - len)

theorem front_succ (val : Mltval) (len : Nat) (within : len < 8) : front val (len + 1) = front val len * 256 + digit val len := by
  have left : 8 - len = 7 - len + 1 := by omega
  have less : 8 - (len + 1) = 7 - len := by omega
  rw [front, front, digit_eq, left, less, Nat.pow_succ, ← Nat.div_div_eq_div_mul]
  exact (Nat.div_add_mod' _ 256).symm

theorem front_shares (val other : Mltval) (len : Nat) (within : len ≤ 8) (shares : Shares val other len) : front val len = front other len := by
  induction len with
  | zero => exact (Nat.div_eq_of_lt val.isLt).trans (Nat.div_eq_of_lt other.isLt).symm
  | succ len ih =>
    rw [front_succ val len (by omega), front_succ other len (by omega), ih (by omega) (shares_less val other _ len shares (by omega)),
      shares_digit val other _ len shares (Nat.lt_succ_self len)]

theorem lt_of_digit (val other : Mltval) (len : Nat) (within : len < 8) (shares : Shares val other len) (less : digit val len < digit other len) :
    val < other := by
  have fronts := front_shares val other len (by omega) shares
  have smaller : front val (len + 1) < front other (len + 1) := by
    rw [front_succ val len within, front_succ other len within, fronts]
    omega
  by_contra above
  have large : other.toNat ≤ val.toNat := Nat.le_of_not_lt above
  exact absurd (Nat.div_le_div_right large) (Nat.not_le_of_gt smaller)

theorem shares_succ (val other : Mltval) (len : Nat) (shares : Shares val other len) (same : digit val len = digit other len) :
    Shares val other (len + 1) := by
  rw [Shares, path_succ, path_succ, shares, same]

-- Two values first differ in one digit.
theorem first_digit (val other : Mltval) (differ : val ≠ other) : ∃ len, len < 8 ∧ Shares val other len ∧ digit val len ≠ digit other len := by
  by_contra none
  have all : ∀ len, len ≤ 8 → Shares val other len := by
    intro len
    induction len with
    | zero => exact fun _ => rfl
    | succ len ih =>
      intro within
      have before := ih (by omega)
      exact shares_succ val other len before (by_contra fun apart => none ⟨len, by omega, before, apart⟩)
  exact differ (digits_all val other (all 8 (Nat.le_refl 8)))

theorem digit_of_lt (val other : Mltval) (less : val < other) : ∃ len, len < 8 ∧ Shares val other len ∧ digit val len < digit other len := by
  obtain ⟨len, within, shares, apart⟩ := first_digit val other (fun same => by rw [same] at less; exact absurd less (Nat.lt_irrefl _))
  refine ⟨len, within, shares, Nat.lt_of_le_of_ne (Nat.le_of_not_lt fun above => ?_) apart⟩
  exact absurd (Nat.lt_trans less (lt_of_digit other val len within shares.symm above)) (Nat.lt_irrefl _)

end Order

end OsZero.Trie

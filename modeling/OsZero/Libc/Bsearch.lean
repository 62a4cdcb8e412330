import Mathlib.Algebra.Group.Nat.Defs

set_option autoImplicit false

namespace OsZero.Libc

-- What bsearch is called with, on a machine of 64-bit sizes; cmp stands for cmp(key, ptr).
structure Searchcall where
  base : Nat
  nitems : Nat
  itemsize : Nat
  cmp : Nat → Int

-- The pointer to an element.
def Searchcall.elem (call : Searchcall) (ndx : Nat) : Nat :=
  (call.base + ndx * call.itemsize % 18446744073709551616) % 18446744073709551616

-- The loop with its pointer, none for NULL, and the pointers that cmp was called with.
def bsearchloop (call : Searchcall) : Nat → Nat → Nat → Option (Option Nat × List Nat)
  | 0, _, _ => none
  | fuel + 1, l, lim =>
      if l < lim then
        let ndx := ((l + lim) % 18446744073709551616) >>> 1
        let ptr := call.elem ndx
        if call.cmp ptr < 0 then (bsearchloop call fuel l ndx).map fun result => (result.1, ptr :: result.2)
        else if 0 < call.cmp ptr then (bsearchloop call fuel ((ndx + 1) % 18446744073709551616) lim).map fun result => (result.1, ptr :: result.2)
        else some (some ptr, [ptr])
      else some (none, [])

def bsearch (call : Searchcall) (fuel : Nat) : Option (Option Nat × List Nat) := bsearchloop call fuel 0 call.nitems

-- The elements from lo to hi compare equal to the key, those before less and those behind greater.
structure Arranged (call : Searchcall) (lo hi : Nat) : Prop where
  order : lo ≤ hi
  inside : hi ≤ call.nitems
  less : ∀ i < lo, 0 < call.cmp (call.elem i)
  equal : ∀ i, lo ≤ i → i < hi → call.cmp (call.elem i) = 0
  greater : ∀ i, hi ≤ i → i < call.nitems → call.cmp (call.elem i) < 0

-- What a search of the elements from l to lim comes to.
structure Found (call : Searchcall) (lo hi rounds : Nat) (result : Option Nat × List Nat) : Prop where
  calls : ∀ ptr ∈ result.2, ∃ i < call.nitems, ptr = call.elem i
  few : result.2.length ≤ rounds
  hit : lo < hi → ∃ i, lo ≤ i ∧ i < hi ∧ result.1 = some (call.elem i)
  miss : lo = hi → result.1 = none

section Search

variable {call : Searchcall} {lo hi : Nat}

theorem found_cons (rounds ndx : Nat) (result : Option Nat × List Nat) (found : Found call lo hi rounds result) (element : ndx < call.nitems) :
    Found call lo hi (rounds + 1) (result.1, call.elem ndx :: result.2) := by
  constructor
  · intro ptr member
    rcases List.mem_cons.mp member with rfl | later
    · exact ⟨ndx, element, rfl⟩
    · exact found.calls ptr later
  · exact Nat.succ_le_succ found.few
  · exact found.hit
  · exact found.miss

variable (arranged : Arranged call lo hi)

include arranged

-- The comparison tells on which side of the equal elements the middle is.
theorem middle_cases (ndx : Nat) (element : ndx < call.nitems) :
    (call.cmp (call.elem ndx) < 0 ∧ hi ≤ ndx) ∨ (0 < call.cmp (call.elem ndx) ∧ ndx < lo) ∨
      (call.cmp (call.elem ndx) = 0 ∧ lo ≤ ndx ∧ ndx < hi) := by
  rcases Nat.lt_or_ge ndx lo with before | from_lo
  · exact .inr (.inl ⟨arranged.less ndx before, before⟩)
  · rcases Nat.lt_or_ge ndx hi with between | behind
    · exact .inr (.inr ⟨arranged.equal ndx from_lo between, from_lo, between⟩)
    · exact .inl ⟨arranged.greater ndx behind element, behind⟩

-- The equal elements stay between l and lim, and every round halves what is between them.
theorem bsearchloop_found (rounds l lim : Nat) (small : call.nitems < 9223372036854775808) (left : l ≤ lo) (right : hi ≤ lim)
    (inside : lim ≤ call.nitems) (halves : lim - l < 2 ^ rounds) :
    ∃ result, bsearchloop call (rounds + 1) l lim = some result ∧ Found call lo hi rounds result := by
  have order := arranged.order
  induction rounds generalizing l lim with
  | zero =>
      rw [Nat.pow_zero] at halves
      refine ⟨(none, []), ?_, fun ptr member => absurd member List.not_mem_nil, Nat.le_refl 0, fun some_equal => ?_, fun _ => rfl⟩
      · rw [bsearchloop, if_neg (by omega)]
      · omega
  | succ rounds ih =>
      rw [bsearchloop]
      by_cases more : l < lim
      · have middle : ((l + lim) % 18446744073709551616) >>> 1 = (l + lim) / 2 := by
          rw [Nat.mod_eq_of_lt (by omega), Nat.shiftRight_eq_div_pow, Nat.pow_one]
        have element : (l + lim) / 2 < call.nitems := by omega
        rw [if_pos more, middle]
        dsimp only
        rw [Nat.pow_succ] at halves
        rcases middle_cases arranged _ element with ⟨sign, behind⟩ | ⟨sign, before⟩ | ⟨sign, from_lo, to_hi⟩
        · obtain ⟨result, same, found⟩ := ih l ((l + lim) / 2) left behind (Nat.le_of_lt element) (by omega)
          rw [if_pos sign, same]
          exact ⟨_, rfl, found_cons rounds _ result found element⟩
        · have next : ((l + lim) / 2 + 1) % 18446744073709551616 = (l + lim) / 2 + 1 := Nat.mod_eq_of_lt (by omega)
          obtain ⟨result, same, found⟩ := ih ((l + lim) / 2 + 1) lim before right inside (by omega)
          rw [if_neg (by omega), if_pos sign, next, same]
          exact ⟨_, rfl, found_cons rounds _ result found element⟩
        · rw [if_neg (by omega), if_neg (by omega)]
          refine ⟨_, rfl, fun ptr member => ?_, Nat.succ_le_succ (Nat.zero_le rounds), fun _ => ⟨_, from_lo, to_hi, rfl⟩, fun none_equal => ?_⟩
          · exact ⟨_, element, List.mem_singleton.mp member⟩
          · omega
      · refine ⟨(none, []), ?_, fun ptr member => absurd member List.not_mem_nil, Nat.zero_le _, fun some_equal => ?_, fun _ => rfl⟩
        · rw [if_neg more]
        · omega

end Search

theorem bsearch_finds (call : Searchcall) (lo hi rounds : Nat) (items : 1 ≤ call.itemsize)
    (small : call.nitems * call.itemsize < 9223372036854775808) (arranged : Arranged call lo hi) (enough : call.nitems < 2 ^ rounds) :
    ∃ result, bsearch call (rounds + 1) = some result ∧
      (∀ ptr ∈ result.2, ∃ i < call.nitems, ptr = (call.base + i * call.itemsize) % 18446744073709551616) ∧ result.2.length ≤ rounds ∧
      (lo < hi → ∃ i, lo ≤ i ∧ i < hi ∧ result.1 = some ((call.base + i * call.itemsize) % 18446744073709551616)) ∧
      (lo = hi → result.1 = none) := by
  have elements (i : Nat) : call.elem i = (call.base + i * call.itemsize) % 18446744073709551616 := Nat.add_mod_mod _ _ _
  have few : call.nitems ≤ call.nitems * call.itemsize := Nat.le_mul_of_pos_right _ items
  obtain ⟨result, same, found⟩ := bsearchloop_found arranged rounds 0 call.nitems (by omega) (Nat.zero_le lo) arranged.inside (Nat.le_refl _) enough
  refine ⟨result, same, fun ptr member => ?_, found.few, fun some_equal => ?_, found.miss⟩
  · obtain ⟨i, element, place⟩ := found.calls ptr member
    exact ⟨i, element, place.trans (elements i)⟩
  · obtain ⟨i, from_lo, to_hi, place⟩ := found.hit some_equal
    exact ⟨i, from_lo, to_hi, place.trans (congrArg some (elements i))⟩

-- Three words from 4096 on; the key is that of the second.
def threeWords : Searchcall := ⟨4096, 3, 4, fun ptr => 4100 - ptr⟩

theorem threeWords_arranged : Arranged threeWords 1 2 := by
  constructor
  · decide
  · decide
  · decide
  · intro i low high
    rw [show i = 1 by omega]
    decide
  · intro i low high
    rw [show i = 2 by exact Nat.le_antisymm (Nat.le_of_lt_succ high) low]
    decide

theorem bsearch_finds_words : ∃ result, bsearch threeWords 3 = some result ∧
    ∃ i, 1 ≤ i ∧ i < 2 ∧ result.1 = some ((4096 + i * 4) % 18446744073709551616) := by
  obtain ⟨result, same, -, -, hit, -⟩ := bsearch_finds threeWords 1 2 2 (by decide) (by decide) threeWords_arranged (by decide)
  exact ⟨result, same, hit (by decide)⟩

end OsZero.Libc

import Mathlib.Algebra.Group.Int.Defs
import Mathlib.Data.List.Basic
import OsZero.Lib.Blocks
import OsZero.Lib.Sorting

set_option autoImplicit false

namespace OsZero.Libc

open Blocks Sorting

abbrev Item (size : Nat) := Fin size → UInt8

-- What qsort is called with. cmp sees the bytes behind its two pointers.
structure Sortcall where
  base : Nat
  nitems : Nat
  size : Nat
  cmp : Item size → Item size → Int

-- Pointers are integers, so that one below the array is one. none stands for a
-- read or a write outside the array, a call of cmp with a pointer that is to none
-- of its elements, and a full stack.
variable (call : Sortcall)

def Inside (ptr : Int) : Prop := (call.base : Int) ≤ ptr ∧ ptr < call.base + call.nitems * call.size

instance (ptr : Int) : Decidable (Inside call ptr) := inferInstanceAs (Decidable (_ ∧ _))

def Element (ptr : Int) : Prop := Inside call ptr ∧ (ptr - call.base) % call.size = 0

instance (ptr : Int) : Decidable (Element call ptr) := inferInstanceAs (Decidable (_ ∧ _))

def itemAt (mem : Memory) (ptr : Int) : Item call.size := fun k => mem (ptr.toNat + k)

-- cmp(one, two) < 0.
def below (mem : Memory) (one two : Int) : Option Bool :=
  if Element call one ∧ Element call two then some (decide (call.cmp (itemAt call mem one) (itemAt call mem two) < 0)) else none

def load (mem : Memory) (ptr : Int) : Option UInt8 := if Inside call ptr then some (mem ptr.toNat) else none

def store (mem : Memory) (ptr : Int) (byte : UInt8) : Option Memory :=
  if Inside call ptr then some (Function.update mem ptr.toNat byte) else none

def swapgen : Nat → Int → Int → Memory → Option Memory
  | 0, _, _, mem => some mem
  | sz + 1, ap, bp, mem =>
    (load call mem ap).bind fun tmp =>
    (load call mem bp).bind fun byte =>
    (store call mem ap byte).bind fun mem =>
    (store call mem bp tmp).bind fun mem => swapgen sz (ap + 1) (bp + 1) mem

def swapless (one two : Int) (mem : Memory) : Option Memory :=
  (below call mem one two).bind fun less => if less then swapgen call call.size one two mem else some mem

def medianOfThree (lo mid hi : Int) (mem : Memory) : Option Memory :=
  (swapless call mid lo mem).bind fun mem =>
  (below call mem hi mid).bind fun less =>
    if less then (swapgen call call.size mid hi mem).bind fun mem => swapless call mid lo mem else some mem

-- A loop over the elements has left the array when it has taken nitems turns.
def scanup (mem : Memory) (mid : Int) : Nat → Int → Option Int
  | 0, _ => none
  | turns + 1, l => (below call mem l mid).bind fun less => if less then scanup mem mid turns (l + call.size) else some l

def scandown (mem : Memory) (mid : Int) : Nat → Int → Option Int
  | 0, _ => none
  | turns + 1, r => (below call mem mid r).bind fun less => if less then scandown mem mid turns (r - call.size) else some r

def partition : Nat → Int → Int → Int → Memory → Option (Memory × Int × Int)
  | 0, _, _, _, _ => none
  | turns + 1, mid, l, r, mem =>
    (scanup call mem mid call.nitems l).bind fun l =>
    (scandown call mem mid call.nitems r).bind fun r =>
      if l < r then
        (swapgen call call.size l r mem).bind fun mem =>
          let mid := if mid = l then r else if mid = r then l else mid
          let l := l + call.size
          let r := r - call.size
          if l ≤ r then partition turns mid l r mem else some (mem, l, r)
      else if l = r then some (mem, l + call.size, r - call.size)
      else if l ≤ r then partition turns mid l r mem
      else some (mem, l, r)

-- Differences of pointers are exact, and are words where they are compared with maxthres.
def small (maxthres : Nat) (lo hi : Int) : Prop := (hi - lo) % 18446744073709551616 ≤ maxthres

instance (maxthres : Nat) (lo hi : Int) : Decidable (small maxthres lo hi) := Int.decLe _ _

def stkpush (seg : Int × Int) (stk : List (Int × Int)) : Option (List (Int × Int)) := if stk.length < 64 then some (seg :: stk) else none

def nextparts (maxthres : Nat) (lo hi l r : Int) (stk : List (Int × Int)) : Option (Int × Int × List (Int × Int)) :=
  if small maxthres lo r then
    if small maxthres l hi then stk.head?.map fun seg => (seg.1, seg.2, stk.tail) else some (l, hi, stk)
  else if small maxthres l hi then some (lo, r, stk)
  else if r - lo > hi - l then (stkpush (lo, r) stk).map fun stk => (l, hi, stk)
  else (stkpush (l, hi) stk).map fun stk => (lo, r, stk)

def quickphase (maxthres : Nat) : Nat → Int → Int → List (Int × Int) → Memory → Option Memory
  | 0, _, _, stk, mem => if stk = [] then some mem else none
  | turns + 1, lo, hi, stk, mem =>
    if stk = [] then some mem
    else
      let mid := lo + ((hi - lo) / call.size / 2) * call.size
      (medianOfThree call lo mid hi mem).bind fun mem =>
      (partition call call.nitems mid (lo + call.size) (hi - call.size) mem).bind fun parts =>
      (nextparts maxthres lo hi parts.2.1 parts.2.2 stk).bind fun next => quickphase maxthres turns next.1 next.2.1 next.2.2 parts.1

def findleast (mem : Memory) (thres : Int) : Nat → Int → Int → Option Int
  | 0, run, tmp => if run ≤ thres then none else some tmp
  | turns + 1, run, tmp =>
    if run ≤ thres then (below call mem run tmp).bind fun less => findleast mem thres turns (run + call.size) (if less then run else tmp)
    else some tmp

-- for (hi = lo = item ; (lo -= size) >= tmp ; hi = lo) *hi = *lo.
def slide (tmp : Int) : Nat → Int → Int → Memory → Option (Memory × Int)
  | 0, _, _, _ => none
  | turns + 1, hi, lo, mem =>
    let lo := lo - call.size
    if lo ≥ tmp then
      (load call mem lo).bind fun byte =>
      (store call mem hi byte).bind fun mem => slide tmp turns lo lo mem
    else some (mem, hi)

def shiftitem (run tmp : Int) : Nat → Int → Memory → Option Memory
  | 0, item, mem => if item - 1 ≥ run then none else some mem
  | turns + 1, item, mem =>
    let item := item - 1
    if item ≥ run then
      (load call mem item).bind fun u8 =>
      (slide call tmp call.nitems item item mem).bind fun slid =>
      (store call slid.1 slid.2 u8).bind fun mem => shiftitem run tmp turns item mem
    else some mem

def insertphase (last : Int) : Nat → Int → Memory → Option Memory
  | 0, run, mem => if run + call.size ≤ last then none else some mem
  | turns + 1, run, mem =>
    let run := run + call.size
    if run ≤ last then
      (scandown call mem run call.nitems (run - call.size)).bind fun tmp =>
        let tmp := tmp + call.size
        (if tmp ≠ run then shiftitem call run tmp call.size (run + call.size) mem else some mem).bind fun mem => insertphase last turns run mem
    else some mem

def maxthres : Nat := 4 * call.size % 18446744073709551616

def lastItem : Int := call.base + (call.nitems - 1 : Nat) * call.size

def thres : Int := if lastItem call ≤ call.base + maxthres call then lastItem call else call.base + maxthres call

-- From tmp = base on, after the quick sort.
def finish (mem : Memory) : Option Memory :=
  (findleast call mem (thres call) call.nitems (call.base + call.size) call.base).bind fun tmp =>
  (if tmp ≠ call.base then swapgen call call.size tmp call.base mem else some mem).bind fun mem =>
    insertphase call (lastItem call) call.nitems (call.base + call.size) mem

def qsort (mem : Memory) : Option Memory :=
  if call.nitems ≤ 1 then some mem
  else
    (if maxthres call < call.nitems then quickphase call (maxthres call) call.nitems call.base (lastItem call) [(0, 0)] mem else some mem).bind
      fun mem => finish call mem

def adr (i : Nat) : Nat := call.base + i * call.size

def items (mem : Memory) (i : Nat) : Item call.size := fun k => mem (adr call i + k)

-- Every byte outside the array is as it was.
def Beyond (mem after : Memory) : Prop := ∀ a, a < call.base ∨ call.base + call.nitems * call.size ≤ a → after a = mem a

variable {call}

theorem beyond_trans {mem middle after : Memory} (first : Beyond call mem middle) (second : Beyond call middle after) : Beyond call mem after :=
  fun a outside => (second a outside).trans (first a outside)

theorem adr_succ (i : Nat) : ((adr call (i + 1) : Nat) : Int) = adr call i + call.size := by
  unfold adr
  rw [Nat.succ_mul]
  omega

theorem adr_sub (i : Nat) (positive : 0 < i) : (adr call i : Int) - call.size = adr call (i - 1) := by
  have next := @adr_succ call (i - 1)
  rw [Nat.sub_add_cancel positive] at next
  omega

theorem adr_le (i j : Nat) (order : i ≤ j) : adr call i ≤ adr call j := Nat.add_le_add_left (Nat.mul_le_mul_right _ order) _

theorem adr_lt (i j : Nat) (order : i < j) : adr call i + call.size ≤ adr call j := by
  have next := @adr_le call (i + 1) j order
  unfold adr at *
  rw [Nat.succ_mul] at next
  omega

theorem adr_inside (i b : Nat) (low : i < call.nitems) (inside : b < call.size) :
    call.base ≤ adr call i + b ∧ adr call i + b < call.base + call.nitems * call.size := by
  have order := @adr_lt call i call.nitems low
  unfold adr at *
  omega

theorem adr_inj (i j b c : Nat) (left : b < call.size) (right : c < call.size) (same : adr call i + b = adr call j + c) : i = j ∧ b = c := by
  rcases Nat.lt_trichotomy i j with before | rfl | behind
  · have order := @adr_lt call i j before
    omega
  · exact ⟨rfl, by omega⟩
  · have order := @adr_lt call j i behind
    omega

theorem inside_adr (i b : Nat) (low : i < call.nitems) (inside : b < call.size) : Inside call (adr call i + b : Nat) := by
  have bounds := @adr_inside call i b low inside
  unfold Inside
  omega

theorem element_adr (sized : 0 < call.size) (i : Nat) (low : i < call.nitems) : Element call (adr call i) := by
  refine ⟨@inside_adr call i 0 low sized, ?_⟩
  have offset : (adr call i : Int) - call.base = (i * call.size : Nat) := by
    unfold adr
    omega
  rw [offset, Int.natCast_mul]
  exact Int.mul_emod_left _ _

theorem below_adr (sized : 0 < call.size) (mem : Memory) (i j : Nat) (left : i < call.nitems) (right : j < call.nitems) :
    below call mem (adr call i) (adr call j) = some (decide (call.cmp (items call mem i) (items call mem j) < 0)) :=
  if_pos ⟨element_adr sized i left, element_adr sized j right⟩

theorem below_before (mem : Memory) (one ptr : Int) (before : ptr < call.base) : below call mem one ptr = none := by
  refine if_neg fun both => ?_
  have inside := both.2.1.1
  omega

theorem load_adr (mem : Memory) (i b : Nat) (low : i < call.nitems) (inside : b < call.size) :
    load call mem (adr call i + b : Nat) = some (mem (adr call i + b)) := if_pos (inside_adr i b low inside)

theorem store_adr (mem : Memory) (i b : Nat) (byte : UInt8) (low : i < call.nitems) (inside : b < call.size) :
    store call mem (adr call i + b : Nat) byte = some (Function.update mem (adr call i + b) byte) := if_pos (inside_adr i b low inside)

theorem update_adr (mem : Memory) (i b j c : Nat) (byte : UInt8) (left : b < call.size) (right : c < call.size) :
    Function.update mem (adr call i + b) byte (adr call j + c) = if j = i ∧ c = b then byte else mem (adr call j + c) := by
  by_cases same : j = i ∧ c = b
  · rw [if_pos same, same.1, same.2, Function.update_self]
  · rw [if_neg same, Function.update_of_ne fun equal => same (adr_inj j i c b right left equal)]

theorem update_beyond (mem : Memory) (i b : Nat) (byte : UInt8) (low : i < call.nitems) (inside : b < call.size) :
    Beyond call mem (Function.update mem (adr call i + b) byte) := by
  intro a outside
  have bounds := @adr_inside call i b low inside
  exact Function.update_of_ne (by omega) _ _

theorem items_ext (mem : Memory) (a : Nat → Item call.size) (bytes : ∀ k b, (inside : b < call.size) → mem (adr call k + b) = a k ⟨b, inside⟩) :
    items call mem = a := by
  funext k b
  exact bytes k b b.isLt

-- The bytes from place c on are swapped.
theorem swapgen_bytes (i j : Nat) (left : i < call.nitems) (right : j < call.nitems) (sz c : Nat) (parts : c + sz = call.size) (mem : Memory) :
    ∃ after, swapgen call sz (adr call i + c : Nat) (adr call j + c : Nat) mem = some after ∧ Beyond call mem after ∧
      ∀ k b, b < call.size → after (adr call k + b) =
        if c ≤ b then if k = i then mem (adr call j + b) else if k = j then mem (adr call i + b) else mem (adr call k + b) else mem (adr call k + b) := by
  induction sz generalizing c mem with
  | zero => exact ⟨mem, rfl, fun _ _ => rfl, fun k b inside => by rw [if_neg (by omega)]⟩
  | succ sz ih =>
    have inside : c < call.size := by omega
    obtain ⟨after, rest, beyond, bytes⟩ := ih (c + 1) (by omega)
      (Function.update (Function.update mem (adr call i + c) (mem (adr call j + c))) (adr call j + c) (mem (adr call i + c)))
    refine ⟨after, ?_, beyond_trans (beyond_trans (update_beyond mem i c _ left inside) (update_beyond _ j c _ right inside)) beyond, ?_⟩
    · rw [swapgen, load_adr mem i c left inside, Option.bind_some, load_adr mem j c right inside, Option.bind_some,
        store_adr mem i c _ left inside, Option.bind_some, store_adr _ j c _ right inside, Option.bind_some]
      exact rest
    · intro k b low
      rw [bytes k b low]
      simp only [update_adr _ j c _ b _ inside low, update_adr _ i c _ b _ inside low]
      by_cases here : b = c
      · rw [here, if_neg (by omega), if_pos (Nat.le_refl c)]
        by_cases second : k = j
        · by_cases first : k = i
          · rw [if_pos ⟨second, rfl⟩, if_pos first, ← first, second]
          · rw [if_pos ⟨second, rfl⟩, if_neg first, if_pos second]
        · rw [if_neg fun both => second both.1, if_neg second]
          by_cases first : k = i
          · rw [if_pos ⟨first, rfl⟩, if_pos first]
          · rw [if_neg fun both => first both.1, if_neg first]
      · simp only [here, and_false, if_false]
        by_cases behind : c ≤ b
        · rw [if_pos (by omega), if_pos behind]
        · rw [if_neg (by omega), if_neg behind]

theorem swapgen_items (mem : Memory) (i j : Nat) (left : i < call.nitems) (right : j < call.nitems) :
    ∃ after, swapgen call call.size (adr call i) (adr call j) mem = some after ∧ Beyond call mem after ∧
      items call after = exchanged i j (items call mem) := by
  obtain ⟨after, swapped, beyond, bytes⟩ := swapgen_bytes i j left right call.size 0 (Nat.zero_add _) mem
  refine ⟨after, swapped, beyond, items_ext after _ fun k b inside => ?_⟩
  rw [bytes k b inside, if_pos (Nat.zero_le b)]
  unfold exchanged
  split_ifs <;> rfl

-- One byte of each of the elements from p to j moves to the next element.
theorem slide_bytes (p c : Nat) (inside : c < call.size) (turns j : Nat) (enough : j - p < turns) (order : p ≤ j) (low : j < call.nitems) (mem : Memory) :
    ∃ after, slide call (adr call p) turns (adr call j + c : Nat) (adr call j + c : Nat) mem = some (after, ((adr call p + c : Nat) : Int)) ∧
      Beyond call mem after ∧ ∀ k b, b < call.size → after (adr call k + b) =
        if b = c ∧ p < k ∧ k ≤ j then mem (adr call (k - 1) + b) else mem (adr call k + b) := by
  induction turns generalizing j mem with
  | zero => omega
  | succ turns ih =>
    by_cases first : j = p
    · subst first
      refine ⟨mem, ?_, fun _ _ => rfl, fun k b _ => by rw [if_neg (by omega)]⟩
      rw [slide]
      exact if_neg (by omega)
    · have below_j := @adr_lt call p j (by omega)
      have prev := @adr_sub call j (by omega)
      have place : ((adr call j + c : Nat) : Int) - call.size = (adr call (j - 1) + c : Nat) := by omega
      have there := @adr_le call p (j - 1) (by omega)
      obtain ⟨after, rest, beyond, bytes⟩ := ih (j - 1) (by omega) (by omega) (by omega)
        (Function.update mem (adr call j + c) (mem (adr call (j - 1) + c)))
      refine ⟨after, ?_, beyond_trans (update_beyond mem j c _ low inside) beyond, ?_⟩
      · rw [slide, place, if_pos (by omega), load_adr mem (j - 1) c (by omega) inside, Option.bind_some, store_adr mem j c _ low inside, Option.bind_some]
        exact rest
      · intro k b small
        rw [bytes k b small]
        simp only [update_adr mem j c _ b _ inside small]
        by_cases column : b = c
        · subst column
          by_cases last : k = j
          · subst last
            rw [if_neg (by omega), if_pos ⟨rfl, rfl⟩, if_pos (by omega)]
          · by_cases moved : p < k ∧ k ≤ j
            · rw [if_pos (by omega), if_neg (by omega), if_pos ⟨rfl, moved⟩]
            · rw [if_neg (by omega), if_neg (by omega), if_neg (by omega)]
        · simp only [column, false_and, and_false, if_false]

theorem shiftitem_bytes (p m : Nat) (order : p ≤ m) (low : m < call.nitems) (turns : Nat) (part : turns ≤ call.size) (mem : Memory) :
    ∃ after, shiftitem call (adr call m) (adr call p) turns (adr call m + turns : Nat) mem = some after ∧ Beyond call mem after ∧
      ∀ k b, b < call.size → after (adr call k + b) =
        if b < turns then if k = p then mem (adr call m + b) else if p < k ∧ k ≤ m then mem (adr call (k - 1) + b) else mem (adr call k + b)
        else mem (adr call k + b) := by
  induction turns generalizing mem with
  | zero =>
    refine ⟨mem, ?_, fun _ _ => rfl, fun k b _ => by rw [if_neg (Nat.not_lt_zero b)]⟩
    rw [shiftitem]
    exact if_neg (by omega)
  | succ turns ih =>
    have inside : turns < call.size := by omega
    obtain ⟨middle, slid, slidBeyond, slidBytes⟩ := slide_bytes p turns inside call.nitems m (by omega) order low mem
    obtain ⟨after, rest, beyond, bytes⟩ := ih (by omega) (Function.update middle (adr call p + turns) (mem (adr call m + turns)))
    refine ⟨after, ?_, beyond_trans (beyond_trans slidBeyond (update_beyond middle p turns _ (by omega) inside)) beyond, ?_⟩
    · have place : ((adr call m + (turns + 1) : Nat) : Int) - 1 = (adr call m + turns : Nat) := by omega
      rw [shiftitem, place, if_pos (by omega), load_adr mem m turns low inside, Option.bind_some, slid, Option.bind_some,
        store_adr middle p turns _ (by omega) inside, Option.bind_some]
      exact rest
    · intro k b small
      rw [bytes k b small]
      simp only [update_adr middle p turns _ b _ inside small, slidBytes _ b small]
      by_cases column : b = turns
      · subst column
        rw [if_neg (Nat.lt_irrefl b), if_pos (Nat.lt_succ_self b)]
        by_cases first : k = p
        · rw [if_pos ⟨first, rfl⟩, if_pos first]
        · rw [if_neg fun both => first both.1, if_neg first]
          by_cases moved : p < k ∧ k ≤ m
          · rw [if_pos ⟨rfl, moved⟩, if_pos moved]
          · rw [if_neg fun both => moved both.2, if_neg moved]
      · simp only [column, and_false, false_and, if_false]
        by_cases done : b < turns
        · rw [if_pos done, if_pos (Nat.lt_succ_of_lt done)]
        · rw [if_neg done, if_neg (show ¬ b < turns + 1 by omega)]

theorem shiftitem_items (p m : Nat) (order : p ≤ m) (low : m < call.nitems) (mem : Memory) :
    ∃ after, shiftitem call (adr call m) (adr call p) call.size (adr call (m + 1)) mem = some after ∧ Beyond call mem after ∧
      items call after = rotated p m (items call mem) := by
  obtain ⟨after, shifted, beyond, bytes⟩ := shiftitem_bytes p m order low call.size (Nat.le_refl _) mem
  have place : adr call m + call.size = adr call (m + 1) := by
    have next := @adr_succ call m
    omega
  rw [place] at shifted
  refine ⟨after, shifted, beyond, items_ext after _ fun k b inside => ?_⟩
  rw [bytes k b inside, if_pos inside]
  unfold rotated
  split_ifs <;> rfl

end OsZero.Libc

import OsZero.Libc.Qsort

set_option autoImplicit false

namespace OsZero.Libc

open Blocks Sorting

variable {call : Sortcall}

theorem adr_lt_iff (sized : 0 < call.size) (i j : Nat) : (adr call i : Int) < adr call j ↔ i < j := by
  constructor
  · intro less
    by_contra order
    have back := @adr_le call j i (by omega)
    omega
  · intro order
    have next := @adr_lt call i j order
    omega

theorem adr_le_iff (sized : 0 < call.size) (i j : Nat) : (adr call i : Int) ≤ adr call j ↔ i ≤ j := by
  have back := adr_lt_iff sized j i
  omega

theorem adr_eq_iff (sized : 0 < call.size) (i j : Nat) : (adr call i : Int) = adr call j ↔ i = j := by
  have left := adr_lt_iff sized i j
  have right := adr_lt_iff sized j i
  omega

section Scans

variable (sized : 0 < call.size) (mem : Memory) (m : Nat) (inside : m < call.nitems)
include sized inside

theorem scanup_adr (turns i stop : Nat) (enough : stop - i < turns) (order : i ≤ stop) (low : stop < call.nitems)
    (sentinel : ¬ call.cmp (items call mem stop) (items call mem m) < 0) :
    ∃ l, i ≤ l ∧ l ≤ stop ∧ scanup call mem (adr call m) turns (adr call i) = some (adr call l : Int) ∧
      (∀ k, i ≤ k → k < l → call.cmp (items call mem k) (items call mem m) < 0) ∧ ¬ call.cmp (items call mem l) (items call mem m) < 0 := by
  induction turns generalizing i with
  | zero => omega
  | succ turns ih =>
    by_cases less : call.cmp (items call mem i) (items call mem m) < 0
    · have more : i ≠ stop := fun same => sentinel (same ▸ less)
      obtain ⟨l, first, last, scanned, passed, found⟩ := ih (i + 1) (by omega) (by omega)
      refine ⟨l, by omega, last, ?_, fun k kLow kHigh => ?_, found⟩
      · rw [scanup, below_adr sized mem i m (by omega) inside, Option.bind_some, decide_eq_true less, if_pos rfl, ← adr_succ]
        exact scanned
      · rcases Nat.lt_or_ge i k with behind | here
        · exact passed k behind kHigh
        · rwa [show k = i by omega]
    · refine ⟨i, Nat.le_refl i, order, ?_, fun k kLow kHigh => by omega, less⟩
      rw [scanup, below_adr sized mem i m (by omega) inside, Option.bind_some, decide_eq_false less, if_neg Bool.false_ne_true]

theorem scandown_adr (turns i stop : Nat) (enough : i - stop < turns) (order : stop ≤ i) (low : i < call.nitems)
    (sentinel : ¬ call.cmp (items call mem m) (items call mem stop) < 0) :
    ∃ r, stop ≤ r ∧ r ≤ i ∧ scandown call mem (adr call m) turns (adr call i) = some (adr call r : Int) ∧
      (∀ k, r < k → k ≤ i → call.cmp (items call mem m) (items call mem k) < 0) ∧ ¬ call.cmp (items call mem m) (items call mem r) < 0 := by
  induction turns generalizing i with
  | zero => omega
  | succ turns ih =>
    by_cases less : call.cmp (items call mem m) (items call mem i) < 0
    · have more : i ≠ stop := fun same => sentinel (same ▸ less)
      obtain ⟨r, first, last, scanned, passed, found⟩ := ih (i - 1) (by omega) (by omega) (by omega)
      refine ⟨r, first, by omega, ?_, fun k kLow kHigh => ?_, found⟩
      · rw [scandown, below_adr sized mem m i inside low, Option.bind_some, decide_eq_true less, if_pos rfl, adr_sub i (by omega)]
        exact scanned
      · rcases Nat.lt_or_ge k i with before | here
        · exact passed k kLow (by omega)
        · rwa [show k = i by omega]
    · refine ⟨i, order, Nat.le_refl i, ?_, fun k kLow kHigh => by omega, less⟩
      rw [scandown, below_adr sized mem m i inside low, Option.bind_some, decide_eq_false less, if_neg Bool.false_ne_true]

end Scans

-- At the head of the loop: what stands below l is no greater than the pivot, which
-- mid follows, and what stands above r no less.
structure Parting (call : Sortcall) (lo hi l r m : Nat) (v : Item call.size) (a : Nat → Item call.size) : Prop where
  left : lo < l
  right : r < hi
  low : lo ≤ r
  cross : l ≤ r + 1
  mid : lo ≤ m ∧ m ≤ hi
  pivot : a m = v
  below : ∀ k, lo ≤ k → k < l → call.cmp (a k) v ≤ 0
  above : ∀ k, r < k → k ≤ hi → call.cmp v (a k) ≤ 0

structure Splits (call : Sortcall) (lo hi l r : Nat) (v : Item call.size) (a : Nat → Item call.size) : Prop where
  low : lo ≤ r
  cross : r < l
  high : l ≤ hi
  below : ∀ k, lo ≤ k → k ≤ r → call.cmp (a k) v ≤ 0
  above : ∀ k, r < k → k ≤ hi → call.cmp v (a k) ≤ 0

-- What stands between r and l is no greater than the pivot either.
structure Cleft (call : Sortcall) (lo hi l r : Nat) (v : Item call.size) (a : Nat → Item call.size) : Prop extends Splits call lo hi l r v a where
  between : ∀ k, lo ≤ k → k < l → call.cmp (a k) v ≤ 0

-- Where the two scans stop.
structure Scanned (call : Sortcall) (lo hi l r m : Nat) (v : Item call.size) (a : Nat → Item call.size) : Prop
    extends Parting call lo hi l r m v a where
  first : call.cmp v (a l) ≤ 0
  last : call.cmp (a r) v ≤ 0

theorem scans_adr (sized : 0 < call.size) (compares : Compares call.cmp) (mem : Memory) (lo hi l r m : Nat) (v : Item call.size)
    (inside : hi < call.nitems) (parting : Parting call lo hi l r m v (items call mem)) :
    ∃ i j, scanup call mem (adr call m) call.nitems (adr call l) = some (adr call i : Int) ∧
      scandown call mem (adr call m) call.nitems (adr call r) = some (adr call j : Int) ∧ l ≤ i ∧ j ≤ r ∧
        Scanned call lo hi i j m v (items call mem) := by
  obtain ⟨left, right, low, cross, mid, pivot, belowL, aboveR⟩ := parting
  obtain ⟨i, iLow, iHigh, up, passedUp, stopUp⟩ := scanup_adr sized mem m (by omega) call.nitems l (r + 1) (by omega) (by omega) (by omega)
    (by rw [pivot, not_below compares]; exact aboveR (r + 1) (by omega) (by omega))
  obtain ⟨j, jLow, jHigh, down, passedDown, stopDown⟩ := scandown_adr sized mem m (by omega) call.nitems r (l - 1) (by omega) (by omega)
    (by omega) (by rw [pivot, not_below compares]; exact belowL (l - 1) (by omega) (by omega))
  rw [pivot] at passedUp passedDown stopUp stopDown
  refine ⟨i, j, up, down, iLow, jHigh, ⟨by omega, by omega, by omega, ?_, mid, pivot, ?_, ?_⟩, (not_below compares _ _).mp stopUp,
    (not_below compares _ _).mp stopDown⟩
  · by_contra apart
    have less := passedUp (j + 1) (by omega) (by omega)
    have more := passedDown (j + 1) (by omega) (by omega)
    rw [compares.anti] at less
    omega
  · intro k kLow kHigh
    rcases Nat.lt_or_ge k l with before | behind
    · exact belowL k kLow before
    · exact Int.le_of_lt (passedUp k behind kHigh)
  · intro k kLow kHigh
    rcases Nat.lt_or_ge r k with behind | before
    · exact aboveR k behind kHigh
    · exact Int.le_of_lt (passedDown k kLow before)

def follow (l r m : Nat) : Nat := if m = l then r else if m = r then l else m

theorem follow_adr (sized : 0 < call.size) (l r m : Nat) :
    (if (adr call m : Int) = adr call l then (adr call r : Int) else if (adr call m : Int) = adr call r then (adr call l : Int) else adr call m) =
      adr call (follow l r m) := by
  unfold follow
  simp only [adr_eq_iff sized]
  split_ifs <;> rfl

-- The exchanged elements are on their sides, and mid goes with the pivot.
theorem scanned_exchanged (lo hi l r m : Nat) (v : Item call.size) (a : Nat → Item call.size)
    (scanned : Scanned call lo hi l r m v a) (order : l < r) : Parting call lo hi (l + 1) (r - 1) (follow l r m) v (exchanged l r a) := by
  obtain ⟨⟨left, right, low, cross, mid, pivot, below, above⟩, first, last⟩ := scanned
  refine ⟨by omega, by omega, by omega, by omega, ?_, ?_, ?_, ?_⟩
  · unfold follow
    split_ifs <;> omega
  · rw [← pivot]
    unfold follow exchanged
    split_ifs <;> first | rfl | omega | simp_all
  · intro k kLow kHigh
    unfold exchanged
    split_ifs
    · exact last
    · omega
    · exact below k kLow (by omega)
  · intro k kLow kHigh
    unfold exchanged
    split_ifs
    · omega
    · exact first
    · exact above k (by omega) kHigh

theorem parting_cleft (lo hi l r m : Nat) (v : Item call.size) (a : Nat → Item call.size) (parting : Parting call lo hi l r m v a)
    (order : r < l) : Cleft call lo hi l r v a := by
  obtain ⟨left, right, low, cross, mid, pivot, below, above⟩ := parting
  exact ⟨⟨low, order, by omega, fun k kLow kHigh => below k kLow (by omega), above⟩, below⟩

theorem scanned_cleft (lo hi l m : Nat) (v : Item call.size) (a : Nat → Item call.size) (scanned : Scanned call lo hi l l m v a) :
    Cleft call lo hi (l + 1) (l - 1) v a := by
  obtain ⟨⟨left, right, low, cross, mid, pivot, below, above⟩, first, last⟩ := scanned
  refine ⟨⟨by omega, by omega, by omega, fun k kLow kHigh => below k kLow (by omega), fun k kLow kHigh => ?_⟩, fun k kLow kHigh => ?_⟩
  · rcases Nat.lt_or_ge l k with behind | here
    · exact above k behind kHigh
    · rwa [show k = l by omega]
  · rcases Nat.lt_or_ge k l with before | here
    · exact below k kLow before
    · rwa [show k = l by omega]

theorem partition_adr (sized : 0 < call.size) (compares : Compares call.cmp) (lo hi : Nat) (v : Item call.size) (inside : hi < call.nitems)
    (turns l r m : Nat) (enough : r - l < turns) (mem : Memory) (parting : Parting call lo hi l r m v (items call mem)) :
    ∃ after i j, partition call turns (adr call m) (adr call l) (adr call r) mem = some (after, (adr call i : Int), (adr call j : Int)) ∧
      Beyond call mem after ∧ Shuffled call.nitems lo hi (items call mem) (items call after) ∧ Cleft call lo hi i j v (items call after) := by
  induction turns generalizing l r m mem with
  | zero => omega
  | succ turns ih =>
    obtain ⟨i, j, up, down, iLow, jHigh, scanned⟩ := scans_adr sized compares mem lo hi l r m v inside parting
    have bounds := scanned.toParting
    have low := bounds.low
    have right := bounds.right
    have left := bounds.left
    rw [partition, up, Option.bind_some, down, Option.bind_some]
    simp only [adr_lt_iff sized, adr_eq_iff sized i j, adr_le_iff sized i j]
    rcases Nat.lt_trichotomy i j with before | rfl | behind
    · obtain ⟨middle, swapped, beyond, moved⟩ := @swapgen_items call mem i j (by omega) (by omega)
      have next := scanned_exchanged lo hi i j m v _ scanned before
      have shuffled := exchanged_shuffled call.nitems lo hi i j (items call mem) inside ⟨by omega, by omega⟩ ⟨by omega, by omega⟩
      rw [← moved] at next shuffled
      rw [if_pos before, swapped, Option.bind_some]
      simp only [follow_adr sized, ← adr_succ, adr_sub j (by omega), adr_le_iff sized]
      by_cases again : i + 1 ≤ j - 1
      · rw [if_pos again]
        obtain ⟨after, x, y, rest, beyondRest, shuffledRest, cleft⟩ := ih (i + 1) (j - 1) (follow i j m) (by omega) middle next
        exact ⟨after, x, y, rest, beyond_trans beyond beyondRest, shuffled_trans shuffled shuffledRest, cleft⟩
      · rw [if_neg again]
        exact ⟨middle, i + 1, j - 1, rfl, beyond, shuffled, parting_cleft lo hi _ _ _ v _ next (by omega)⟩
    · rw [if_neg (Nat.lt_irrefl i), if_pos rfl, ← adr_succ, adr_sub i (by omega)]
      exact ⟨mem, i + 1, i - 1, rfl, fun _ _ => rfl, shuffled_refl _ _ _ _, scanned_cleft lo hi i m v _ scanned⟩
    · rw [if_neg (by omega), if_neg (by omega), if_neg (by omega)]
      exact ⟨mem, i, j, rfl, fun _ _ => rfl, shuffled_refl _ _ _ _, parting_cleft lo hi i j m v _ bounds behind⟩

theorem swapless_adr (sized : 0 < call.size) (mem : Memory) (i j : Nat) (left : i < call.nitems) (right : j < call.nitems) :
    ∃ after, swapless call (adr call i) (adr call j) mem = some after ∧ Beyond call mem after ∧
      items call after = if call.cmp (items call mem i) (items call mem j) < 0 then exchanged i j (items call mem) else items call mem := by
  rw [swapless, below_adr sized mem i j left right, Option.bind_some]
  by_cases less : call.cmp (items call mem i) (items call mem j) < 0
  · obtain ⟨after, swapped, beyond, moved⟩ := swapgen_items mem i j left right
    rw [decide_eq_true less, if_pos rfl, if_pos less]
    exact ⟨after, swapped, beyond, moved⟩
  · rw [decide_eq_false less, if_neg Bool.false_ne_true, if_neg less]
    exact ⟨mem, rfl, fun _ _ => rfl, rfl⟩

theorem exchanged_left (i j : Nat) (a : Nat → Item call.size) : exchanged i j a i = a j := if_pos rfl

theorem exchanged_right (i j : Nat) (a : Nat → Item call.size) : exchanged i j a j = a i := by
  unfold exchanged
  split_ifs with same
  · rw [same]
  · rfl
  · contradiction

theorem exchanged_other (i j k : Nat) (a : Nat → Item call.size) (left : k ≠ i) (right : k ≠ j) : exchanged i j a k = a k := by
  rw [exchanged, if_neg left, if_neg right]

theorem swapless_ordered (sized : 0 < call.size) (compares : Compares call.cmp) (mem : Memory) (lo hi i j : Nat) (inside : hi < call.nitems)
    (left : lo ≤ i ∧ i ≤ hi) (right : lo ≤ j ∧ j ≤ hi) :
    ∃ after, swapless call (adr call i) (adr call j) mem = some after ∧ Beyond call mem after ∧
      Shuffled call.nitems lo hi (items call mem) (items call after) ∧ call.cmp (items call after j) (items call after i) ≤ 0 ∧
        (items call after i = items call mem i ∨ items call after i = items call mem j) ∧
          ∀ k, k ≠ i → k ≠ j → items call after k = items call mem k := by
  obtain ⟨after, swapped, beyond, moved⟩ := swapless_adr sized mem i j (by omega) (by omega)
  refine ⟨after, swapped, beyond, ?_⟩
  rw [moved]
  split_ifs with less
  · refine ⟨exchanged_shuffled _ lo hi i j _ inside left right, ?_, Or.inr (exchanged_left i j _), fun k apart other => exchanged_other i j k _ apart other⟩
    rw [exchanged_left, exchanged_right]
    exact Int.le_of_lt less
  · exact ⟨shuffled_refl _ _ _ _, (not_below compares _ _).mp less, Or.inl rfl, fun _ _ _ => rfl⟩

theorem medianOfThree_adr (sized : 0 < call.size) (compares : Compares call.cmp) (mem : Memory) (lo mid hi : Nat) (inside : hi < call.nitems)
    (left : lo ≤ mid) (right : mid < hi) :
    ∃ after, medianOfThree call (adr call lo) (adr call mid) (adr call hi) mem = some after ∧ Beyond call mem after ∧
      Shuffled call.nitems lo hi (items call mem) (items call after) ∧ call.cmp (items call after lo) (items call after mid) ≤ 0 ∧
        call.cmp (items call after mid) (items call after hi) ≤ 0 := by
  obtain ⟨first, swapFirst, beyondFirst, shuffledFirst, orderFirst, -, -⟩ :=
    swapless_ordered sized compares mem lo hi mid lo inside ⟨left, by omega⟩ ⟨by omega, by omega⟩
  rw [medianOfThree, swapFirst, Option.bind_some, below_adr sized first hi mid inside (by omega), Option.bind_some]
  by_cases less : call.cmp (items call first hi) (items call first mid) < 0
  · obtain ⟨second, swapSecond, beyondSecond, moved⟩ := swapgen_items first mid hi (by omega) inside
    have shuffledSecond := exchanged_shuffled call.nitems lo hi mid hi (items call first) inside ⟨left, by omega⟩ ⟨by omega, by omega⟩
    rw [← moved] at shuffledSecond
    obtain ⟨third, swapThird, beyondThird, shuffledThird, orderThird, middle, others⟩ :=
      swapless_ordered sized compares second lo hi mid lo inside ⟨left, by omega⟩ ⟨by omega, by omega⟩
    rw [decide_eq_true less, if_pos rfl, swapSecond, Option.bind_some, swapThird]
    refine ⟨third, rfl, beyond_trans (beyond_trans beyondFirst beyondSecond) beyondThird,
      shuffled_trans (shuffled_trans shuffledFirst shuffledSecond) shuffledThird, orderThird, ?_⟩
    -- the greatest of the three is at hi by now
    have last : items call third hi = items call first mid := by rw [others hi (by omega) (by omega), moved, exchanged_right]
    have front : items call second mid = items call first hi := by rw [moved, exchanged_left]
    rw [last]
    rcases middle with stays | comes
    · rw [stays, front]
      exact Int.le_of_lt less
    · rw [comes]
      by_cases same : lo = mid
      · rw [same, front]
        exact Int.le_of_lt less
      · rw [moved, exchanged_other mid hi lo _ same (by omega)]
        exact orderFirst
  · rw [decide_eq_false less, if_neg Bool.false_ne_true]
    exact ⟨first, rfl, beyondFirst, shuffledFirst, orderFirst, (not_below compares _ _).mp less⟩

theorem adr_distance (i j : Nat) (order : i ≤ j) : (adr call j : Int) - adr call i = ((j - i) * call.size : Nat) := by
  have whole : i * call.size ≤ j * call.size := Nat.mul_le_mul_right _ order
  unfold adr
  rw [Nat.sub_mul]
  omega

theorem adr_add (i j : Nat) : ((adr call (i + j) : Nat) : Int) = adr call i + (j * call.size : Nat) := by
  unfold adr
  rw [Nat.add_mul]
  omega

theorem adr_mid (sized : 0 < call.size) (lo hi : Nat) (order : lo ≤ hi) :
    (adr call lo : Int) + (((adr call hi : Int) - adr call lo) / call.size / 2) * call.size = adr call (lo + (hi - lo) / 2) := by
  have count : (((hi - lo) * call.size : Nat) : Int) / call.size = ((hi - lo : Nat) : Int) := by
    rw [Int.natCast_mul]
    exact Int.mul_ediv_cancel _ (by omega)
  have half : ((hi - lo : Nat) : Int) / 2 = (((hi - lo) / 2 : Nat) : Int) := by omega
  rw [adr_distance lo hi order, count, half, adr_add, Int.natCast_mul]

-- One turn parts its elements in two.
structure Turned (call : Sortcall) (lo hi l r : Nat) (mem after : Memory) : Prop where
  beyond : Beyond call mem after
  shuffled : Shuffled call.nitems lo hi (items call mem) (items call after)
  low : lo ≤ r
  cross : r < l
  high : l ≤ hi
  parted : ∀ i j, lo ≤ i → i ≤ r → r < j → j ≤ hi → call.cmp (items call after i) (items call after j) ≤ 0

-- Any place up to l from r on parts them.
structure Cloven (call : Sortcall) (lo hi l r : Nat) (mem after : Memory) : Prop extends Turned call lo hi l r mem after where
  cut : ∀ c i j, r < c → c ≤ l → lo ≤ i → i < c → c ≤ j → j ≤ hi → call.cmp (items call after i) (items call after j) ≤ 0

theorem turn_adr (sized : 0 < call.size) (compares : Compares call.cmp) (mem : Memory) (lo hi : Nat) (order : lo < hi) (inside : hi < call.nitems) :
    ∃ middle after l r, medianOfThree call (adr call lo) (adr call (lo + (hi - lo) / 2)) (adr call hi) mem = some middle ∧
      partition call call.nitems (adr call (lo + (hi - lo) / 2)) (adr call lo + call.size) (adr call hi - call.size) middle =
        some (after, (adr call l : Int), (adr call r : Int)) ∧ Cloven call lo hi l r mem after := by
  obtain ⟨middle, medians, beyond, shuffled, left, right⟩ := medianOfThree_adr sized compares mem lo (lo + (hi - lo) / 2) hi inside (by omega) (by omega)
  have parting : Parting call lo hi (lo + 1) (hi - 1) (lo + (hi - lo) / 2) (items call middle (lo + (hi - lo) / 2)) (items call middle) := by
    refine ⟨by omega, by omega, by omega, by omega, by omega, rfl, fun k kLow kHigh => ?_, fun k kLow kHigh => ?_⟩
    · rwa [show k = lo by omega]
    · rwa [show k = hi by omega]
  obtain ⟨after, l, r, parts, beyondParts, shuffledParts, cleft⟩ :=
    partition_adr sized compares lo hi _ inside call.nitems (lo + 1) (hi - 1) (lo + (hi - lo) / 2) (by omega) middle parting
  rw [adr_succ, ← adr_sub hi (by omega)] at parts
  have cut : ∀ c i j, r < c → c ≤ l → lo ≤ i → i < c → c ≤ j → j ≤ hi → call.cmp (items call after i) (items call after j) ≤ 0 :=
    fun c i j cLow cHigh iLow iHigh jLow jHigh =>
      compares.trans _ _ _ (cleft.between i iLow (by omega)) (cleft.above j (by omega) jHigh)
  refine ⟨middle, after, l, r, medians, parts, ⟨beyond_trans beyond beyondParts, shuffled_trans shuffled shuffledParts, cleft.low, cleft.cross,
    cleft.high, fun i j iLow iHigh jLow jHigh => ?_⟩, cut⟩
  exact cut (r + 1) i j (Nat.lt_succ_self r) cleft.cross iLow (Nat.lt_succ_of_le iHigh) jLow jHigh

-- The indices of pending parts, the one at hand first.
def Wide (call : Sortcall) (parts : List (Nat × Nat)) : Prop := ∀ part ∈ parts, part.1 < part.2 ∧ part.2 < call.nitems

def Apart (parts : List (Nat × Nat)) : Prop := parts.Pairwise fun one two => one.2 < two.1 ∨ two.2 < one.1

-- Each part has at most half the elements of what was at hand when the one below it
-- was put aside.
def Halved (n : Nat) : List (Nat × Nat) → Prop
  | [] => True
  | part :: parts => (part.2 - part.1 + 1) * 2 ^ parts.length ≤ n ∧ Halved n parts

def weight : List (Nat × Nat) → Nat
  | [] => 0
  | part :: parts => part.2 - part.1 + weight parts

-- The part in front is no greater than the rest, and is pending or within maxthres.
structure Lead (call : Sortcall) (parts : List (Nat × Nat)) (a : Nat → Item call.size) (e : Nat) : Prop where
  below : e < call.nitems
  pending : (0, e) ∈ parts ∨ e * call.size ≤ maxthres call
  others : ∀ part ∈ parts, part.1 ≤ e → part = (0, e)
  parted : Parted call.cmp a e call.nitems

def nextsegs (call : Sortcall) (lo hi l r : Nat) (segs : List (Nat × Nat)) : List (Nat × Nat) :=
  if (r - lo) * call.size ≤ maxthres call then
    if (hi - l) * call.size ≤ maxthres call then segs else (l, hi) :: segs
  else if (hi - l) * call.size ≤ maxthres call then (lo, r) :: segs
  else if hi - l < r - lo then (l, hi) :: (lo, r) :: segs
  else (lo, r) :: (l, hi) :: segs

theorem large_some (k : Nat) (large : ¬ k * call.size ≤ maxthres call) : 0 < k := by
  rcases Nat.eq_zero_or_pos k with rfl | positive
  · rw [Nat.zero_mul] at large
    omega
  · exact positive

section Next

variable (lo hi l r : Nat) (segs : List (Nat × Nat)) (low : lo ≤ r) (cross : r < l) (high : l ≤ hi)
include low cross high

omit cross in
theorem nextsegs_mem (part : Nat × Nat) (member : part ∈ nextsegs call lo hi l r segs) :
    part ∈ segs ∨ part = (lo, r) ∧ lo < r ∨ part = (l, hi) ∧ l < hi := by
  unfold nextsegs at member
  split_ifs at member with left right right order
  · exact Or.inl member
  · rcases List.mem_cons.mp member with rfl | old
    · exact Or.inr (Or.inr ⟨rfl, by have := large_some _ right; omega⟩)
    · exact Or.inl old
  · rcases List.mem_cons.mp member with rfl | old
    · exact Or.inr (Or.inl ⟨rfl, by have := large_some _ left; omega⟩)
    · exact Or.inl old
  all_goals
    have leftWide := large_some _ left
    have rightWide := large_some _ right
    simp only [List.mem_cons] at member
    rcases member with rfl | rfl | old
  · exact Or.inr (Or.inr ⟨rfl, by omega⟩)
  · exact Or.inr (Or.inl ⟨rfl, by omega⟩)
  · exact Or.inl old
  · exact Or.inr (Or.inl ⟨rfl, by omega⟩)
  · exact Or.inr (Or.inr ⟨rfl, by omega⟩)
  · exact Or.inl old

theorem nextsegs_wide (wide : Wide call ((lo, hi) :: segs)) : Wide call (nextsegs call lo hi l r segs) := by
  have here := wide (lo, hi) List.mem_cons_self
  intro part member
  rcases nextsegs_mem lo hi l r segs low high part member with old | ⟨rfl, order⟩ | ⟨rfl, order⟩
  · exact wide part (List.mem_cons_of_mem _ old)
  · exact ⟨order, by dsimp only at here ⊢; omega⟩
  · exact ⟨order, here.2⟩

theorem nextsegs_apart (apart : Apart ((lo, hi) :: segs)) : Apart (nextsegs call lo hi l r segs) := by
  obtain ⟨first, rest⟩ := List.pairwise_cons.mp apart
  have left : ∀ part ∈ segs, r < part.1 ∨ part.2 < lo := fun part member => by
    have := first part member
    dsimp only at this
    omega
  have right : ∀ part ∈ segs, hi < part.1 ∨ part.2 < l := fun part member => by
    have := first part member
    dsimp only at this
    omega
  unfold nextsegs Apart
  split_ifs
  · exact rest
  · exact List.pairwise_cons.mpr ⟨right, rest⟩
  · exact List.pairwise_cons.mpr ⟨left, rest⟩
  · refine List.pairwise_cons.mpr ⟨fun part member => ?_, List.pairwise_cons.mpr ⟨left, rest⟩⟩
    rcases List.mem_cons.mp member with rfl | old
    · exact Or.inr cross
    · exact right part old
  · refine List.pairwise_cons.mpr ⟨fun part member => ?_, List.pairwise_cons.mpr ⟨right, rest⟩⟩
    rcases List.mem_cons.mp member with rfl | old
    · exact Or.inl cross
    · exact left part old

theorem nextsegs_halved (n : Nat) (halved : Halved n ((lo, hi) :: segs)) : Halved n (nextsegs call lo hi l r segs) := by
  obtain ⟨here, rest⟩ := halved
  dsimp only at here
  have less : ∀ k ≤ hi - lo + 1, k * 2 ^ segs.length ≤ n := fun k few => Nat.le_trans (Nat.mul_le_mul_right _ few) here
  have half : ∀ k, 2 * k ≤ hi - lo + 1 → k * 2 ^ (segs.length + 1) ≤ n := by
    intro k few
    rw [Nat.pow_succ, Nat.mul_comm _ 2, ← Nat.mul_assoc, Nat.mul_comm k 2]
    exact less _ few
  unfold nextsegs
  split_ifs
  · exact rest
  · exact ⟨less _ (by omega), rest⟩
  · exact ⟨less _ (by omega), rest⟩
  · exact ⟨half _ (by dsimp only; omega), less _ (by dsimp only; omega), rest⟩
  · exact ⟨half _ (by dsimp only; omega), less _ (by dsimp only; omega), rest⟩

theorem nextsegs_weight : weight (nextsegs call lo hi l r segs) < weight ((lo, hi) :: segs) := by
  unfold nextsegs
  split_ifs <;> simp only [weight] <;> omega

end Next

theorem nextsegs_lead (lo hi l r : Nat) (segs : List (Nat × Nat)) (mem after : Memory) (e : Nat) (inside : hi < call.nitems)
    (apart : Apart ((lo, hi) :: segs)) (turned : Turned call lo hi l r mem after) (lead : Lead call ((lo, hi) :: segs) (items call mem) e) :
    ∃ e, Lead call (nextsegs call lo hi l r segs) (items call after) e := by
  obtain ⟨beyond, shuffled, low, cross, high, parted⟩ := turned
  obtain ⟨first, -⟩ := List.pairwise_cons.mp apart
  by_cases here : (lo, hi) = (0, e)
  · cases here
    refine ⟨r, by omega, ?_, ?_, ?_⟩
    · unfold nextsegs
      split_ifs with left <;> simp_all
    · intro part member under
      rcases nextsegs_mem 0 hi l r segs low high part member with old | ⟨rfl, -⟩ | ⟨rfl, -⟩
      · have beside := first part old
        dsimp only at beside
        omega
      · rfl
      · dsimp only at under
        omega
    · intro i j iHigh jLow jHigh
      rcases Nat.lt_or_ge hi j with behind | before
      · exact parted_shuffled hi shuffled inside (Or.inl (Nat.le_refl hi)) lead.parted i j (by omega) behind jHigh
      · exact parted i j (Nat.zero_le i) iHigh jLow before
  · have behind : e < lo := by
      by_contra under
      exact here (lead.others (lo, hi) List.mem_cons_self (by dsimp only; omega))
    refine ⟨e, lead.below, ?_, ?_, parted_shuffled e shuffled inside (Or.inr behind) lead.parted⟩
    · rcases lead.pending with member | small
      · refine Or.inl ?_
        rcases List.mem_cons.mp member with same | old
        · exact absurd same.symm here
        · unfold nextsegs
          split_ifs <;> simp [old]
      · exact Or.inr small
    · intro part member under
      rcases nextsegs_mem lo hi l r segs low high part member with old | ⟨rfl, -⟩ | ⟨rfl, -⟩
      · exact lead.others part (List.mem_cons_of_mem _ old) under
      · dsimp only at under
        omega
      · dsimp only at under
        omega

def stkof (call : Sortcall) (segs : List (Nat × Nat)) : List (Int × Int) :=
  segs.map (fun part => ((adr call part.1 : Int), (adr call part.2 : Int))) ++ [(0, 0)]

-- lo, hi and the stack with the pending parts.
def entered (call : Sortcall) : List (Nat × Nat) → Int × Int × List (Int × Int)
  | [] => (0, 0, [])
  | part :: segs => (adr call part.1, adr call part.2, stkof call segs)

theorem small_adr (fits : call.nitems * call.size < 18446744073709551616) (i j : Nat) (order : i ≤ j) (inside : j < call.nitems) :
    small (maxthres call) (adr call i) (adr call j) ↔ (j - i) * call.size ≤ maxthres call := by
  have bound : (j - i) * call.size ≤ call.nitems * call.size := Nat.mul_le_mul_right _ (by omega)
  rw [small, adr_distance i j order]
  omega

theorem stkpush_room (sized : 0 < call.size) (fits : call.nitems * call.size < 18446744073709551616) (count : Nat) (four : 4 ≤ count)
    (segs : List (Nat × Nat)) (few : count * 2 ^ segs.length ≤ call.nitems) (seg : Int × Int) :
    stkpush seg (stkof call segs) = some (seg :: stkof call segs) := by
  have most : call.nitems ≤ call.nitems * call.size := Nat.le_mul_of_pos_right _ sized
  have power : 2 ^ (segs.length + 2) < 2 ^ 64 := by
    rw [Nat.pow_add, Nat.mul_comm]
    have least : 2 ^ 2 * 2 ^ segs.length ≤ count * 2 ^ segs.length := Nat.mul_le_mul_right _ four
    omega
  have depth := (Nat.pow_lt_pow_iff_right (by decide : 1 < 2)).mp power
  refine if_pos ?_
  rw [stkof, List.length_append, List.length_map, List.length_singleton]
  omega

theorem nextparts_adr (sized : 0 < call.size) (fits : call.nitems * call.size < 18446744073709551616) (lo hi l r : Nat) (segs : List (Nat × Nat))
    (inside : hi < call.nitems) (low : lo ≤ r) (cross : r < l) (high : l ≤ hi) (halved : Halved call.nitems ((lo, hi) :: segs)) :
    nextparts (maxthres call) (adr call lo) (adr call hi) (adr call l) (adr call r) (stkof call segs) =
      some (entered call (nextsegs call lo hi l r segs)) := by
  have order : (adr call r : Int) - adr call lo > (adr call hi : Int) - adr call l ↔ hi - l < r - lo := by
    rw [adr_distance lo r low, adr_distance l hi high, gt_iff_lt, Int.ofNat_lt]
    exact Nat.mul_lt_mul_right sized
  unfold nextparts nextsegs
  simp only [small_adr fits lo r low (by omega), small_adr fits l hi high inside, order]
  split_ifs with left right right larger
  · cases segs with
    | nil => rfl
    | cons part segs => rfl
  · rfl
  · rfl
  · have leftMore := large_some _ left
    have rightMore := large_some _ right
    rw [stkpush_room sized fits (hi - lo + 1) (by omega) segs halved.1]
    rfl
  · have leftMore := large_some _ left
    have rightMore := large_some _ right
    rw [stkpush_room sized fits (hi - lo + 1) (by omega) segs halved.1]
    rfl

-- What every turn keeps of the pending parts and the array holds at the end.
theorem quickphase_adr (sized : 0 < call.size) (fits : call.nitems * call.size < 18446744073709551616) (compares : Compares call.cmp)
    (Inv : List (Nat × Nat) → (Nat → Item call.size) → Prop)
    (kept : ∀ lo hi l r segs mem after, hi < call.nitems → Apart ((lo, hi) :: segs) → Cloven call lo hi l r mem after →
      Inv ((lo, hi) :: segs) (items call mem) → Inv (nextsegs call lo hi l r segs) (items call after))
    (turns : Nat) (parts : List (Nat × Nat)) (mem : Memory) (wide : Wide call parts) (apart : Apart parts) (halved : Halved call.nitems parts)
    (enough : weight parts ≤ turns) (inv : Inv parts (items call mem)) :
    ∃ after, quickphase call (maxthres call) turns (entered call parts).1 (entered call parts).2.1 (entered call parts).2.2 mem = some after ∧
      Beyond call mem after ∧ Shuffled call.nitems 0 (call.nitems - 1) (items call mem) (items call after) ∧ Inv [] (items call after) := by
  induction turns generalizing parts mem with
  | zero =>
    cases parts with
    | nil => exact ⟨mem, rfl, fun _ _ => rfl, shuffled_refl _ _ _ _, inv⟩
    | cons part parts =>
      have order := wide part List.mem_cons_self
      rw [weight] at enough
      omega
  | succ turns ih =>
    cases parts with
    | nil => exact ⟨mem, rfl, fun _ _ => rfl, shuffled_refl _ _ _ _, inv⟩
    | cons part segs =>
      obtain ⟨lo, hi⟩ := part
      obtain ⟨order, inside⟩ := wide (lo, hi) List.mem_cons_self
      dsimp only at order inside
      obtain ⟨middle, after, l, r, medians, parted, cloven⟩ := turn_adr sized compares mem lo hi order inside
      have low := cloven.low
      have cross := cloven.cross
      have high := cloven.high
      have less := @nextsegs_weight call lo hi l r segs low cross high
      obtain ⟨last, rest, beyond, shuffled, done⟩ := ih (nextsegs call lo hi l r segs) after (nextsegs_wide lo hi l r segs low cross high wide)
        (nextsegs_apart lo hi l r segs low cross high apart) (nextsegs_halved lo hi l r segs low cross high _ halved) (by omega)
        (kept lo hi l r segs mem after inside apart cloven inv)
      refine ⟨last, ?_, beyond_trans cloven.beyond beyond, shuffled_trans (shuffled_wider cloven.shuffled (Nat.zero_le lo) (by omega)) shuffled, done⟩
      have some_left : stkof call segs ≠ [] := List.append_ne_nil_of_right_ne_nil _ (List.cons_ne_nil _ _)
      change quickphase call (maxthres call) (turns + 1) (adr call lo) (adr call hi) (stkof call segs) mem = some last
      rw [quickphase, if_neg some_left, adr_mid sized lo hi (Nat.le_of_lt order)]
      dsimp only
      rw [medians, Option.bind_some, parted, Option.bind_some, nextparts_adr sized fits lo hi l r segs inside low cross high halved, Option.bind_some]
      exact rest

theorem quickphase_whole (sized : 0 < call.size) (fits : call.nitems * call.size < 18446744073709551616) (compares : Compares call.cmp)
    (Inv : List (Nat × Nat) → (Nat → Item call.size) → Prop)
    (kept : ∀ lo hi l r segs mem after, hi < call.nitems → Apart ((lo, hi) :: segs) → Cloven call lo hi l r mem after →
      Inv ((lo, hi) :: segs) (items call mem) → Inv (nextsegs call lo hi l r segs) (items call after))
    (mem : Memory) (several : 1 < call.nitems) (inv : Inv [(0, call.nitems - 1)] (items call mem)) :
    ∃ after, quickphase call (maxthres call) call.nitems call.base (adr call (call.nitems - 1)) [(0, 0)] mem = some after ∧ Beyond call mem after ∧
      Shuffled call.nitems 0 (call.nitems - 1) (items call mem) (items call after) ∧ Inv [] (items call after) := by
  have wide : Wide call [(0, call.nitems - 1)] := by
    intro part member
    rw [List.mem_singleton.mp member]
    dsimp only
    omega
  have halved : Halved call.nitems [(0, call.nitems - 1)] := by
    refine ⟨?_, trivial⟩
    dsimp only [List.length_nil]
    omega
  have first : adr call 0 = call.base := by rw [adr, Nat.zero_mul, Nat.add_zero]
  obtain ⟨after, phase, done⟩ := quickphase_adr sized fits compares Inv kept call.nitems [(0, call.nitems - 1)] mem wide
    (List.pairwise_singleton _ _) halved (by simp [weight]) inv
  rw [entered, first] at phase
  exact ⟨after, phase, done⟩

theorem quickphase_leads (sized : 0 < call.size) (fits : call.nitems * call.size < 18446744073709551616) (compares : Compares call.cmp) (mem : Memory)
    (several : 1 < call.nitems) :
    ∃ after, quickphase call (maxthres call) call.nitems call.base (adr call (call.nitems - 1)) [(0, 0)] mem = some after ∧ Beyond call mem after ∧
      Shuffled call.nitems 0 (call.nitems - 1) (items call mem) (items call after) ∧
        ∃ i < call.nitems, i * call.size ≤ maxthres call ∧ Least call.cmp (items call after) call.nitems i := by
  have lead : Lead call [(0, call.nitems - 1)] (items call mem) (call.nitems - 1) :=
    ⟨by omega, Or.inl List.mem_cons_self, fun part member _ => List.mem_singleton.mp member, fun i j _ behind low => by omega⟩
  obtain ⟨after, phase, beyond, shuffled, e, below, pending, -, parted⟩ := quickphase_whole sized fits compares
    (fun parts a => ∃ e, Lead call parts a e)
    (fun lo hi l r segs mem after inside apart cloven leads => leads.elim fun e lead =>
      nextsegs_lead lo hi l r segs mem after e inside apart cloven.toTurned lead) mem several ⟨_, lead⟩
  obtain ⟨i, low, least⟩ := parted_least compares (items call after) e call.nitems parted
  exact ⟨after, phase, beyond, shuffled, i, by omega, Nat.le_trans (Nat.mul_le_mul_right _ low) (pending.resolve_left List.not_mem_nil), least⟩

theorem base_adr : (call.base : Int) = adr call 0 := by
  rw [adr, Nat.zero_mul, Nat.add_zero]

theorem last_adr : lastItem call = adr call (call.nitems - 1) := by
  unfold lastItem adr
  rw [Int.natCast_add, Int.natCast_mul]

-- The least of the elements that start up to maxthres is found.
theorem findleast_adr (sized : 0 < call.size) (compares : Compares call.cmp) (mem : Memory) (turns k t : Nat) (enough : call.nitems ≤ k + turns)
    (inside : t < call.nitems) (window : t * call.size ≤ maxthres call)
    (least : ∀ j < k, j < call.nitems → call.cmp (items call mem t) (items call mem j) ≤ 0) :
    ∃ i, findleast call mem (thres call) turns (adr call k) (adr call t) = some (adr call i : Int) ∧
      i < call.nitems ∧ i * call.size ≤ maxthres call ∧
        ∀ j < call.nitems, j * call.size ≤ maxthres call → call.cmp (items call mem i) (items call mem j) ≤ 0 := by
  have reached : ∀ k, (adr call k : Int) ≤ thres call ↔ k < call.nitems ∧ k * call.size ≤ maxthres call := by
    intro k
    have both : (adr call k : Int) ≤ thres call ↔ (adr call k : Int) ≤ lastItem call ∧ (adr call k : Int) ≤ call.base + maxthres call := by
      unfold thres
      split_ifs <;> omega
    rw [both, last_adr, adr_le_iff sized]
    unfold adr
    omega
  have stopped : ∀ k t : Nat, ¬ (k < call.nitems ∧ k * call.size ≤ maxthres call) →
      (∀ j < k, j < call.nitems → call.cmp (items call mem t) (items call mem j) ≤ 0) →
      ∀ j < call.nitems, j * call.size ≤ maxthres call → call.cmp (items call mem t) (items call mem j) ≤ 0 := by
    intro k t past least j low near
    refine least j ?_ low
    by_contra behind
    have order : k * call.size ≤ j * call.size := Nat.mul_le_mul_right _ (by omega)
    exact past ⟨by omega, by omega⟩
  induction turns generalizing k t with
  | zero =>
    refine ⟨t, ?_, inside, window, stopped k t (by omega) least⟩
    rw [findleast, if_neg (by rw [reached]; omega)]
  | succ turns ih =>
    by_cases more : k < call.nitems ∧ k * call.size ≤ maxthres call
    · rw [findleast, if_pos ((reached k).mpr more), below_adr sized mem k t more.1 inside, Option.bind_some, ← adr_succ]
      by_cases less : call.cmp (items call mem k) (items call mem t) < 0
      · rw [decide_eq_true less, if_pos rfl]
        refine ih (k + 1) k (by omega) more.1 more.2 fun j before low => ?_
        rcases Nat.lt_or_ge j k with old | here
        · exact compares.trans _ _ _ (Int.le_of_lt less) (least j old low)
        · rw [show j = k by omega]
          exact cmp_self compares _
      · rw [decide_eq_false less, if_neg Bool.false_ne_true]
        refine ih (k + 1) t (by omega) inside window fun j before low => ?_
        rcases Nat.lt_or_ge j k with old | here
        · exact least j old low
        · rw [show j = k by omega]
          exact (not_below compares _ _).mp less
    · refine ⟨t, ?_, inside, window, stopped k t more least⟩
      rw [findleast, if_neg (by rwa [reached])]

theorem rotated_self (m : Nat) (a : Nat → Item call.size) : rotated m m a = a := by
  funext k
  unfold rotated
  split_ifs with here between
  · rw [here]
  · omega
  · rfl

theorem least_shuffled (a b : Nat → Item call.size) (n lo hi : Nat) (shuffled : Shuffled n lo hi a b) (first : b 0 = a 0) (least : Least call.cmp a n 0) :
    Least call.cmp b n 0 := by
  intro j low
  obtain ⟨i, below, same⟩ := shuffled_members_back shuffled j low
  rw [first, same]
  exact least i below

-- The loop body with tmp behind the element where the search down has stopped.
theorem insert_adr (mem : Memory) (p m : Nat) (order : p ≤ m) (low : m < call.nitems) (sized : 0 < call.size) :
    ∃ after, (if (adr call p : Int) ≠ adr call m then shiftitem call (adr call m) (adr call p) call.size (adr call m + call.size) mem else some mem) =
      some after ∧ Beyond call mem after ∧ items call after = rotated p m (items call mem) := by
  by_cases same : p = m
  · rw [same, if_neg (not_not_intro rfl), rotated_self]
    exact ⟨mem, rfl, fun _ _ => rfl, rfl⟩
  · rw [if_pos (by rwa [ne_eq, adr_eq_iff sized]), ← adr_succ]
    exact shiftitem_items p m order low mem

theorem insertphase_adr (sized : 0 < call.size) (compares : Compares call.cmp) (turns m : Nat) (mem : Memory) (enough : call.nitems ≤ m + turns)
    (positive : 0 < m) (top : m ≤ call.nitems) (ascending : Ascending call.cmp (items call mem) m) (least : Least call.cmp (items call mem) call.nitems 0) :
    ∃ after, insertphase call (lastItem call) turns (adr call (m - 1)) mem = some after ∧ Beyond call mem after ∧
      Shuffled call.nitems 0 (call.nitems - 1) (items call mem) (items call after) ∧ Ascending call.cmp (items call after) call.nitems := by
  have next : (adr call (m - 1) : Int) + call.size = adr call m := by
    rw [← adr_succ, Nat.sub_add_cancel positive]
  induction turns generalizing m mem with
  | zero =>
    have whole : m = call.nitems := by omega
    refine ⟨mem, ?_, fun _ _ => rfl, shuffled_refl _ _ _ _, whole ▸ ascending⟩
    rw [insertphase, next, last_adr, if_neg (by rw [adr_le_iff sized]; omega)]
  | succ turns ih =>
    rw [insertphase, next]
    dsimp only
    by_cases more : m < call.nitems
    · obtain ⟨r, -, below, scanned, passed, found⟩ := scandown_adr sized mem m more call.nitems (m - 1) 0 (by omega) (Nat.zero_le _) (by omega)
        ((not_below compares _ _).mpr (least m more))
      obtain ⟨middle, inserted, beyond, moved⟩ := insert_adr mem (r + 1) m (by omega) more sized
      have rotates := rotated_shuffled call.nitems (r + 1) m (items call mem) more (by omega)
      have sorted := ascending_rotated compares (items call mem) (r + 1) m (by omega) ascending
        (fun k kLow => compares.trans _ _ _ (ascending k r (by omega) (by omega)) ((not_below compares _ _).mp found))
        (fun k kLow kHigh => Int.le_of_lt (passed k (by omega) (by omega)))
      rw [← moved] at rotates sorted
      have first := least_shuffled _ _ _ _ _ rotates (rotates.outside 0 (by omega)) least
      obtain ⟨after, rest, beyondRest, shuffled, done⟩ := ih (m + 1) middle (by omega) (by omega) (by omega) sorted first (adr_succ m).symm
      refine ⟨after, ?_, beyond_trans beyond beyondRest, shuffled_trans (shuffled_wider rotates (by omega) (by omega)) shuffled, done⟩
      rw [if_pos (by rw [last_adr, adr_le_iff sized]; omega), adr_sub m positive, scanned, Option.bind_some, ← adr_succ, inserted, Option.bind_some]
      exact rest
    · rw [if_neg (by rw [last_adr, adr_le_iff sized]; omega)]
      have whole : m = call.nitems := by omega
      exact ⟨mem, rfl, fun _ _ => rfl, shuffled_refl _ _ _ _, whole ▸ ascending⟩

-- The swap with the first element.
theorem front_adr (sized : 0 < call.size) (mem : Memory) (i : Nat) (inside : i < call.nitems) :
    ∃ after, (if (adr call i : Int) ≠ call.base then swapgen call call.size (adr call i) call.base mem else some mem) = some after ∧
      Beyond call mem after ∧ Shuffled call.nitems 0 (call.nitems - 1) (items call mem) (items call after) ∧ items call after 0 = items call mem i := by
  rw [base_adr]
  by_cases same : i = 0
  · subst same
    rw [if_neg (not_not_intro rfl)]
    exact ⟨mem, rfl, fun _ _ => rfl, shuffled_refl _ _ _ _, rfl⟩
  · obtain ⟨after, swapped, beyond, moved⟩ := @swapgen_items call mem i 0 inside (by omega)
    rw [if_pos (by rwa [ne_eq, adr_eq_iff sized])]
    refine ⟨after, swapped, beyond, ?_, ?_⟩
    · rw [moved]
      exact exchanged_shuffled _ 0 _ i 0 _ (by omega) ⟨by omega, by omega⟩ ⟨by omega, by omega⟩
    · rw [moved, exchanged_right]

-- What finish does up to its last loop.
theorem finish_front (sized : 0 < call.size) (compares : Compares call.cmp) (mem : Memory) (several : 1 < call.nitems) :
    ∃ middle i, finish call mem = insertphase call (lastItem call) call.nitems (adr call 1) middle ∧ Beyond call mem middle ∧
      Shuffled call.nitems 0 (call.nitems - 1) (items call mem) (items call middle) ∧ items call middle 0 = items call mem i ∧
        i < call.nitems ∧ i * call.size ≤ maxthres call ∧
          ∀ j < call.nitems, j * call.size ≤ maxthres call → call.cmp (items call mem i) (items call mem j) ≤ 0 := by
  obtain ⟨i, found, inside, window, least⟩ := findleast_adr sized compares mem call.nitems 1 0 (by omega) (by omega) (by omega) (fun j before _ => by
    rw [show j = 0 by omega]
    exact cmp_self compares _)
  obtain ⟨middle, swapped, beyond, shuffled, first⟩ := front_adr sized mem i inside
  refine ⟨middle, i, ?_, beyond, shuffled, first, inside, window, least⟩
  have second : (call.base : Int) + call.size = adr call 1 := by rw [base_adr, ← adr_succ]
  rw [← base_adr] at found
  rw [finish, second, found, Option.bind_some, swapped, Option.bind_some]

theorem finish_sorted (sized : 0 < call.size) (compares : Compares call.cmp) (mem : Memory) (several : 1 < call.nitems) (i : Nat)
    (inside : i < call.nitems) (window : i * call.size ≤ maxthres call) (least : Least call.cmp (items call mem) call.nitems i) :
    ∃ after, finish call mem = some after ∧ Beyond call mem after ∧ Shuffled call.nitems 0 (call.nitems - 1) (items call mem) (items call after) ∧
      Ascending call.cmp (items call after) call.nitems := by
  obtain ⟨middle, j, call_finish, beyond, shuffled, first, -, -, found⟩ := finish_front sized compares mem several
  have front : Least call.cmp (items call middle) call.nitems 0 := by
    intro k low
    obtain ⟨x, below, same⟩ := shuffled_members_back shuffled k low
    rw [first, same]
    exact compares.trans _ _ _ (found i inside window) (least x below)
  have pair : Ascending call.cmp (items call middle) 2 := by
    intro x y order low
    rcases Nat.eq_zero_or_pos x with rfl | positive
    · exact front y (by omega)
    · rw [show x = 1 by omega, show y = 1 by omega]
      exact cmp_self compares _
  obtain ⟨after, inserted, beyondRest, shuffledRest, sorted⟩ := insertphase_adr sized compares call.nitems 2 middle (by omega) (by omega) (by omega) pair front
  exact ⟨after, call_finish.trans inserted, beyond_trans beyond beyondRest, shuffled_trans shuffled shuffledRest, sorted⟩

-- The search down ends in the array, if it has an end.
theorem scandown_low (sized : 0 < call.size) (mem : Memory) (one : Int) (turns i : Nat) (ptr : Int)
    (scanned : scandown call mem one turns (adr call i) = some ptr) : ∃ r ≤ i, ptr = adr call r := by
  induction turns generalizing i with
  | zero => cases scanned
  | succ turns ih =>
    rw [scandown] at scanned
    obtain ⟨less, -, rest⟩ := Option.bind_eq_some_iff.mp scanned
    split_ifs at rest
    · rcases Nat.eq_zero_or_pos i with rfl | positive
      · -- the next pointer is below the array
        have under : (adr call 0 : Int) - call.size < call.base := by
          rw [← base_adr]
          omega
        cases turns with
        | zero => cases rest
        | succ turns =>
          rw [scandown, below_before mem one _ under] at rest
          cases rest
      · rw [adr_sub i positive] at rest
        obtain ⟨r, low, same⟩ := ih (i - 1) rest
        exact ⟨r, by omega, same⟩
    · cases rest
      exact ⟨i, Nat.le_refl i, rfl⟩

theorem insertphase_first (sized : 0 < call.size) (turns m : Nat) (mem after : Memory) (positive : 0 < m)
    (inserted : insertphase call (lastItem call) turns (adr call (m - 1)) mem = some after) : items call after 0 = items call mem 0 := by
  have next : (adr call (m - 1) : Int) + call.size = adr call m := by
    rw [← adr_succ, Nat.sub_add_cancel positive]
  induction turns generalizing m mem with
  | zero =>
    rw [insertphase] at inserted
    split_ifs at inserted
    cases inserted
    rfl
  | succ turns ih =>
    rw [insertphase, next] at inserted
    dsimp only at inserted
    split_ifs at inserted with more
    · rw [last_adr, adr_le_iff sized] at more
      obtain ⟨ptr, scanned, rest⟩ := Option.bind_eq_some_iff.mp inserted
      rw [adr_sub m positive] at scanned
      obtain ⟨r, low, rfl⟩ := scandown_low sized mem _ _ _ ptr scanned
      obtain ⟨middle, shifted, last⟩ := Option.bind_eq_some_iff.mp rest
      obtain ⟨other, same, -, moved⟩ := insert_adr mem (r + 1) m (by omega) (by omega) sized
      rw [adr_succ, shifted] at same
      cases same
      have kept := ih (m + 1) middle (by omega) last (adr_succ m).symm
      rw [kept, moved, rotated, if_neg (by omega), if_neg (by omega)]
    · cases inserted
      rfl

-- The array is in order, with the elements that it had, and nothing else has changed.
structure Sorts (call : Sortcall) (mem after : Memory) : Prop where
  beyond : Beyond call mem after
  perm : ((List.range call.nitems).map (items call after)).Perm ((List.range call.nitems).map (items call mem))
  ascending : Ascending call.cmp (items call after) call.nitems

theorem qsort_sorts_iff (call : Sortcall) (mem : Memory) (sized : 0 < call.size) (fits : call.nitems * call.size < 18446744073709551616)
    (compares : Compares call.cmp) :
    (∃ after, qsort call mem = some after ∧ Sorts call mem after) ↔
      call.nitems ≤ 1 ∨ maxthres call < call.nitems ∨
        ∃ i < call.nitems, i * call.size ≤ maxthres call ∧ Least call.cmp (items call mem) call.nitems i := by
  by_cases few : call.nitems ≤ 1
  · refine iff_of_true ⟨mem, if_pos few, fun _ _ => rfl, List.Perm.refl _, fun i j order low => ?_⟩ (Or.inl few)
    rw [show i = j by omega]
    exact cmp_self compares _
  · rw [or_iff_right few, qsort, if_neg few]
    by_cases many : maxthres call < call.nitems
    · refine iff_of_true ?_ (Or.inl many)
      obtain ⟨middle, phase, beyond, shuffled, i, inside, window, least⟩ := quickphase_leads sized fits compares mem (by omega)
      obtain ⟨after, finished, beyondRest, shuffledRest, sorted⟩ := finish_sorted sized compares middle (by omega) i inside window least
      rw [if_pos many, last_adr, phase]
      exact ⟨after, finished, beyond_trans beyond beyondRest, (shuffled_trans shuffled shuffledRest).perm, sorted⟩
    · rw [or_iff_right many, if_neg many, Option.bind_some]
      constructor
      · rintro ⟨after, finished, -, perm, sorted⟩
        obtain ⟨middle, i, call_finish, -, shuffled, first, inside, window, -⟩ := finish_front sized compares mem (by omega)
        rw [call_finish] at finished
        have kept := insertphase_first sized call.nitems 2 middle after (by omega) finished
        refine ⟨i, inside, window, fun j low => ?_⟩
        have member : items call mem j ∈ (List.range call.nitems).map (items call mem) := List.mem_map.mpr ⟨j, List.mem_range.mpr low, rfl⟩
        obtain ⟨k, below, same⟩ := List.mem_map.mp (perm.mem_iff.mpr member)
        rw [← first, ← kept, ← same]
        exact sorted 0 k (Nat.zero_le k) (List.mem_range.mp below)
      · rintro ⟨i, inside, window, least⟩
        obtain ⟨after, finished, beyond, shuffled, sorted⟩ := finish_sorted sized compares mem (by omega) i inside window least
        exact ⟨after, finished, beyond, shuffled.perm, sorted⟩

-- Elements of two bytes that the first one orders.
def cmpFirst (one two : Item 2) : Int := (one ⟨0, by decide⟩).toNat - (two ⟨0, by decide⟩).toNat

def shorts (nitems : Nat) : Sortcall := ⟨4096, nitems, 2, cmpFirst⟩

theorem cmpFirst_compares : Compares cmpFirst := by
  constructor <;> intros <;> unfold cmpFirst at * <;> omega

def descending (a : Nat) : UInt8 := UInt8.ofNat (4200 - a)

theorem qsort_sorts_nine_shorts : ∃ after, qsort (shorts 9) descending = some after ∧ Sorts (shorts 9) descending after :=
  (qsort_sorts_iff (shorts 9) descending (by decide) (by decide) cmpFirst_compares).mpr (Or.inr (Or.inl (by decide)))

-- The least of six is behind the first five, and the search for its place goes on
-- below the array.
theorem qsort_leaves_array : Compares (shorts 6).cmp ∧ ¬ ∃ after, qsort (shorts 6) descending = some after ∧ Sorts (shorts 6) descending after := by
  refine ⟨cmpFirst_compares, ?_⟩
  have left : (qsort (shorts 6) descending).isNone = true := by decide +kernel
  rw [Option.isNone_iff_eq_none.mp left]
  rintro ⟨after, none, -⟩
  cases none

end OsZero.Libc

import OsZero.Prime.Sieve

set_option autoImplicit false

namespace OsZero.Prime.Isprime

-- static unsigned long long primelim; static char *primemap;
structure Primes where
  primelim : Word
  primemap : Option Bitmap

def start : Primes := ⟨0, none⟩

-- The bytes that the allocator hands out.
section Queries

variable (fresh : Nat → BitVec 8)

-- realloc(tab, n), or malloc(n) where there is no table yet.
def allocated (tab : Option Bitmap) (n : Nat) : Bitmap :=
  match tab with
  | some tab => ⟨n, fun i => if i < tab.n then tab.byte i else fresh i⟩
  | none => ⟨n, fresh⟩

-- memset(tab, 0xff, n); what would stand behind the end of the table does not matter.
def memset (tab : Bitmap) (n : Nat) : Option Bitmap :=
  if n ≤ tab.n then some ⟨tab.n, fun i => if n ≤ i ∧ i < tab.n then tab.byte i else 0xff⟩ else none

-- The limit is recorded where the loop comes round again.
def sieve (lim : Word) (fuel : Nat) (primes : Primes) : Option Primes := do
  let n := nbyte lim
  let tab ← if primes.primelim.ule lim then some (allocated fresh primes.primemap n) else primes.primemap
  let tab ← memset tab n
  let tab ← cross lim 2 fuel (2 * 2) tab
  let (tab, again) ← loop lim (fun l => l <<< 1) tick fuel fuel 3 tab false
  some ⟨if again then lim else primes.primelim, some tab⟩

-- ((uint8_t *)p)[b >> 3] & (1UL << (b & 0x07)) of an unsigned number
def tested (tab : Bitmap) (b : Word) : Option (BitVec 8) :=
  let i := (b >>> 3).toNat
  if i < tab.n then some (tab.byte i &&& (1#8 <<< (b &&& 7).toNat)) else none

def isprime (num : Word) (fuel : Nat) (primes : Primes) : Option (BitVec 8 × Primes) := do
  let primes ← if primes.primelim = 0 ∨ primes.primelim.ule num then sieve fresh (num + 1) fuel primes else some primes
  let tab ← primes.primemap
  let retval ← tested tab num
  some (retval, primes)

-- The answers of one call after the other.
def isprimes (fuel : Nat) : List Word → Primes → Option (List (BitVec 8))
  | [], _ => some []
  | num :: nums, primes => do
      let (retval, primes) ← isprime fresh num fuel primes
      let retvals ← isprimes fuel nums primes
      some (retval :: retvals)

end Queries

-- The recorded limit may be that of an earlier, smaller table.
def Recorded (primes : Primes) : Prop :=
  primes.primelim = 0 ∨ ∃ lim tab, primes.primemap = some tab ∧ primes.primelim.toNat ≤ lim.toNat ∧ lim.toNat ≤ 2 ^ 31 ∧ Sieved lim tab

theorem start_recorded : Recorded start := .inl rfl

theorem tested_bit (tab : Bitmap) (b : Word) (inside : b.toNat < 8 * tab.n) : ∃ retval, tested tab b = some retval ∧ (retval ≠ 0 ↔ bit tab b.toNat = true) := by
  have index : (b >>> 3).toNat = b.toNat / 8 := by
    rw [BitVec.toNat_ushiftRight]
    exact Nat.shiftRight_eq_div_pow b.toNat 3
  refine ⟨_, if_pos (by rw [index]; omega), ?_⟩
  rw [index, offset_toNat, ← BitVec.twoPow_eq, BitVec.and_twoPow, bit]
  cases (tab.byte (b.toNat / 8)).getLsbD (b.toNat % 8) with
  | false => exact iff_of_false (fun other => other rfl) Bool.false_ne_true
  | true => exact iff_of_true (twoPow_nonzero b) rfl

theorem memset_allocated (fresh : Nat → BitVec 8) (tab : Option Bitmap) (lim : Word) :
    memset (allocated fresh tab (nbyte lim)) (nbyte lim) = some (filled lim) := by
  have size : (allocated fresh tab (nbyte lim)).n = nbyte lim := by cases tab <;> rfl
  have none_left : ∀ i, ¬(nbyte lim ≤ i ∧ i < nbyte lim) := by
    rintro i ⟨low, high⟩
    omega
  simp only [memset, size, Nat.le_refl, if_pos, none_left, if_false, filled]

section Steps

variable (fresh : Nat → BitVec 8) (fuel : Nat) (num : Word) (low : num.toNat < 2 ^ 31) (enough : num.toNat + 1 < fuel)
include low enough

-- The table is that of the number, whether its limit is recorded or not.
theorem sieve_recorded (primes : Primes) (less : primes.primelim.toNat ≤ num.toNat) : ∃ after tab, sieve fresh (num + 1) fuel primes = some after ∧
    after.primemap = some tab ∧ after.primelim.toNat ≤ num.toNat + 1 ∧ Sieved (num + 1) tab := by
  have bump := succ_toNat num (by omega)
  obtain ⟨tab, after, came, crossed, looped, sieved⟩ := sieve4_loop (num + 1) (by omega) fuel (by omega)
  have grows : primes.primelim.ule (num + 1) = true := decide_eq_true (by omega)
  refine ⟨⟨if came then num + 1 else primes.primelim, some after⟩, after, ?_, rfl, ?_, sieved⟩
  · simp only [sieve, if_pos grows, Option.bind_eq_bind, Option.bind_some, memset_allocated, crossed, looped]
  · cases came with
    | false => exact Nat.le_succ_of_le less
    | true => exact Nat.le_of_eq bump

theorem isprime_answers (primes : Primes) (recorded : Recorded primes) : ∃ retval after, isprime fresh num fuel primes = some (retval, after) ∧ Recorded after ∧
    (retval ≠ 0 ↔ num.toNat < 2 ∨ num.toNat.Prime) := by
  have bump := succ_toNat num (by omega)
  have reads : ∀ lim tab, lim.toNat ≤ 2 ^ 31 → Sieved lim tab → num.toNat < lim.toNat →
      ∃ retval, tested tab num = some retval ∧ (retval ≠ 0 ↔ num.toNat < 2 ∨ num.toNat.Prime) := by
    intro lim tab high sieved inside
    obtain ⟨retval, read, set⟩ := tested_bit tab num (by rw [sieved.size, nbyte_eq lim high]; omega)
    refine ⟨retval, read, set.trans ?_⟩
    by_cases small : num.toNat < 2
    · exact iff_of_true (sieved.rest num.toNat (.inl small)) (.inl small)
    · rw [sieved.primes num.toNat (by omega) inside, or_iff_right small]
  by_cases again : primes.primelim = 0 ∨ primes.primelim.ule num
  · have less : primes.primelim.toNat ≤ num.toNat := by
      rcases again with zero | behind
      · rw [zero]
        exact Nat.zero_le _
      · exact of_decide_eq_true behind
    obtain ⟨after, tab, sifted, map, lim, sieved⟩ := sieve_recorded fresh fuel num low enough primes less
    obtain ⟨retval, read, set⟩ := reads (num + 1) tab (by omega) sieved (by omega)
    refine ⟨retval, after, ?_, .inr ⟨num + 1, tab, map, by omega, by omega, sieved⟩, set⟩
    simp only [isprime, if_pos again, Option.bind_eq_bind, Option.bind_some, sifted, map, read]
  · obtain ⟨other, within⟩ := not_or.mp again
    have inside : num.toNat < primes.primelim.toNat := Nat.lt_of_not_le fun behind => within (decide_eq_true behind)
    obtain ⟨lim, tab, map, less, high, sieved⟩ := recorded.resolve_left other
    obtain ⟨retval, read, set⟩ := reads lim tab high sieved (by omega)
    refine ⟨retval, primes, ?_, recorded, set⟩
    simp only [isprime, if_neg again, Option.bind_eq_bind, Option.bind_some, map, read]

end Steps

theorem isprimes_answers (fresh : Nat → BitVec 8) (fuel : Nat) (enough : 2 ^ 31 < fuel) (nums : List Word) (low : ∀ num ∈ nums, num.toNat < 2 ^ 31)
    (primes : Primes) (recorded : Recorded primes) : ∃ retvals, isprimes fresh fuel nums primes = some retvals ∧
      List.Forall₂ (fun num retval => retval ≠ 0 ↔ num.toNat < 2 ∨ num.toNat.Prime) nums retvals := by
  induction nums generalizing primes with
  | nil => exact ⟨[], rfl, .nil⟩
  | cons num nums ih =>
    have small := low num List.mem_cons_self
    obtain ⟨retval, after, answered, recorded', set⟩ := isprime_answers fresh fuel num small (by omega) primes recorded
    obtain ⟨retvals, rest, sets⟩ := ih (fun other member => low other (List.mem_cons_of_mem num member)) after recorded'
    refine ⟨retval :: retvals, ?_, .cons set sets⟩
    simp only [isprimes, answered, Option.bind_eq_bind, Option.bind_some, rest]

-- Every call ends, keeps within the table of its time and answers whether the number is prime.
def Right (fresh : Nat → BitVec 8) (nums : List Word) : Prop :=
  ∃ enough, ∀ fuel, enough ≤ fuel → ∃ retvals, isprimes fresh fuel nums start = some retvals ∧
    List.Forall₂ (fun num retval => retval ≠ 0 ↔ num.toNat.Prime) nums retvals

theorem prime_iff_large (n : Nat) : ((n < 2 ∨ n.Prime) ↔ n.Prime) ↔ 2 ≤ n := by
  constructor
  · intro same
    by_contra small
    exact small (same.mp (.inl (by omega))).two_le
  · intro large
    exact or_iff_right (by omega)

section Rightness

variable (fresh : Nat → BitVec 8) (nums : List Word) (low : ∀ num ∈ nums, num.toNat < 2 ^ 31)
include low

-- The bits of 0 and 1 are never crossed out.
theorem right_large (right : Right fresh nums) : ∀ num ∈ nums, 2 ≤ num.toNat := by
  obtain ⟨enough, right⟩ := right
  obtain ⟨retvals, answered, sets⟩ := isprimes_answers fresh (enough + 2 ^ 31 + 1) (by omega) nums low start start_recorded
  obtain ⟨others, answered', primes⟩ := right (enough + 2 ^ 31 + 1) (by omega)
  obtain rfl : others = retvals := Option.some.inj (answered'.symm.trans answered)
  have large : List.Forall₂ (fun num retval => 2 ≤ num.toNat ∧ (retval ≠ 0 ↔ num.toNat.Prime)) nums others :=
    sets.mp (fun num retval set prime => ⟨(prime_iff_large num.toNat).mp (set.symm.trans prime), prime⟩) primes
  exact ((List.forall₂_and_left _ _).mp large).1

theorem large_right (large : ∀ num ∈ nums, 2 ≤ num.toNat) : Right fresh nums := by
  refine ⟨2 ^ 31 + 1, fun fuel enough => ?_⟩
  obtain ⟨retvals, answered, sets⟩ := isprimes_answers fresh fuel (by omega) nums low start start_recorded
  have both := (List.forall₂_and_left _ _).mpr ⟨large, sets⟩
  exact ⟨retvals, answered, both.imp fun num retval set => set.2.trans ((prime_iff_large num.toNat).mpr set.1)⟩

theorem isprimes_right_iff : Right fresh nums ↔ ∀ num ∈ nums, 2 ≤ num.toNat :=
  ⟨right_large fresh nums low, large_right fresh nums low⟩

end Rightness

theorem isprimes_right_iff_five : Right (fun _ => 0) [5, 2, 9] :=
  (isprimes_right_iff (fun _ => 0) [5, 2, 9] (by simp)).mpr (by simp)

theorem isprime_one : ¬Right (fun _ => 0) [1] := fun right =>
  absurd (right_large (fun _ => 0) [1] (by simp) right 1 List.mem_cons_self) (by decide)

end OsZero.Prime.Isprime

import Mathlib.Data.BitVec
import Mathlib.Logic.Function.Basic
import OsZero.Lib.Runs

set_option autoImplicit false

namespace OsZero.Sync.Maplk

open Runs

def CHAR_BIT : Nat := 8
def LONGSIZE : Nat := 8
def LONGSIZELOG2 : Nat := 3

-- The longs of bits that lie inside of what calloc has handed out; NULL has none.
structure Zeromaplk where
  nbit : Nat
  bits : List (BitVec 64)

-- The bit from before, and the word with the bit set or clear.
def mcmpsetbit (p : BitVec 64) (ndx : Nat) : BitVec 64 × Bool := (p ||| BitVec.twoPow 64 ndx, p.getLsbD ndx)

def mcmpclrbit (p : BitVec 64) (ndx : Nat) : BitVec 64 × Bool := (p &&& ~~~ BitVec.twoPow 64 ndx, p.getLsbD ndx)

def bitword (ndx : Int) : Int := ndx >>> LONGSIZELOG2

-- The id is cut out of the word, not out of ndx. A word outside of bits is a fault.
def atbit (cmpbit : BitVec 64 → Nat → BitVec 64 × Bool) (maplk : Zeromaplk) (ndx : Int) : Option (Zeromaplk × Bool) :=
  let word := bitword ndx
  let id := word.toNat &&& (LONGSIZE * CHAR_BIT - 1)
  if word < 0 then none else
  (maplk.bits[word.toNat]?).map fun bits =>
    let val := cmpbit bits id
    (⟨maplk.nbit, maplk.bits.set word.toNat val.1⟩, val.2)

def maplktrybit (maplk : Zeromaplk) (ndx : Int) : Option (Zeromaplk × Bool) :=
  (atbit mcmpsetbit maplk ndx).map fun val => (val.1, !val.2)

-- One turn of the loop, and whether it is the last one.
def maplkbit (maplk : Zeromaplk) (ndx : Int) : Option (Zeromaplk × Bool) :=
  (atbit mcmpsetbit maplk ndx).map fun val => (val.1, !val.2)

def mapunlkbit (maplk : Zeromaplk) (ndx : Int) : Option (Zeromaplk × Bool) :=
  (atbit mcmpclrbit maplk ndx).map fun val => (val.1, false)

inductive Call where
  | maplktrybit
  | maplkbit
  | mapunlkbit
deriving DecidableEq

structure Op (Thread : Type) where
  thread : Thread
  call : Call
  ndx : Int

-- An interleaving is a list of atomic operations, with whether the thread is let in.
def step {Thread : Type} (maplk : Zeromaplk) (op : Op Thread) : Option (Zeromaplk × Bool) :=
  match op.call with
  | .maplktrybit => maplktrybit maplk op.ndx
  | .maplkbit => maplkbit maplk op.ndx
  | .mapunlkbit => mapunlkbit maplk op.ndx

section Locks

variable {Thread Key : Type} [DecidableEq Key]

-- Locks of their own, one for each key that indices have.
def locks (key : Int → Key) (owner : Key → Option Thread) (op : Op Thread) : (Key → Option Thread) × Bool :=
  match op.call with
  | .maplktrybit | .maplkbit =>
      if owner (key op.ndx) = none then (Function.update owner (key op.ndx) (some op.thread), true) else (owner, false)
  | .mapunlkbit => (Function.update owner (key op.ndx) none, false)

omit [DecidableEq Key] in
-- Only the thread that a lock let in gives it back.
def Legal (key : Int → Key) (owner : Key → Option Thread) (op : Op Thread) : Prop :=
  op.call = .mapunlkbit → owner (key op.ndx) = some op.thread

def Inside (words : Nat) (ndx : Int) : Prop := 0 ≤ bitword ndx ∧ bitword ndx < words

-- No lock of another key that goes to the same bit is held.
def Alone (key : Int → Key) (home : Key → Int) (owner : Key → Option Thread) (op : Op Thread) : Prop :=
  (op.call = .mapunlkbit ∨ owner (key op.ndx) = none) → ∀ other, home other = bitword op.ndx → other ≠ key op.ndx → owner other = none

structure Bits (home : Key → Int) (words : Nat) (maplk : Zeromaplk) (owner : Key → Option Thread) : Prop where
  count : maplk.bits.length = words
  held : ∀ (word : Nat) bits, maplk.bits[word]? = some bits →
    (bits.getLsbD (word % 64) = true ↔ ∃ key, home key = (word : Int) ∧ owner key ≠ none)
  inside : ∀ key, owner key ≠ none → 0 ≤ home key ∧ home key < words

end Locks

theorem setbit_same (p : BitVec 64) (ndx : Nat) (small : ndx < 64) : (mcmpsetbit p ndx).1.getLsbD ndx = true := by
  simp [mcmpsetbit, small]

theorem clrbit_same (p : BitVec 64) (ndx : Nat) : (mcmpclrbit p ndx).1.getLsbD ndx = false := by
  simp [mcmpclrbit, BitVec.getLsbD_twoPow]

theorem id_mod (word : Nat) : word &&& (LONGSIZE * CHAR_BIT - 1) = word % 64 := Nat.and_two_pow_sub_one_eq_mod word 6

theorem atbit_outside (cmpbit : BitVec 64 → Nat → BitVec 64 × Bool) (maplk : Zeromaplk) (ndx : Int) (outside : ¬ Inside maplk.bits.length ndx) :
    atbit cmpbit maplk ndx = none := by
  by_cases negative : bitword ndx < 0
  · simp only [atbit, negative, if_true]
  · have far : maplk.bits.length ≤ (bitword ndx).toNat := by
      unfold Inside at outside
      omega
    simp only [atbit, negative, if_false, List.getElem?_eq_none far, Option.map_none]

theorem atbit_inside (cmpbit : BitVec 64 → Nat → BitVec 64 × Bool) (maplk : Zeromaplk) (ndx : Int) (inside : Inside maplk.bits.length ndx) :
    ∃ (word : Nat) (bits : BitVec 64), bitword ndx = (word : Int) ∧ maplk.bits[word]? = some bits ∧
      atbit cmpbit maplk ndx = some (⟨maplk.nbit, maplk.bits.set word (cmpbit bits (word % 64)).1⟩, (cmpbit bits (word % 64)).2) := by
  obtain ⟨word, isWord⟩ := Int.eq_ofNat_of_zero_le inside.1
  have small : word < maplk.bits.length := by
    have bound := inside.2
    omega
  refine ⟨word, maplk.bits[word], isWord, List.getElem?_eq_getElem small, ?_⟩
  have positive : ¬ (word : Int) < 0 := by omega
  simp only [atbit, positive, if_false, isWord, Int.toNat_natCast, List.getElem?_eq_getElem small, Option.map_some, id_mod]

section Steps

variable {Thread Key : Type} [DecidableEq Key] (key : Int → Key) (home : Key → Int) (words : Nat) (maplk : Zeromaplk)
  (owner : Key → Option Thread) (op : Op Thread)

omit [DecidableEq Key] in
-- A turn at a bit writes its word only, and so touches the keys that live there only.
theorem bits_turned (word : Nat) (bits next : BitVec 64) (nextOwner : Key → Option Thread) (rep : Bits home words maplk owner)
    (there : maplk.bits[word]? = some bits) (others : ∀ other, home other ≠ (word : Int) → nextOwner other = owner other)
    (here : next.getLsbD (word % 64) = true ↔ ∃ key, home key = (word : Int) ∧ nextOwner key ≠ none) :
    Bits home words ⟨maplk.nbit, maplk.bits.set word next⟩ nextOwner := by
  have small := (List.getElem?_eq_some_iff.mp there).1
  refine ⟨by rw [List.length_set, rep.count], fun place value found => ?_, fun key held => ?_⟩
  · by_cases same : word = place
    · subst same
      rw [List.getElem?_set_self small] at found
      cases found
      exact here
    · rw [List.getElem?_set_ne same] at found
      rw [rep.held place value found]
      apply exists_congr
      intro key
      apply and_congr_right
      intro lives
      have elsewhere : home key ≠ (word : Int) := by omega
      rw [others key elsewhere]
  · by_cases lives : home key = (word : Int)
    · have bound := rep.count
      omega
    · exact rep.inside key (by rw [← others key lives]; exact held)

theorem lock_turned (word : Nat) (bits : BitVec 64) (homes : home (key op.ndx) = (word : Int)) (rep : Bits home words maplk owner)
    (there : maplk.bits[word]? = some bits)
    (alone : owner (key op.ndx) = none → ∀ other, home other = (word : Int) → other ≠ key op.ndx → owner other = none) :
    (!(mcmpsetbit bits (word % 64)).2) = decide (owner (key op.ndx) = none) ∧
      Bits home words ⟨maplk.nbit, maplk.bits.set word (mcmpsetbit bits (word % 64)).1⟩
        (if owner (key op.ndx) = none then Function.update owner (key op.ndx) (some op.thread) else owner) := by
  have set := setbit_same bits (word % 64) (Nat.mod_lt _ (by decide))
  have bit := rep.held word bits there
  by_cases free : owner (key op.ndx) = none
  · have clear : bits.getLsbD (word % 64) = false := by
      rw [Bool.eq_false_iff, ne_eq, bit]
      rintro ⟨other, lives, held⟩
      by_cases same : other = key op.ndx
      · exact held (by rw [same, free])
      · exact held (alone free other lives same)
    refine ⟨by simp [mcmpsetbit, clear, free], ?_⟩
    rw [if_pos free]
    apply bits_turned home words maplk owner word bits _ _ rep there
    · intro other elsewhere
      apply Function.update_of_ne
      intro same
      exact elsewhere (by rw [same, homes])
    · exact ⟨fun _ => ⟨key op.ndx, homes, by rw [Function.update_self]; exact Option.some_ne_none _⟩, fun _ => set⟩
  · have taken : bits.getLsbD (word % 64) = true := bit.mpr ⟨key op.ndx, homes, free⟩
    refine ⟨by simp [mcmpsetbit, taken, free], ?_⟩
    rw [if_neg free]
    exact bits_turned home words maplk owner word bits _ _ rep there (fun _ _ => rfl) ⟨fun _ => ⟨key op.ndx, homes, free⟩, fun _ => set⟩

theorem lock_exact (homes : ∀ ndx, home (key ndx) = bitword ndx) (rep : Bits home words maplk owner) (turn : op.call ≠ .mapunlkbit) :
    (∃ next, (atbit mcmpsetbit maplk op.ndx).map (fun val => (val.1, !val.2)) = some (next, (locks key owner op).2) ∧
        Bits home words next (locks key owner op).1) ↔ Inside words op.ndx ∧ Alone key home owner op := by
  have spec : locks key owner op =
      if owner (key op.ndx) = none then (Function.update owner (key op.ndx) (some op.thread), true) else (owner, false) := by
    cases call : op.call <;> simp_all [locks]
  by_cases inside : Inside words op.ndx
  · obtain ⟨word, bits, isWord, there, turned⟩ := atbit_inside mcmpsetbit maplk op.ndx (by rw [rep.count]; exact inside)
    have lives := homes op.ndx
    rw [isWord] at lives
    simp only [turned, Option.map_some, Option.some.injEq, Prod.mk.injEq, inside, true_and]
    constructor
    · rintro ⟨next, ⟨rfl, out⟩, -⟩ given other sits different
      have free := given.resolve_left turn
      have clear : bits.getLsbD (word % 64) = false := by
        rw [spec, if_pos free] at out
        simpa [mcmpsetbit] using out
      rw [isWord] at sits
      by_contra held
      exact absurd ((rep.held word bits there).mpr ⟨other, sits, held⟩) (by rw [clear]; exact Bool.false_ne_true)
    · intro alone
      have apart : owner (key op.ndx) = none → ∀ other, home other = (word : Int) → other ≠ key op.ndx → owner other = none :=
        fun free other sits => alone (Or.inr free) other (by rw [isWord]; exact sits)
      obtain ⟨out, next⟩ := lock_turned key home words maplk owner op word bits lives rep there apart
      refine ⟨_, ⟨rfl, ?_⟩, ?_⟩
      · rw [out, spec]
        split <;> simp_all
      · rw [spec]
        split <;> simp_all
  · rw [atbit_outside mcmpsetbit maplk op.ndx (by rw [rep.count]; exact inside)]
    simp [inside]

theorem unlock_exact (homes : ∀ ndx, home (key ndx) = bitword ndx) (rep : Bits home words maplk owner) (call : op.call = .mapunlkbit)
    (legal : Legal key owner op) :
    (∃ next, mapunlkbit maplk op.ndx = some (next, (locks key owner op).2) ∧ Bits home words next (locks key owner op).1) ↔
      Inside words op.ndx ∧ Alone key home owner op := by
  have spec : locks key owner op = (Function.update owner (key op.ndx) none, false) := by rw [locks, call]
  have mine : owner (key op.ndx) ≠ none := by
    rw [legal call]
    exact Option.some_ne_none _
  have inside : Inside words op.ndx := by
    have bound := rep.inside (key op.ndx) mine
    rwa [homes] at bound
  obtain ⟨word, bits, isWord, there, turned⟩ := atbit_inside mcmpclrbit maplk op.ndx (by rw [rep.count]; exact inside)
  have small := (List.getElem?_eq_some_iff.mp there).1
  have lives := homes op.ndx
  rw [isWord] at lives
  have clear := clrbit_same bits (word % 64)
  simp only [mapunlkbit, turned, Option.map_some, Option.some.injEq, Prod.mk.injEq, inside, true_and, spec]
  constructor
  · rintro ⟨next, ⟨rfl, -⟩, later⟩ - other sits different
    rw [isWord] at sits
    have none_here := later.held word _ (List.getElem?_set_self small)
    rw [clear] at none_here
    by_contra held
    exact absurd (none_here.mpr ⟨other, sits, by rw [Function.update_of_ne different]; exact held⟩) Bool.false_ne_true
  · intro alone
    refine ⟨_, ⟨rfl, trivial⟩, ?_⟩
    apply bits_turned home words maplk owner word bits _ _ rep there
    · intro other elsewhere
      apply Function.update_of_ne
      intro same
      exact elsewhere (by rw [same, lives])
    · rw [clear]
      constructor
      · intro impossible
        cases impossible
      · rintro ⟨other, sits, held⟩
        by_cases same : other = key op.ndx
        · rw [same, Function.update_self] at held
          exact absurd rfl held
        · rw [Function.update_of_ne same] at held
          exact absurd (alone (Or.inl call) other (by rw [isWord]; exact sits) same) held

theorem step_exact (homes : ∀ ndx, home (key ndx) = bitword ndx) (rep : Bits home words maplk owner) (legal : Legal key owner op) :
    (∃ next, step maplk op = some (next, (locks key owner op).2) ∧ Bits home words next (locks key owner op).1) ↔
      Inside words op.ndx ∧ Alone key home owner op := by
  cases call : op.call with
  | maplktrybit =>
      have turn : op.call ≠ .mapunlkbit := by rw [call]; decide
      simp only [step, call]
      exact lock_exact key home words maplk owner op homes rep turn
  | maplkbit =>
      have turn : op.call ≠ .mapunlkbit := by rw [call]; decide
      simp only [step, call]
      exact lock_exact key home words maplk owner op homes rep turn
  | mapunlkbit =>
      simp only [step, call]
      exact unlock_exact key home words maplk owner op homes rep call legal

end Steps

variable {Thread : Type}

end OsZero.Sync.Maplk

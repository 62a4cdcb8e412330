import Mathlib.Data.List.Nodup
import Mathlib.Logic.Function.Basic

set_option autoImplicit false

namespace Freestack

-- An array that is a stack of free numbers: they stand from top up to n.
def On (stk : Nat → Nat) (top n id : Nat) : Prop := ∃ cur, top ≤ cur ∧ cur < n ∧ stk cur = id

structure Distinct (stk : Nat → Nat) (top n : Nat) : Prop where
  low : top ≤ n
  below : ∀ cur, top ≤ cur → cur < n → stk cur < n
  once : ∀ one two, top ≤ one → one < n → top ≤ two → two < n → stk one = stk two → one = two

section Stack

variable (stk : Nat → Nat) (top n id : Nat)

theorem on_pop (room : top < n) : On stk top n id ↔ id = stk top ∨ On stk (top + 1) n id := by
  constructor
  · rintro ⟨cur, low, high, rfl⟩
    by_cases here : cur = top
    · exact Or.inl (congrArg stk here)
    · exact Or.inr ⟨cur, by omega, high, rfl⟩
  · rintro (rfl | ⟨cur, low, high, same⟩)
    · exact ⟨top, Nat.le_refl top, room, rfl⟩
    · exact ⟨cur, Nat.le_of_succ_le low, high, same⟩

theorem on_push (other : Nat) (positive : 0 < top) (low : top ≤ n) :
    On (Function.update stk (top - 1) id) (top - 1) n other ↔ other = id ∨ On stk top n other := by
  constructor
  · rintro ⟨cur, first, high, rfl⟩
    by_cases here : cur = top - 1
    · rw [here, Function.update_self]
      exact Or.inl rfl
    · rw [Function.update_of_ne here]
      exact Or.inr ⟨cur, by omega, high, rfl⟩
  · rintro (rfl | ⟨cur, first, high, same⟩)
    · exact ⟨top - 1, Nat.le_refl _, by omega, Function.update_self _ _ _⟩
    · exact ⟨cur, by omega, high, (Function.update_of_ne (by omega) _ _).trans same⟩

theorem distinct_pop (distinct : Distinct stk top n) (room : top < n) : Distinct stk (top + 1) n ∧ ¬ On stk (top + 1) n (stk top) := by
  refine ⟨⟨room, fun cur low => distinct.below cur (Nat.le_of_succ_le low), fun one two first oneHigh second => ?_⟩, ?_⟩
  · exact distinct.once one two (Nat.le_of_succ_le first) oneHigh (Nat.le_of_succ_le second)
  · rintro ⟨cur, low, high, same⟩
    have equal := distinct.once cur top (Nat.le_of_succ_le low) high (Nat.le_refl top) room same
    omega

theorem distinct_push (distinct : Distinct stk top n) (below : id < n) (absent : ¬ On stk top n id) :
    Distinct (Function.update stk (top - 1) id) (top - 1) n := by
  have under : ∀ cur, top - 1 ≤ cur → cur ≠ top - 1 → top ≤ cur := fun cur first other => by omega
  refine ⟨Nat.le_trans (Nat.sub_le _ _) distinct.low, fun cur first high => ?_, fun one two first oneHigh second twoHigh same => ?_⟩
  · by_cases here : cur = top - 1
    · rwa [here, Function.update_self]
    · rw [Function.update_of_ne here]
      exact distinct.below cur (under cur first here) high
  · by_cases left : one = top - 1
    · by_cases right : two = top - 1
      · rw [left, right]
      · rw [left, Function.update_self, Function.update_of_ne right] at same
        exact absurd ⟨two, under two second right, twoHigh, same.symm⟩ absent
    · by_cases right : two = top - 1
      · rw [right, Function.update_self, Function.update_of_ne left] at same
        exact absurd ⟨one, under one first left, oneHigh, same⟩ absent
      · rw [Function.update_of_ne left, Function.update_of_ne right] at same
        exact distinct.once one two (under one first left) oneHigh (under two second right) twoHigh same

theorem distinct_start (numbered : ∀ cur < n, stk cur = cur) : Distinct stk 0 n := by
  refine ⟨Nat.zero_le n, fun cur _ high => ?_, fun one two _ oneHigh _ twoHigh same => ?_⟩
  · rwa [numbered cur high]
  · rwa [numbered one oneHigh, numbered two twoHigh] at same

end Stack

-- The numbers below n that are not on the stack are out.
structure Listed (stk : Nat → Nat) (top n : Nat) (out : List Nat) : Prop extends Distinct stk top n where
  count : out.length = top
  free : ∀ id, On stk top n id ↔ id < n ∧ id ∉ out
  apart : out.Nodup
  bounded : ∀ id ∈ out, id < n

theorem listed_start (stk : Nat → Nat) (n : Nat) (numbered : ∀ cur < n, stk cur = cur) : Listed stk 0 n [] := by
  refine ⟨distinct_start stk n numbered, rfl, fun id => ⟨?_, ?_⟩, List.nodup_nil, List.forall_mem_nil _⟩
  · rintro ⟨cur, -, high, rfl⟩
    rw [numbered cur high]
    exact ⟨high, List.not_mem_nil⟩
  · exact fun inside => ⟨id, Nat.zero_le id, inside.1, numbered id inside.1⟩

section Out

variable (stk : Nat → Nat) (top n : Nat) (out : List Nat) (listed : Listed stk top n out)
include listed

theorem listed_pop (room : top < n) : Listed stk (top + 1) n (stk top :: out) := by
  obtain ⟨below, absent⟩ := (listed.free (stk top)).mp ⟨top, Nat.le_refl top, room, rfl⟩
  obtain ⟨distinct, gone⟩ := distinct_pop stk top n listed.toDistinct room
  refine ⟨distinct, congrArg (· + 1) listed.count, fun id => ?_, List.nodup_cons.mpr ⟨absent, listed.apart⟩,
    List.forall_mem_cons.mpr ⟨below, listed.bounded⟩⟩
  have before := on_pop stk top n id room
  rw [listed.free id] at before
  rw [List.mem_cons, not_or]
  constructor
  · intro still
    have old := before.mpr (Or.inr still)
    exact ⟨old.1, fun same => gone (same ▸ still), old.2⟩
  · rintro ⟨inside, other, old⟩
    exact (before.mp ⟨inside, old⟩).resolve_left other

theorem listed_push (id : Nat) (member : id ∈ out) : 0 < top ∧ Listed (Function.update stk (top - 1) id) (top - 1) n (out.erase id) := by
  have positive : 0 < top := by
    rw [← listed.count]
    exact List.length_pos_of_mem member
  have absent : ¬ On stk top n id := fun on => ((listed.free id).mp on).2 member
  have below := listed.bounded id member
  refine ⟨positive, distinct_push stk top n id listed.toDistinct below absent, ?_, fun j => ?_, listed.apart.erase id,
    fun j still => listed.bounded j (List.mem_of_mem_erase still)⟩
  · rw [List.length_erase_of_mem member, listed.count]
  · rw [on_push stk top n id j positive listed.low, listed.free j, listed.apart.mem_erase_iff]
    by_cases same : j = id
    · simp [same, below]
    · simp [same]

end Out

end Freestack

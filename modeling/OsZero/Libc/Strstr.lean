import OsZero.Lib.Cstring

set_option autoImplicit false

namespace OsZero.Libc

open Cstring

-- A char pointer is the bytes from it to the terminator, which is the last one:
-- reading through the empty list is reading past the terminator.
def terminated (str : Cstr) : List UInt8 := str.bytes ++ [0]

-- while (*cptr2 == *cptr3): both advance.
def samescan : List UInt8 → List UInt8 → Option (List UInt8)
  | c :: cptr2, d :: cptr3 => if c = d then samescan cptr2 cptr3 else some (c :: cptr2)
  | _, _ => none

-- retptr is the place in str1 that cptr1 has when it is set; some none is NULL.
def strstrloop (str2 : List UInt8) : Nat → List UInt8 → Option (Option Nat)
  | _, [] => none
  | place, c :: cptr1 =>
      if c ≠ 0 then
        samescan (c :: cptr1) str2 >>= fun cptr2 =>
          if cptr2.head? = some 0 then some (some place) else strstrloop str2 (place + 1) cptr1
      else some none

def strstr (str1 str2 : List UInt8) : Option (Option Nat) := strstrloop str2 0 str1

-- What the search is for: the leftmost place of t in s.
def Finds (s t : List UInt8) : Option Nat → Prop
  | some i => i ≤ s.length ∧ t <+: s.drop i ∧ ∀ j, j < i → ¬t <+: s.drop j
  | none => ∀ j, j ≤ s.length → ¬t <+: s.drop j

section Scan

variable (s t : List UInt8)

-- The comparison leaves both strings when they are equal, and it stands at the
-- end of the first one when that is a prefix of the second.
theorem samescan_ends (plain : 0 ∉ s) (clean : 0 ∉ t) :
    (s = t ∧ samescan (s ++ [0]) (t ++ [0]) = none) ∨
    (s ≠ t ∧ ∃ rest, samescan (s ++ [0]) (t ++ [0]) = some (rest ++ [0]) ∧ 0 ∉ rest ∧ (rest = [] ↔ s <+: t)) := by
  induction s generalizing t with
  | nil =>
      cases t with
      | nil => exact .inl ⟨rfl, rfl⟩
      | cons d ds =>
          have other : (0 : UInt8) ≠ d := fun same => clean (same ▸ List.mem_cons_self ..)
          refine .inr ⟨by simp, [], ?_, by simp, by simp⟩
          simp [samescan, other]
  | cons c cs ih =>
      have some_ : c ≠ 0 := fun same => plain (same ▸ List.mem_cons_self ..)
      cases t with
      | nil =>
          refine .inr ⟨by simp, c :: cs, ?_, plain, by simp⟩
          simp [samescan, some_]
      | cons d ds =>
          rw [List.cons_append, List.cons_append, samescan]
          by_cases same : c = d
          · subst same
            rw [if_pos rfl]
            obtain ⟨rfl, left⟩ | ⟨differ, rest, ends, full, nothing⟩ :=
              ih ds (fun member => plain (List.mem_cons_of_mem _ member)) (fun member => clean (List.mem_cons_of_mem _ member))
            · exact .inl ⟨rfl, left⟩
            · exact .inr ⟨by simpa using differ, rest, ends, full, by rw [nothing, List.cons_prefix_cons, and_iff_right rfl]⟩
          · rw [if_neg same]
            exact .inr ⟨fun both => same (List.cons.inj both).1, c :: cs, rfl, plain, by simp [List.cons_prefix_cons, same]⟩

-- Where no rest of the string begins the other one, the search runs to the end.
theorem strstrloop_null (plain : 0 ∉ s) (clean : 0 ∉ t) (place : Nat) (apart : ∀ i, i < s.length → ¬s.drop i <+: t) :
    strstrloop (t ++ [0]) place (s ++ [0]) = some none := by
  induction s generalizing place with
  | nil => rfl
  | cons c cs ih =>
      have some_ : c ≠ 0 := fun same => plain (same ▸ List.mem_cons_self ..)
      have first := apart 0 (by simp)
      rw [List.drop_zero] at first
      obtain ⟨rfl, -⟩ | ⟨-, rest, ends, full, nothing⟩ := samescan_ends (c :: cs) t plain clean
      · exact absurd (List.prefix_refl _) first
      · have later := ih (fun member => plain (List.mem_cons_of_mem _ member)) (place + 1) fun i less => by
          have next := apart (i + 1) (by simpa using less)
          rwa [List.drop_succ_cons] at next
        have more : (rest ++ [0]).head? ≠ some 0 := by
          cases rest with
          | nil => exact absurd (nothing.mp rfl) first
          | cons d ds =>
              have other : d ≠ 0 := fun same => full (same ▸ List.mem_cons_self ..)
              simpa using other
        rw [List.cons_append, strstrloop, if_pos some_, ← List.cons_append, ends, Option.bind_eq_bind, Option.bind_some, if_neg more, later]

-- Where one does, it reads past both terminators or answers with such a rest.
theorem strstrloop_wrong (plain : 0 ∉ s) (clean : 0 ∉ t) (place i : Nat) (inside : i < s.length) (rest : s.drop i <+: t) :
    strstrloop (t ++ [0]) place (s ++ [0]) = none ∨
    ∃ j, j < s.length ∧ s.drop j <+: t ∧ s.drop j ≠ t ∧ strstrloop (t ++ [0]) place (s ++ [0]) = some (some (place + j)) := by
  induction s generalizing place i with
  | nil => exact absurd inside (Nat.not_lt_zero _)
  | cons c cs ih =>
      have some_ : c ≠ 0 := fun same => plain (same ▸ List.mem_cons_self ..)
      rw [List.cons_append, strstrloop, if_pos some_, ← List.cons_append]
      obtain ⟨-, left⟩ | ⟨differ, after, ends, full, nothing⟩ := samescan_ends (c :: cs) t plain clean
      · exact .inl (by rw [left]; rfl)
      · rw [ends, Option.bind_eq_bind, Option.bind_some]
        cases after with
        | nil => exact .inr ⟨0, by simp, nothing.mp rfl, differ, by simp⟩
        | cons d ds =>
            have other : d ≠ 0 := fun same => full (same ▸ List.mem_cons_self ..)
            have further : i ≠ 0 := by
              rintro rfl
              exact List.cons_ne_nil _ _ (nothing.mpr rest)
            obtain ⟨k, rfl⟩ := Nat.exists_eq_add_one_of_ne_zero further
            rw [if_neg (by simpa using other)]
            obtain lost | ⟨j, within, begins, short, found⟩ :=
              ih (fun member => plain (List.mem_cons_of_mem _ member)) (place + 1) k (by simpa using inside) (by rwa [List.drop_succ_cons] at rest)
            · exact .inl lost
            · refine .inr ⟨j + 1, by simpa using within, by rwa [List.drop_succ_cons], by rwa [List.drop_succ_cons], ?_⟩
              rw [found, Nat.add_assoc, Nat.add_comm 1]

end Scan

theorem strstr_finds_iff (str1 str2 : Cstr) :
    (∃ r, strstr (terminated str1) (terminated str2) = some r ∧ Finds str1.bytes str2.bytes r) ↔
      (∀ i, i ≤ str1.bytes.length → ¬str2.bytes <+: str1.bytes.drop i) ∧ ∀ i, i < str1.bytes.length → ¬str1.bytes.drop i <+: str2.bytes := by
  have plain := bytes_plain str1
  have clean := bytes_plain str2
  constructor
  · rintro ⟨r, result, finds⟩
    have apart : ∀ i, i < str1.bytes.length → ¬str1.bytes.drop i <+: str2.bytes := fun i inside rest => by
      obtain lost | ⟨j, within, begins, short, found⟩ := strstrloop_wrong str1.bytes str2.bytes plain clean 0 i inside rest
      · cases lost.symm.trans result
      · obtain rfl : some (0 + j) = r := Option.some.inj (found.symm.trans result)
        rw [Nat.zero_add] at finds
        exact short (begins.eq_of_length_le finds.2.1.length_le)
    have null := strstrloop_null str1.bytes str2.bytes plain clean 0 apart
    obtain rfl : none = r := Option.some.inj (null.symm.trans result)
    exact ⟨finds, apart⟩
  · rintro ⟨absent, apart⟩
    exact ⟨none, strstrloop_null str1.bytes str2.bytes plain clean 0 apart, absent⟩

def letterab : Cstr := ⟨fun i => [97, 98].getD i 0, 2, rfl, by decide⟩

def lettera : Cstr := ⟨fun i => [97].getD i 0, 1, rfl, by decide⟩

-- The success test looks at str1, so an occurrence in front of its end is missed.
theorem strstr_misses : strstr (terminated letterab) (terminated lettera) = some none ∧ ¬Finds letterab.bytes lettera.bytes none ∧
    Finds letterab.bytes lettera.bytes (some 0) := by
  have found : lettera.bytes <+: letterab.bytes.drop 0 := by decide
  exact ⟨by decide, fun absent => absent 0 (by decide) found, by decide, found, fun j less => absurd less (Nat.not_lt_zero j)⟩

end OsZero.Libc

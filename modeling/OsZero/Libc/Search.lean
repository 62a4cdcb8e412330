import OsZero.Libc.Strtok

set_option autoImplicit false

namespace OsZero.Libc.Search

open Cstring

-- A pointer is the bytes from it to the end of its object: reading behind them is a
-- fault. In a result some none is NULL, and a place is counted from the pointer.
def strchrloop (c : UInt8) : Nat → List UInt8 → Option (Option Nat)
  | _, [] => none
  | place, d :: cptr => if d ≠ 0 ∧ d ≠ c then strchrloop c (place + 1) cptr else some (if d = c then some place else none)

def strchr (str : List UInt8) (ch : UInt8) : Option (Option Nat) := strchrloop ch 0 str

-- The test counts n down also when it fails, and from 0 to SIZE_MAX.
def memchrloop (uc : UInt8) : Nat → Nat → List UInt8 → Option (Option Nat)
  | _, _, [] => none
  | place, n, d :: ucptr =>
      if d ≠ uc ∧ n ≠ 0 then memchrloop uc (place + 1) (n - 1) ucptr
      else
        let n := if d ≠ uc then SIZE_MAX else n
        some (if d = uc ∧ n ≠ 0 then some place else none)

def memchr (ptr : List UInt8) (ch : UInt8) (n : Nat) : Option (Option Nat) := if n ≠ 0 then memchrloop ch 0 n ptr else some none

def strlenloop : Nat → List UInt8 → Option Nat
  | _, [] => none
  | len, d :: str => if d ≠ 0 then strlenloop (len + 1) str else some len

def strlen (str : List UInt8) : Option Nat := strlenloop 0 str

def strrchrloop (str : List UInt8) (c : UInt8) : Nat → Option (Option Nat)
  | 0 => str[0]?.map fun d => if d ≠ c then none else some 0
  | place + 1 => str[place + 1]? >>= fun d => if d ≠ c then strrchrloop str c place else some (some (place + 1))

def strrchr (str : List UInt8) (ch : UInt8) : Option (Option Nat) := strlen str >>= strrchrloop str ch

def strpbrkloop (str2 : List UInt8) : Nat → List UInt8 → Option (Option Nat)
  | _, [] => none
  | place, c :: ucptr1 =>
      if c ≠ 0 then inset c str2 >>= fun found => if found then some (some place) else strpbrkloop str2 (place + 1) ucptr1
      else some none

def strpbrk (str1 str2 : List UInt8) : Option (Option Nat) := strpbrkloop str2 0 str1

-- The loop counts and stays at the first byte.
def strnlenloop (str : List UInt8) : Nat → Nat → Option Nat
  | len, 0 => str.head?.map fun _ => len
  | len, maxlen + 1 => str.head? >>= fun c => if c ≠ 0 then strnlenloop str (len + 1) maxlen else some len

def strnlen (str : List UInt8) (maxlen : Nat) : Option Nat := strnlenloop str 0 maxlen

-- granted says whether malloc has the memory.
def duplicate (str : List UInt8) (sz : Nat) (granted : Bool) : Option (List UInt8) :=
  if sz ≠ 0 ∧ granted then some (str.take sz ++ [0]) else none

def strdup (str : List UInt8) (granted : Bool) : Option (Option (List UInt8)) := (strlen str).map fun len => duplicate str len granted

def strndup (str : List UInt8) (maxlen : Nat) (granted : Bool) : Option (Option (List UInt8)) :=
  (strlen str).map fun len => duplicate str (min len maxlen) granted

-- The last place of c.
def Last (bytes : List UInt8) (c : UInt8) : Option Nat → Prop
  | some i => bytes[i]? = some c ∧ ∀ j, i < j → bytes[j]? ≠ some c
  | none => c ∉ bytes

section Loops

variable (s more : List UInt8) (c : UInt8)

theorem strlen_length (plain : 0 ∉ s) (len : Nat) : strlenloop len (s ++ [0] ++ more) = some (len + s.length) := by
  induction s generalizing len with
  | nil => rfl
  | cons d s ih =>
      have letter : d ≠ 0 := fun same => plain (same ▸ List.mem_cons_self ..)
      rw [List.cons_append, List.cons_append, strlenloop, if_pos letter, ih (fun member => plain (List.mem_cons_of_mem d member)),
        List.length_cons, Nat.add_right_comm, Nat.add_assoc]

theorem strchr_finds (plain : 0 ∉ s) (place : Nat) :
    strchrloop c place (s ++ [0] ++ more) = some (((s ++ [0]).findIdx? (· == c)).map (place + ·)) := by
  induction s generalizing place with
  | nil =>
      rw [List.nil_append, List.cons_append, strchrloop, if_neg (fun both => both.1 rfl)]
      by_cases same : (0 : UInt8) = c <;> simp [same]
  | cons d s ih =>
      have letter : d ≠ 0 := fun same => plain (same ▸ List.mem_cons_self ..)
      rw [List.cons_append, List.cons_append, strchrloop]
      by_cases same : d = c
      · rw [if_neg (fun both => both.2 same), if_pos same]
        simp [List.findIdx?_cons, same]
      · rw [if_pos ⟨letter, same⟩, ih fun member => plain (List.mem_cons_of_mem d member)]
        simp [List.findIdx?_cons, same, Function.comp_def, Nat.add_assoc, Nat.add_comm 1]

theorem strpbrk_finds (set : Cstr) (plain : 0 ∉ s) (place : Nat) :
    strpbrkloop (terminated set) place (s ++ [0] ++ more) = some ((s.findIdx? (fun d => decide (d ∈ set.bytes))).map (place + ·)) := by
  induction s generalizing place with
  | nil => rfl
  | cons d s ih =>
      have letter : d ≠ 0 := fun same => plain (same ▸ List.mem_cons_self ..)
      rw [List.cons_append, List.cons_append, strpbrkloop, if_pos letter, terminated, inset_mem d _ (bytes_plain set), Option.bind_eq_bind,
        Option.bind_some]
      by_cases found : d ∈ set.bytes
      · simp [List.findIdx?_cons, found]
      · rw [decide_eq_false found, if_neg Bool.false_ne_true]
        refine (ih (fun member => plain (List.mem_cons_of_mem d member)) (place + 1)).trans ?_
        simp [List.findIdx?_cons, found, Function.comp_def, Nat.add_assoc, Nat.add_comm 1]

-- Where no byte matches, the byte behind the n is compared as well.
theorem memchr_finds (mem : List UInt8) (n place : Nat) (inside : n ≤ mem.length) :
    memchrloop c place n mem = some (((mem.take n).findIdx? (· == c)).map (place + ·)) ↔ c ∈ mem.take n ∨ n < mem.length := by
  induction mem generalizing n place with
  | nil =>
      obtain rfl : n = 0 := Nat.eq_zero_of_le_zero inside
      simp [memchrloop]
  | cons d mem ih =>
      rw [memchrloop]
      cases n with
      | zero => by_cases same : d = c <;> simp [same]
      | succ n =>
          by_cases same : d = c
          · simp [List.findIdx?_cons, same]
          · rw [if_pos ⟨same, Nat.succ_ne_zero n⟩, Nat.add_sub_cancel, List.take_succ_cons, List.findIdx?_cons, if_neg (by simpa using same),
              Option.map_map, List.mem_cons, or_iff_right (Ne.symm same), List.length_cons, Nat.add_lt_add_iff_right,
              ← ih n (place + 1) (Nat.le_of_succ_le_succ inside)]
            simp only [Function.comp_def, Nat.add_assoc, Nat.add_comm 1]

theorem last_snoc (bytes : List UInt8) (d : UInt8) (found : Option Nat) (before : d ≠ c → Last bytes c found) :
    Last (bytes ++ [d]) c (if d ≠ c then found else some bytes.length) := by
  by_cases same : d = c
  · rw [if_neg (not_not_intro same), same]
    refine ⟨by simp, fun j behind => ?_⟩
    rw [List.getElem?_eq_none (by simp; omega)]
    exact (Option.some_ne_none c).symm
  · rw [if_pos same]
    have last := before same
    cases found with
    | none => simpa [Last, Ne.symm same] using last
    | some i =>
        obtain ⟨here, behind⟩ := last
        have inside : i < bytes.length := (List.getElem?_eq_some_iff.mp here).1
        refine ⟨by rw [List.getElem?_append_left inside, here], fun j after => ?_⟩
        by_cases low : j < bytes.length
        · rw [List.getElem?_append_left low]
          exact behind j after
        · rw [List.getElem?_append_right (Nat.le_of_not_lt low)]
          cases j - bytes.length <;> simp [same]

theorem strrchr_finds (str : List UInt8) (place : Nat) (inside : place < str.length) :
    ∃ found, strrchrloop str c place = some found ∧ Last (str.take (place + 1)) c found := by
  induction place with
  | zero =>
      have last := last_snoc c [] str[0] none fun _ => List.not_mem_nil
      refine ⟨_, by rw [strrchrloop, List.getElem?_eq_getElem inside, Option.map_some], ?_⟩
      rw [← List.take_append_getElem inside]
      exact last
  | succ place ih =>
      obtain ⟨found, before, earlier⟩ := ih (by omega)
      have last := last_snoc c (str.take (place + 1)) str[place + 1] found fun _ => earlier
      rw [List.length_take, Nat.min_eq_left (Nat.le_of_lt inside), List.take_append_getElem inside] at last
      refine ⟨_, ?_, last⟩
      rw [strrchrloop, List.getElem?_eq_getElem inside, Option.bind_eq_bind, Option.bind_some, before]
      split <;> rfl

theorem strnlen_counts (d : UInt8) (str : List UInt8) (len maxlen : Nat) :
    strnlenloop (d :: str) len maxlen = some (if d ≠ 0 then len + maxlen else len) := by
  induction maxlen generalizing len with
  | zero => simp [strnlenloop]
  | succ maxlen ih =>
      by_cases letter : d ≠ 0
      · simp [strnlenloop, letter, ih, Nat.add_assoc, Nat.add_comm 1]
      · simp [strnlenloop, letter]

end Loops

theorem duplicate_iff (s more : List UInt8) (sz : Nat) (granted : Bool) :
    duplicate (s ++ [0] ++ more) (min s.length sz) granted = (if granted then some (s.take sz ++ [0]) else none) ↔
      s.take sz ≠ [] ∨ granted = false := by
  have same : (s ++ [0] ++ more).take (min s.length sz) = s.take sz := by
    rw [List.append_assoc, List.take_append_of_le_length (Nat.min_le_left ..), List.take_eq_take_iff]
    omega
  rw [duplicate, same]
  cases granted with
  | false => simp
  | true =>
      have empty : min s.length sz ≠ 0 ↔ s.take sz ≠ [] := by
        rw [Ne, Ne, List.take_eq_nil_iff, ← List.length_eq_zero_iff]
        omega
      simp [empty]

-- strchr, strrchr and strpbrk find what they are for, in any string; the others err on a
-- kind of input each.
theorem searches_iff (str set : Cstr) (more mem : List UInt8) (c : UInt8) (n : Nat) (granted : Bool) (inside : n ≤ mem.length) :
    strchr (terminated str ++ more) c = some ((terminated str).findIdx? (· == c)) ∧
      (∃ found, strrchr (terminated str ++ more) c = some found ∧ Last (terminated str) c found) ∧
      strpbrk (terminated str ++ more) (terminated set) = some (str.bytes.findIdx? fun d => decide (d ∈ set.bytes)) ∧
      (memchr mem c n = some ((mem.take n).findIdx? (· == c)) ↔ n = 0 ∨ c ∈ mem.take n ∨ n < mem.length) ∧
      (strnlen (terminated str ++ more) n = some (min str.bytes.length n) ↔ str.bytes = [] ∨ n ≤ str.bytes.length) ∧
      (strdup (terminated str ++ more) granted = some (if granted then some (terminated str) else none) ↔ str.bytes ≠ [] ∨ granted = false) ∧
      (strndup (terminated str ++ more) n granted = some (if granted then some (str.bytes.take n ++ [0]) else none) ↔
        str.bytes.take n ≠ [] ∨ granted = false) := by
  have plain := bytes_plain str
  have length : strlen (terminated str ++ more) = some str.bytes.length := by
    rw [strlen, terminated, strlen_length _ more plain, Nat.zero_add]
  refine ⟨?_, ?_, ?_, ?_, ?_, ?_, ?_⟩
  · rw [strchr, terminated, strchr_finds _ more c plain]
    simp
  · obtain ⟨found, scan, last⟩ := strrchr_finds c (terminated str ++ more) str.bytes.length (by simp [terminated])
    refine ⟨found, by rw [strrchr, length, Option.bind_eq_bind, Option.bind_some, scan], ?_⟩
    rwa [List.take_left' (by simp [terminated])] at last
  · rw [strpbrk]
    refine (strpbrk_finds _ more set plain 0).trans ?_
    simp
  · rw [memchr]
    by_cases none : n = 0
    · simp [none]
    · rw [if_pos none, or_iff_right none, ← memchr_finds c mem n 0 inside]
      simp
  · rw [strnlen]
    cases bytes : str.bytes with
    | nil =>
        rw [terminated, bytes, List.nil_append, List.cons_append, strnlen_counts]
        simp
    | cons d rest =>
        have letter : d ≠ 0 := fun same => plain (bytes ▸ same ▸ List.mem_cons_self ..)
        rw [terminated, bytes, List.cons_append, List.cons_append, strnlen_counts, if_pos letter, Option.some.injEq,
          or_iff_right (List.cons_ne_nil d rest)]
        omega
  · have whole := duplicate_iff str.bytes more str.bytes.length granted
    rw [List.take_length, Nat.min_self] at whole
    rw [strdup, length, Option.map_some, Option.some.injEq]
    exact whole
  · rw [strndup, length, Option.map_some, Option.some.injEq]
    exact duplicate_iff str.bytes more n granted

theorem searches_iff_absent : memchr [1, 2] 3 2 ≠ some none := by
  intro same
  have finds := (searches_iff comma comma [] [1, 2] 3 2 true (by decide)).2.2.2.1.mp same
  exact absurd finds (by decide)

end OsZero.Libc.Search

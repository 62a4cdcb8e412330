import OsZero.Libc.Strstr

set_option autoImplicit false

namespace OsZero.Libc

open Cstring

-- while ((*ucptr2) && *ucptr1 != *ucptr2) ucptr2++, and whether it stops in front of
-- the terminator.
def inset (c : UInt8) : List UInt8 → Option Bool
  | [] => none
  | d :: ucptr2 => if d ≠ 0 ∧ c ≠ d then inset c ucptr2 else some (d ≠ 0)

-- strspn and strcspn count while the bytes are in the set, or while they are not.
def spanloop (sought : Bool) (str2 : List UInt8) : Nat → List UInt8 → Option Nat
  | _, [] => none
  | len, c :: ucptr1 =>
      if c ≠ 0 then inset c str2 >>= fun found => if found = sought then spanloop sought str2 (len + 1) ucptr1 else some len
      else some len

def strspn (str1 str2 : List UInt8) : Option Nat := spanloop true str2 0 str1

def strcspn (str1 str2 : List UInt8) : Option Nat := spanloop false str2 0 str1

-- The array of the string, terminator included, and the thread's saved place in it.
-- A place behind the array stands for one in another string.
structure Strings where
  buf : List UInt8
  curtok : Option Nat

-- cptr after the first if: a call with an empty str1 goes on at the saved place.
def starttok (str1 : Option Nat) (str2 : List UInt8) (strings : Strings) : Option (Option Nat) :=
  match str1 with
  | some str1 =>
      strings.buf[str1]? >>= fun c =>
        if c ≠ 0 then strspn (strings.buf.drop str1) str2 >>= fun nspn => some (some (str1 + nspn)) else some strings.curtok
  | none => some strings.curtok

-- *cptr = '\0' and curtok = ++cptr, or NULL where the string ends there.
def endtok (cptr : Nat) (buf : List UInt8) : Option Strings :=
  if cptr < buf.length then
    (buf.set cptr 0)[cptr + 1]? >>= fun c => some ⟨buf.set cptr 0, if c ≠ 0 then some (cptr + 1) else none⟩
  else none

-- retptr is not NULL behind retptr = cptr, so the last if is never taken.
def taketok (cptr : Nat) (str2 : List UInt8) (strings : Strings) : Option (Option Nat × Strings) :=
  strcspn (strings.buf.drop cptr) str2 >>= fun nspn => endtok (cptr + nspn) strings.buf >>= fun strings => some (some cptr, strings)

def strtok (str1 : Option Nat) (str2 : List UInt8) (strings : Strings) : Option (Option Nat × Strings) :=
  starttok str1 str2 strings >>= fun cptr =>
    match cptr with
    | some cptr => taketok cptr str2 strings
    | none => some (none, strings)

-- The calls up to the first NULL: each place that is returned and the string that
-- stands there behind the call.
def tokenise (str2 : List UInt8) : Nat → Option Nat → Strings → Option (List (Nat × List UInt8))
  | 0, _, _ => none
  | fuel + 1, str1, strings =>
      strtok str1 str2 strings >>= fun ends =>
        match ends.1 with
        | some place =>
            tokenise str2 fuel none ends.2 >>= fun later => some ((place, (ends.2.buf.drop place).takeWhile (· ≠ 0)) :: later)
        | none => some []

-- What the calls are for: the maximal runs of bytes that are no delimiter, in order.
inductive Fields (delim : UInt8 → Prop) : Nat → List UInt8 → List (Nat × List UInt8) → Prop
  | none (place : Nat) : Fields delim place [] []
  | skip (place : Nat) (c : UInt8) (s : List UInt8) (fields : List (Nat × List UInt8)) : delim c → Fields delim (place + 1) s fields →
      Fields delim place (c :: s) fields
  | run (place : Nat) (token rest : List UInt8) (fields : List (Nat × List UInt8)) : token ≠ [] → (∀ c ∈ token, ¬delim c) →
      (∀ c, rest.head? = some c → delim c) → Fields delim (place + token.length) rest fields →
      Fields delim place (token ++ rest) ((place, token) :: fields)

-- Runs that one delimiter each follows, the last one as well.
inductive Single (delim : UInt8 → Prop) : List UInt8 → Prop
  | last (token : List UInt8) (c : UInt8) : token ≠ [] → (∀ c ∈ token, ¬delim c) → delim c → Single delim (token ++ [c])
  | more (token : List UInt8) (c : UInt8) (rest : List UInt8) : token ≠ [] → (∀ c ∈ token, ¬delim c) → delim c → Single delim rest →
      Single delim (token ++ c :: rest)

section Sets

variable (delim : Cstr)

def Delim (delim : Cstr) (c : UInt8) : Prop := c ∈ delim.bytes

theorem inset_mem (c : UInt8) (set : List UInt8) (plain : 0 ∉ set) : inset c (set ++ [0]) = some (decide (c ∈ set)) := by
  induction set with
  | nil => rfl
  | cons d ds ih =>
      have some_ : d ≠ 0 := fun same => plain (same ▸ List.mem_cons_self ..)
      rw [List.cons_append, inset]
      by_cases same : c = d
      · rw [if_neg (fun both => both.2 same), same]
        simp [some_]
      · rw [if_pos ⟨some_, same⟩, ih fun member => plain (List.mem_cons_of_mem _ member)]
        simp [same]

-- The bytes of s that the loop counts, and the ones behind them.
theorem spanloop_counts (sought : Bool) (s : List UInt8) (plain : 0 ∉ s) (len : Nat) :
    ∃ run rest, s = run ++ rest ∧ spanloop sought (terminated delim) len (s ++ [0]) = some (len + run.length) ∧
      (∀ c ∈ run, decide (c ∈ delim.bytes) = sought) ∧ ∀ c, rest.head? = some c → decide (c ∈ delim.bytes) ≠ sought := by
  induction s generalizing len with
  | nil => exact ⟨[], [], rfl, rfl, by simp, by simp⟩
  | cons c cs ih =>
      have some_ : c ≠ 0 := fun same => plain (same ▸ List.mem_cons_self ..)
      rw [List.cons_append, spanloop, if_pos some_, terminated, inset_mem c _ (bytes_plain delim), Option.bind_eq_bind, Option.bind_some]
      by_cases found : decide (c ∈ delim.bytes) = sought
      · obtain ⟨run, rest, split, counted, inside, stop⟩ := ih (fun member => plain (List.mem_cons_of_mem _ member)) (len + 1)
        refine ⟨c :: run, rest, by rw [split]; rfl, ?_, ?_, stop⟩
        · rw [if_pos found]
          refine counted.trans ?_
          rw [List.length_cons, Nat.add_assoc, Nat.add_comm 1]
        · intro d member
          obtain rfl | member := List.mem_cons.mp member
          · exact found
          · exact inside d member
      · refine ⟨[], c :: cs, rfl, by rw [if_neg found]; rfl, by simp, ?_⟩
        intro d same
        obtain rfl := Option.some.inj same
        exact found

-- A call from a place in the string takes the bytes up to the next delimiter. Without
-- a delimiter it reads behind the terminator.
theorem taketok_takes (pre s : List UInt8) (saved : Option Nat) (plain : 0 ∉ s) :
    ∃ run rest, s = run ++ rest ∧ (∀ c ∈ run, ¬Delim delim c) ∧ (∀ c, rest.head? = some c → Delim delim c) ∧
      (rest = [] → taketok pre.length (terminated delim) ⟨pre ++ (s ++ [0]), saved⟩ = none) ∧
      ∀ c rest', rest = c :: rest' → taketok pre.length (terminated delim) ⟨pre ++ (s ++ [0]), saved⟩ =
        some (some pre.length, ⟨(pre ++ run ++ [0]) ++ (rest' ++ [0]), if rest' = [] then none else some (pre ++ run ++ [0]).length⟩) := by
  obtain ⟨run, rest, rfl, counted, inside, stop⟩ := spanloop_counts delim false s plain 0
  have counts : strcspn ((pre ++ (run ++ rest ++ [0])).drop pre.length) (terminated delim) = some run.length := by
    rw [List.drop_left, strcspn, counted, Nat.zero_add]
  refine ⟨run, rest, rfl, fun c member => (of_decide_eq_false (inside c member) : ¬c ∈ delim.bytes), fun c same => ?_, ?_, ?_⟩
  · by_contra other
    exact stop c same (decide_eq_false (other : ¬c ∈ delim.bytes))
  · rintro rfl
    have gone : ((pre ++ (run ++ [] ++ [0])).set (pre.length + run.length) 0)[pre.length + run.length + 1]? = none := by
      apply List.getElem?_eq_none
      simp [Nat.add_assoc]
    rw [taketok, counts, Option.bind_eq_bind, Option.bind_some, endtok, if_pos (by simp), gone]
    rfl
  · rintro c rest' rfl
    have place : pre.length + run.length < (pre ++ (run ++ c :: rest' ++ [0])).length := by simp
    have written : (pre ++ (run ++ c :: rest' ++ [0])).set (pre.length + run.length) 0 = (pre ++ run ++ [0]) ++ (rest' ++ [0]) := by
      simp
    have next : pre.length + run.length + 1 = (pre ++ run ++ [0]).length := by simp [Nat.add_assoc]
    rw [taketok, counts, Option.bind_eq_bind, Option.bind_some, endtok, if_pos place, written, next, List.getElem?_append_right (Nat.le_refl _),
      Nat.sub_self]
    cases rest' with
    | nil => rfl
    | cons d ds =>
        have some_ : d ≠ 0 := fun same => plain (by simp [same])
        simp [some_]

-- The string at a place that was ended there.
theorem string_at (pre run rest : List UInt8) (plain : 0 ∉ run) :
    (((pre ++ run ++ [0]) ++ rest).drop pre.length).takeWhile (· ≠ 0) = run := by
  have split : ((pre ++ run ++ [0]) ++ rest).drop pre.length = run ++ 0 :: rest := by
    rw [List.append_assoc, List.append_assoc, List.drop_left]
    rfl
  have all : ∀ c ∈ run, decide (c ≠ 0) = true := fun c member => decide_eq_true fun same => plain (same ▸ member)
  rw [split, List.takeWhile_append_of_pos all]
  simp

theorem tokenise_step (fuel : Nat) (str1 saved : Option Nat) (pre s : List UInt8) (plain : 0 ∉ s)
    (starts : starttok str1 (terminated delim) ⟨pre ++ (s ++ [0]), saved⟩ = some (some pre.length)) :
    ∃ run rest, s = run ++ rest ∧ (∀ c ∈ run, ¬Delim delim c) ∧ (∀ c, rest.head? = some c → Delim delim c) ∧
      (rest = [] → tokenise (terminated delim) (fuel + 1) str1 ⟨pre ++ (s ++ [0]), saved⟩ = none) ∧
      ∀ c rest', rest = c :: rest' → tokenise (terminated delim) (fuel + 1) str1 ⟨pre ++ (s ++ [0]), saved⟩ =
        tokenise (terminated delim) fuel none ⟨(pre ++ run ++ [0]) ++ (rest' ++ [0]), if rest' = [] then none else some (pre ++ run ++ [0]).length⟩
          >>= fun later => some ((pre.length, run) :: later) := by
  obtain ⟨run, rest, rfl, token, stop, lost, taken⟩ := taketok_takes delim pre s saved plain
  have clean : 0 ∉ run := fun member => plain (List.mem_append_left _ member)
  refine ⟨run, rest, rfl, token, stop, fun empty => ?_, fun c rest' more => ?_⟩
  · simp only [tokenise, strtok, starts, Option.bind_eq_bind, Option.bind_some, lost empty, Option.bind_none]
  · simp only [tokenise, strtok, starts, Option.bind_eq_bind, Option.bind_some, taken c rest' more, string_at pre run _ clean]

theorem tokenise_over (fuel : Nat) (buf : List UInt8) : tokenise (terminated delim) (fuel + 1) none ⟨buf, none⟩ = some [] := rfl

end Sets

section Lists

variable {delim : UInt8 → Prop}

theorem fields_cases (place : Nat) (s : List UInt8) (fields : List (Nat × List UInt8)) (holds : Fields delim place s fields) :
    (s = [] ∧ fields = []) ∨ (∃ c cs, s = c :: cs ∧ delim c ∧ Fields delim (place + 1) cs fields) ∨
    ∃ token rest later, s = token ++ rest ∧ fields = (place, token) :: later ∧ token ≠ [] ∧ (∀ c ∈ token, ¬delim c) ∧
      (∀ c, rest.head? = some c → delim c) ∧ Fields delim (place + token.length) rest later := by
  cases holds with
  | none => exact .inl ⟨rfl, rfl⟩
  | skip _ c cs _ first later => exact .inr (.inl ⟨c, cs, rfl, first, later⟩)
  | run _ token rest later some_ inside stop holds => exact .inr (.inr ⟨token, rest, later, rfl, rfl, some_, inside, stop, holds⟩)

theorem fields_full (place : Nat) (s : List UInt8) (fields : List (Nat × List UInt8)) (holds : Fields delim place s fields) :
    ∀ field ∈ fields, field.2 ≠ [] := by
  induction holds with
  | none => simp
  | skip _ _ _ _ _ _ ih => exact ih
  | run place token rest fields some_ _ _ _ ih =>
      intro field member
      obtain rfl | member := List.mem_cons.mp member
      · exact some_
      · exact ih field member

-- Two ways to cut off the bytes in front of a first delimiter are one.
theorem cut_once (token token' rest rest' : List UInt8) (same : token ++ rest = token' ++ rest') (inside : ∀ c ∈ token, ¬delim c)
    (inside' : ∀ c ∈ token', ¬delim c) (stop : ∀ c, rest.head? = some c → delim c) (stop' : ∀ c, rest'.head? = some c → delim c) :
    token = token' ∧ rest = rest' := by
  induction token generalizing token' with
  | nil =>
      cases token' with
      | nil => exact ⟨rfl, same⟩
      | cons d ds =>
          rw [List.nil_append] at same
          exact absurd (stop d (by rw [same]; rfl)) (inside' d (List.mem_cons_self ..))
  | cons c cs ih =>
      cases token' with
      | nil =>
          rw [List.nil_append] at same
          exact absurd (stop' c (by rw [← same]; rfl)) (inside c (List.mem_cons_self ..))
      | cons d ds =>
          rw [List.cons_append, List.cons_append, List.cons.injEq] at same
          obtain ⟨rfl, both⟩ := ih ds same.2 (fun x member => inside x (List.mem_cons_of_mem _ member))
            (fun x member => inside' x (List.mem_cons_of_mem _ member))
          exact ⟨by rw [same.1], both⟩

-- What the runs of a string that begins with one are.
theorem fields_run (place : Nat) (token : List UInt8) (c : UInt8) (rest : List UInt8) (fields : List (Nat × List UInt8)) (some_ : token ≠ [])
    (inside : ∀ c ∈ token, ¬delim c) (first : delim c) : Fields delim place (token ++ c :: rest) fields ↔
      ∃ later, fields = (place, token) :: later ∧ Fields delim (place + token.length + 1) rest later := by
  have stop : ∀ d, (c :: rest).head? = some d → delim d := fun d same => Option.some.inj same ▸ first
  constructor
  · intro holds
    obtain ⟨empty, -⟩ | ⟨d, ds, split, early, -⟩ | ⟨token', rest', later, split, rfl, -, inside', stop', holds'⟩ := fields_cases _ _ _ holds
    · exact absurd empty (by simp)
    · obtain ⟨e, es, rfl⟩ := List.exists_cons_of_ne_nil some_
      rw [List.cons_append, List.cons.injEq] at split
      exact absurd (split.1 ▸ early) (inside e (List.mem_cons_self ..))
    · obtain ⟨rfl, rfl⟩ := cut_once token token' (c :: rest) rest' split inside inside' stop stop'
      refine ⟨later, rfl, ?_⟩
      obtain ⟨empty, -⟩ | ⟨d, ds, split', -, later'⟩ | ⟨token', rest', later', split', -, more, inside'', -, -⟩ := fields_cases _ _ _ holds'
      · exact absurd empty (by simp)
      · rw [List.cons.injEq] at split'
        rwa [split'.2]
      · obtain ⟨e, es, rfl⟩ := List.exists_cons_of_ne_nil more
        rw [List.cons_append, List.cons.injEq] at split'
        exact absurd (split'.1 ▸ first) (inside'' e (List.mem_cons_self ..))
  · rintro ⟨later, rfl, holds⟩
    exact .run place token (c :: rest) later some_ inside stop (.skip _ c rest later first holds)

theorem fields_skip (pre s : List UInt8) (place : Nat) (fields : List (Nat × List UInt8)) (all : ∀ c ∈ pre, delim c) :
    Fields delim place (pre ++ s) fields ↔ Fields delim (place + pre.length) s fields := by
  induction pre generalizing place with
  | nil => rfl
  | cons c cs ih =>
      have first := all c (List.mem_cons_self ..)
      have later := ih (place + 1) fun d member => all d (List.mem_cons_of_mem _ member)
      rw [List.length_cons, Nat.add_comm cs.length, ← Nat.add_assoc, ← later]
      constructor
      · intro holds
        obtain ⟨empty, -⟩ | ⟨d, ds, split, -, later'⟩ | ⟨token', rest', later', split, -, more, inside, -, -⟩ := fields_cases _ _ _ holds
        · exact absurd empty (by simp)
        · rw [List.cons_append, List.cons.injEq] at split
          rwa [split.2]
        · obtain ⟨e, es, rfl⟩ := List.exists_cons_of_ne_nil more
          rw [List.cons_append, List.cons_append, List.cons.injEq] at split
          exact absurd (split.1 ▸ first) (inside e (List.mem_cons_self ..))
      · exact .skip place c _ fields first

end Lists

section Calls

variable (delim : Cstr)

theorem after_length (pre run : List UInt8) : (pre ++ run ++ [0]).length = pre.length + run.length + 1 := by
  simp [Nat.add_assoc]

theorem single_some (delim : UInt8 → Prop) (s : List UInt8) (single : Single delim s) : s ≠ [] := by
  cases single with
  | last => simp
  | more => simp

-- Calls that go on in the string find its runs when one delimiter follows each.
theorem tokenise_single (s : List UInt8) (single : Single (Delim delim) s) : ∀ (pre : List UInt8) (str1 saved : Option Nat), 0 ∉ s →
    starttok str1 (terminated delim) ⟨pre ++ (s ++ [0]), saved⟩ = some (some pre.length) →
      ∃ fields, Fields (Delim delim) pre.length s fields ∧
        ∀ fuel, s.length < fuel → tokenise (terminated delim) fuel str1 ⟨pre ++ (s ++ [0]), saved⟩ = some fields := by
  induction single with
  | last token c some_ inside first =>
      intro pre str1 saved plain starts
      refine ⟨[(pre.length, token)], (fields_run _ _ _ _ _ some_ inside first).mpr ⟨[], rfl, .none _⟩, fun fuel enough => ?_⟩
      have positive := List.length_pos_iff.mpr some_
      obtain ⟨more, rfl⟩ : ∃ more, fuel = more + 1 + 1 := ⟨fuel - 2, by rw [List.length_append] at enough; omega⟩
      obtain ⟨run, rest, split, inside', stop', -, taken⟩ := tokenise_step delim (more + 1) str1 saved pre _ plain starts
      obtain ⟨rfl, rfl⟩ := cut_once token run [c] rest split inside inside' (fun d same => Option.some.inj same ▸ first) stop'
      rw [taken c [] rfl, if_pos rfl, tokenise_over]
      rfl
  | more token c rest some_ inside first single ih =>
      intro pre str1 saved plain starts
      have clean : 0 ∉ rest := fun member => plain (by simp [member])
      have nonempty := single_some _ _ single
      obtain ⟨later, holds, runs⟩ := ih (pre ++ token ++ [0]) none (some (pre ++ token ++ [0]).length) clean rfl
      rw [after_length] at holds
      refine ⟨(pre.length, token) :: later, (fields_run _ _ _ _ _ some_ inside first).mpr ⟨later, rfl, holds⟩, fun fuel enough => ?_⟩
      obtain ⟨more, rfl⟩ := Nat.exists_eq_add_one.mpr (Nat.zero_lt_of_lt enough)
      obtain ⟨run, rest', split, inside', stop', -, taken⟩ := tokenise_step delim more str1 saved pre _ plain starts
      obtain ⟨rfl, rfl⟩ := cut_once token run (c :: rest) rest' split inside inside' (fun d same => Option.some.inj same ▸ first) stop'
      rw [taken c rest rfl, if_neg nonempty, runs more (by rw [List.length_append, List.length_cons] at enough; omega)]
      rfl

-- On any other string they read behind the terminator or return an empty token.
theorem tokenise_other (fuel : Nat) (s : List UInt8) (plain : 0 ∉ s) (some_ : s ≠ []) (other : ¬Single (Delim delim) s) (pre : List UInt8)
    (str1 saved : Option Nat) (fields : List (Nat × List UInt8))
    (starts : starttok str1 (terminated delim) ⟨pre ++ (s ++ [0]), saved⟩ = some (some pre.length))
    (returns : tokenise (terminated delim) fuel str1 ⟨pre ++ (s ++ [0]), saved⟩ = some fields) : ¬Fields (Delim delim) pre.length s fields := by
  induction fuel generalizing s pre str1 saved fields with
  | zero => cases returns
  | succ fuel ih =>
      obtain ⟨run, rest, rfl, inside, stop, lost, taken⟩ := tokenise_step delim fuel str1 saved pre s plain starts
      cases rest with
      | nil => cases (lost rfl).symm.trans returns
      | cons c rest =>
          have first := stop c rfl
          have clean : 0 ∉ rest := fun member => plain (by simp [member])
          rw [taken c rest rfl] at returns
          obtain ⟨later, result, same⟩ := Option.bind_eq_some_iff.mp returns
          obtain rfl := Option.some.inj same
          intro holds
          have full := fields_full _ _ _ holds (pre.length, run) (List.mem_cons_self ..)
          obtain ⟨later', same', holds'⟩ := (fields_run _ _ _ _ _ full inside first).mp holds
          obtain ⟨-, rfl⟩ := List.cons.inj same'
          by_cases last : rest = []
          · subst last
            exact other (.last run c full inside first)
          · rw [if_neg last] at result
            rw [← after_length] at holds'
            exact ih rest clean last (fun single => other (.more run c rest full inside first single)) (pre ++ run ++ [0]) none _ later rfl
              result holds'

-- Some number of calls returns exactly the runs of str, from its first byte on.
def Tokenises (str delim : Cstr) (curtok : Option Nat) : Prop :=
  ∃ enough fields, (∀ fuel, enough ≤ fuel → tokenise (terminated delim) fuel (some 0) ⟨terminated str, curtok⟩ = some fields) ∧
    Fields (Delim delim) 0 str.bytes fields

-- The first call on a string that is not empty skips the delimiters in front.
theorem first_call (str : Cstr) (curtok : Option Nat) (some_ : str.bytes ≠ []) : ∃ pre s, str.bytes = pre ++ s ∧ (∀ c ∈ pre, Delim delim c) ∧
    (∀ c, s.head? = some c → ¬Delim delim c) ∧
      starttok (some 0) (terminated delim) ⟨pre ++ (s ++ [0]), curtok⟩ = some (some pre.length) := by
  have plain := bytes_plain str
  obtain ⟨pre, s, split, counted, inside, stop⟩ := spanloop_counts delim true str.bytes plain 0
  refine ⟨pre, s, split, fun c member => (of_decide_eq_true (inside c member) : c ∈ delim.bytes), fun c same member => ?_, ?_⟩
  · exact stop c same (decide_eq_true (member : c ∈ delim.bytes))
  · rw [Nat.zero_add] at counted
    obtain ⟨c, cs, first⟩ := List.exists_cons_of_ne_nil some_
    have whole : pre ++ (s ++ [0]) = c :: (cs ++ [0]) := by
      rw [← List.append_assoc, ← split, first]
      rfl
    have head : c ≠ 0 := fun same => plain (by rw [first, same]; exact List.mem_cons_self ..)
    have spans : strspn (c :: (cs ++ [0])) (terminated delim) = some pre.length := by
      rw [first] at counted
      exact counted
    rw [starttok, whole]
    simp [head, spans]

theorem single_head (delim : UInt8 → Prop) (s : List UInt8) (single : Single delim s) (c : UInt8) (same : s.head? = some c) : ¬delim c := by
  have token : ∀ (token rest : List UInt8), token ≠ [] → (∀ c ∈ token, ¬delim c) → (token ++ rest).head? = some c → ¬delim c := by
    intro token rest some_ inside same
    obtain ⟨d, ds, rfl⟩ := List.exists_cons_of_ne_nil some_
    exact Option.some.inj same ▸ inside d (List.mem_cons_self ..)
  cases single with
  | last run d some_ inside _ => exact token run [d] some_ inside same
  | more run d rest some_ inside _ _ => exact token run (d :: rest) some_ inside same

-- A call on the empty string goes on at the saved place, which is not in it.
theorem empty_saved (delim : Cstr) (place fuel : Nat) : tokenise (terminated delim) fuel (some 0) ⟨[0], some place⟩ = none := by
  cases fuel with
  | zero => rfl
  | succ fuel =>
      have lost : taketok place (terminated delim) ⟨[0], some place⟩ = none := by
        cases place with
        | zero => rfl
        | succ place => simp [taketok, strcspn, spanloop]
      have starts : starttok (some 0) (terminated delim) ⟨[0], some place⟩ = some (some place) := rfl
      simp only [tokenise, strtok, starts, Option.bind_eq_bind, Option.bind_some, lost, Option.bind_none]

theorem tokenises_empty (str delim : Cstr) (curtok : Option Nat) (empty : str.bytes = []) : Tokenises str delim curtok ↔ curtok = none := by
  have buf : terminated str = [0] := by rw [terminated, empty]; rfl
  rw [Tokenises, buf, empty]
  constructor
  · rintro ⟨enough, fields, returns, -⟩
    cases curtok with
    | none => rfl
    | some place => cases (empty_saved delim place enough).symm.trans (returns enough (Nat.le_refl _))
  · rintro rfl
    refine ⟨1, [], fun fuel enough => ?_, .none 0⟩
    obtain ⟨more, rfl⟩ := Nat.exists_eq_add_one.mpr (Nat.zero_lt_of_lt enough)
    rfl

section Skipped

variable (str delim : Cstr) (curtok : Option Nat) (pre s : List UInt8) (split : str.bytes = pre ++ s) (skipped : ∀ c ∈ pre, Delim delim c)
  (starts : starttok (some 0) (terminated delim) ⟨pre ++ (s ++ [0]), curtok⟩ = some (some pre.length))
include split skipped starts

omit skipped starts in
theorem split_clean : 0 ∉ s ∧ terminated str = pre ++ (s ++ [0]) :=
  ⟨fun member => bytes_plain str (by rw [split]; exact List.mem_append_right _ member), by rw [terminated, split, List.append_assoc]⟩

theorem tokenises_only (tokenises : Tokenises str delim curtok) : Single (Delim delim) s := by
  obtain ⟨clean, buf⟩ := split_clean str pre s split
  rw [Tokenises, buf] at tokenises
  obtain ⟨enough, fields, returns, holds⟩ := tokenises
  rw [split, fields_skip pre s 0 fields skipped, Nat.zero_add] at holds
  by_contra other
  have result := returns (enough + 1) (Nat.le_succ _)
  by_cases none_ : s = []
  · subst none_
    obtain ⟨run, rest, ends, -, -, lost, -⟩ := tokenise_step delim enough (some 0) curtok pre [] clean starts
    cases (lost (List.append_eq_nil_iff.mp ends.symm).2).symm.trans result
  · exact tokenise_other delim _ s clean none_ other pre (some 0) curtok fields starts result holds

theorem tokenises_single (single : Single (Delim delim) s) : Tokenises str delim curtok := by
  obtain ⟨clean, buf⟩ := split_clean str pre s split
  obtain ⟨fields, holds, returns⟩ := tokenise_single delim s single pre (some 0) curtok clean starts
  rw [Tokenises, buf]
  refine ⟨s.length + 1, fields, fun fuel enough => returns fuel enough, ?_⟩
  rwa [split, fields_skip pre s 0 fields skipped, Nat.zero_add]

end Skipped

theorem strtok_tokenises_iff (str delim : Cstr) (curtok : Option Nat) : Tokenises str delim curtok ↔
    (str.bytes = [] ∧ curtok = none) ∨ ∃ pre rest, str.bytes = pre ++ rest ∧ (∀ c ∈ pre, Delim delim c) ∧ Single (Delim delim) rest := by
  by_cases empty : str.bytes = []
  · rw [tokenises_empty str delim curtok empty, and_iff_right empty]
    refine (or_iff_left ?_).symm
    rintro ⟨pre, rest, split, -, single⟩
    rw [empty] at split
    exact absurd (List.append_eq_nil_iff.mp split.symm).2 (single_some _ _ single)
  · obtain ⟨pre, s, split, skipped, stop, starts⟩ := first_call delim str curtok empty
    constructor
    · exact fun tokenises => .inr ⟨pre, s, split, skipped, tokenises_only str delim curtok pre s split skipped starts tokenises⟩
    · rintro (⟨none_, -⟩ | ⟨pre', rest, split', skipped', single⟩)
      · exact absurd none_ empty
      · have same := @cut_once (fun c => ¬Delim delim c) pre pre' s rest (split.symm.trans split')
          (fun c member none_ => none_ (skipped c member)) (fun c member none_ => none_ (skipped' c member)) stop
          (fun c first => single_head _ _ single c first)
        obtain ⟨rfl, rfl⟩ := same
        exact tokenises_single str delim curtok pre s split skipped starts single

def comma : Cstr := ⟨fun i => [44].getD i 0, 1, rfl, by decide⟩

-- The last token of a string ends at the terminator, and *++cptr is behind it.
theorem strtok_reads_on : (∀ fuel, tokenise (terminated comma) fuel (some 0) ⟨terminated lettera, none⟩ = none) ∧
    ¬Tokenises lettera comma none := by
  have lost : ∀ fuel, tokenise (terminated comma) fuel (some 0) ⟨terminated lettera, none⟩ = none := fun fuel => by
    cases fuel with
    | zero => rfl
    | succ fuel => rfl
  refine ⟨lost, ?_⟩
  rintro ⟨enough, fields, returns, -⟩
  cases (lost enough).symm.trans (returns enough (Nat.le_refl _))

end Calls

end OsZero.Libc

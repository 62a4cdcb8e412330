import OsZero.Zcc.Readfile
import Mathlib.Logic.Basic

set_option autoImplicit false

namespace OsZero.Zcc

open Cstring

-- The text behind the end of a comment, given the text behind its beginning.
def afterEnd : List UInt8 → Option (List UInt8)
  | [] => none
  | ch :: chars => if ch = code '*' ∧ chars.head? = some (code '/') then some chars.tail else afterEnd chars

-- An odd number of stars stands in front of the slash that ends the comment.
def oddEnd (stars : Nat) : List UInt8 → Bool
  | [] => true
  | ch :: chars =>
      if ch = code '*' then oddEnd (stars + 1) chars
      else if ch = code '/' ∧ stars ≠ 0 then stars % 2 = 1
      else oddEnd 0 chars

theorem comment_plain (ch : UInt8) (file : List UInt8) (other : ch ≠ code '*') : comment (ch :: file) = comment file := by
  rw [comment.eq_def]
  exact if_neg other

theorem comment_star (ch : UInt8) (file : List UInt8) :
    comment (code '*' :: ch :: file) = if ch = code '/' then some file else comment file := by
  rw [comment.eq_def]
  exact if_pos rfl

theorem afterEnd_plain (ch : UInt8) (chars : List UInt8) (other : ch ≠ code '*') : afterEnd (ch :: chars) = afterEnd chars := by
  rw [afterEnd, if_neg fun both => other both.1]

theorem afterEnd_star (ch : UInt8) (chars : List UInt8) :
    afterEnd (code '*' :: ch :: chars) = if ch = code '/' then some chars else afterEnd (ch :: chars) := by
  rw [afterEnd]
  simp only [true_and, List.head?_cons, Option.some.injEq, List.tail_cons]

theorem comment_shorter (size : Nat) (file rest : List UInt8) (fits : file.length ≤ size) (found : comment file = some rest) :
    rest.length < file.length := by
  induction size generalizing file with
  | zero =>
    rw [List.length_eq_zero_iff.mp (Nat.le_zero.mp fits)] at found
    contradiction
  | succ size ih =>
    cases file with
    | nil => contradiction
    | cons ch file =>
      have fewer : file.length ≤ size := Nat.le_of_succ_le_succ fits
      by_cases star : ch = code '*'
      · subst star
        cases file with
        | nil => contradiction
        | cons ch file =>
          rw [comment_star] at found
          have least : file.length ≤ size := Nat.le_of_succ_le fewer
          split at found
          · cases found
            exact Nat.lt_succ_of_lt (Nat.lt_succ_self _)
          · exact Nat.lt_succ_of_lt (Nat.lt_succ_of_lt (ih file least found))
      · rw [comment_plain ch file star] at found
        exact Nat.lt_succ_of_lt (ih file fewer found)

-- What the code finds behind a comment is what stands there where the run of
-- stars is odd, and begins later where it is even.
def Agrees (odd : Bool) (found rest : Option (List UInt8)) : Prop :=
  if odd then found = rest else ∀ next ∈ found, ∀ other ∈ rest, next.length < other.length

-- Behind a star of the comment the code looks at the next character only, so it
-- takes the stars of a run two by two.
theorem comment_agrees (file : List UInt8) :
    (∀ stars, stars % 2 = 0 → Agrees (oddEnd stars file) (comment file) (afterEnd (if stars = 0 then file else code '*' :: file))) ∧
      ∀ stars, stars % 2 = 1 → Agrees (oddEnd stars file) (comment (code '*' :: file)) (afterEnd (code '*' :: file)) := by
  induction file with
  | nil => exact ⟨fun stars _ => by split <;> rfl, fun stars _ => rfl⟩
  | cons ch file ih =>
    obtain ⟨even, odd⟩ := ih
    have notSlash : code '*' ≠ code '/' := by decide
    by_cases star : ch = code '*'
    · subst star
      have twoStars : afterEnd (code '*' :: code '*' :: file) = afterEnd (code '*' :: file) := by rw [afterEnd_star, if_neg notSlash]
      constructor
      · intro stars parity
        rw [oddEnd, if_pos rfl, apply_ite afterEnd, twoStars, ite_self]
        exact odd (stars + 1) (by omega)
      · intro stars parity
        have next := even (stars + 1) (by omega)
        rw [if_neg (Nat.succ_ne_zero stars)] at next
        rw [oddEnd, if_pos rfl, comment_star, if_neg notSlash, twoStars]
        exact next
    · have behind := even 0 rfl
      rw [if_pos rfl] at behind
      have skipped : afterEnd (ch :: file) = afterEnd file := afterEnd_plain ch file star
      by_cases slash : ch = code '/'
      · subst slash
        constructor
        · intro stars parity
          by_cases none : stars = 0
          · rw [oddEnd, if_neg star, if_neg (fun both => both.2 none), if_pos none, comment_plain _ file star, skipped]
            exact behind
          · rw [oddEnd, if_neg star, if_pos ⟨rfl, none⟩, if_neg none, comment_plain _ file star, afterEnd_star, if_pos rfl,
              decide_eq_false (by omega)]
            rintro next found _ ⟨⟩
            exact comment_shorter _ file next (Nat.le_refl _) found
        · intro stars parity
          rw [oddEnd, if_neg star, if_pos ⟨rfl, by omega⟩, comment_star, afterEnd_star, if_pos rfl, if_pos rfl, decide_eq_true parity]
          rfl
      · have fresh : ∀ stars, oddEnd stars (ch :: file) = oddEnd 0 file := by
          intro stars
          rw [oddEnd, if_neg star, if_neg fun both => slash both.1]
        constructor
        · intro stars parity
          rw [fresh, apply_ite afterEnd, afterEnd_star, if_neg slash, ite_self, skipped, comment_plain ch file star]
          exact behind
        · intro stars parity
          rw [fresh, comment_star, afterEnd_star, if_neg slash, if_neg slash, skipped]
          exact behind

theorem comment_odd (file : List UInt8) (odd : oddEnd 0 file = true) : comment file = afterEnd file := by
  have agrees := (comment_agrees file).1 0 rfl
  rw [odd] at agrees
  exact agrees

theorem comment_even (file next rest : List UInt8) (even : oddEnd 0 file = false) (found : comment file = some next)
    (ends : afterEnd file = some rest) : next.length < rest.length := by
  have agrees := (comment_agrees file).1 0 rfl
  rw [even] at agrees
  exact agrees next found rest ends

-- A comment that the line does not end ends where the text behind the line ends it.
theorem afterEnd_line (line file : List UInt8) (inside : afterEnd line = none) : afterEnd (line ++ newline :: file) = afterEnd file := by
  induction line with
  | nil => exact afterEnd_plain newline file (by decide)
  | cons ch line ih =>
    by_cases star : ch = code '*'
    · subst star
      cases line with
      | nil => rw [List.singleton_append, afterEnd_star, if_neg (by decide), afterEnd_plain newline file (by decide)]
      | cons next line =>
        rw [afterEnd_star] at inside
        split at inside
        · contradiction
        · next notSlash =>
          rw [List.cons_append, List.cons_append, afterEnd_star, if_neg notSlash]
          exact ih inside
    · rw [afterEnd_plain ch line star] at inside
      rw [List.cons_append, afterEnd_plain ch _ star]
      exact ih inside

-- Where the line ends the comment, that is the end of it.
theorem afterEnd_append (line more rest : List UInt8) (ends : afterEnd line = some rest) : afterEnd (line ++ more) = some (rest ++ more) := by
  induction line with
  | nil => contradiction
  | cons ch line ih =>
    by_cases star : ch = code '*'
    · subst star
      cases line with
      | nil => contradiction
      | cons next line =>
        rw [afterEnd_star] at ends
        rw [List.cons_append, List.cons_append, afterEnd_star]
        split at ends
        · next slash =>
          cases ends
          rw [if_pos slash]
        · next notSlash =>
          rw [if_neg notSlash]
          exact ih ends
    · rw [afterEnd_plain ch line star] at ends
      rw [List.cons_append, afterEnd_plain ch _ star]
      exact ih ends

end OsZero.Zcc

import Mathlib.Data.Nat.Find

set_option autoImplicit false

namespace Portions

-- A stream that is moved in portions. A call moves any positive number up to what it is
-- asked for, or it fails; what the calls do is a pattern, one answer for each call.
inductive Errno where
  | zero
  | eintr
  | eagain
  | eio
deriving DecidableEq

-- count n moves n + 1 at most.
inductive Answer where
  | count (n : Nat)
  | error (errno : Errno)
deriving DecidableEq

abbrev Answers := Nat → Answer

-- A call is at worst interrupted.
def Plain (answers : Answers) : Prop := ∀ turn errno, answers turn = .error errno → errno = .eintr

-- It is not interrupted for ever.
def Fair (answers : Answers) : Prop := ∀ turn, ∃ later, turn ≤ later ∧ answers later ≠ .error .eintr

structure Source (α : Type) where
  ahead : List α
  turn : Nat

structure Sink (α : Type) where
  behind : List α
  turn : Nat

variable {α : Type} (answers : Answers)

-- Nothing is moved where the call fails, and at the end of the stream.
def Source.read (source : Source α) (asked : Nat) : Errno × List α × Source α :=
  match answers source.turn with
  | .count n => (.zero, source.ahead.take (min (n + 1) asked), ⟨source.ahead.drop (min (n + 1) asked), source.turn + 1⟩)
  | .error errno => (errno, [], ⟨source.ahead, source.turn + 1⟩)

def Sink.write (sink : Sink α) (values : List α) : Errno × Nat × Sink α :=
  match answers sink.turn with
  | .count n => (.zero, (values.take (n + 1)).length, ⟨sink.behind ++ values.take (n + 1), sink.turn + 1⟩)
  | .error errno => (errno, 0, ⟨sink.behind, sink.turn + 1⟩)

section Calls

variable (turn n : Nat) (moves : answers turn = .count n)
include moves

theorem read_count (ahead : List α) (asked : Nat) : Source.read answers ⟨ahead, turn⟩ asked =
    (.zero, ahead.take (min (n + 1) asked), ⟨ahead.drop (min (n + 1) asked), turn + 1⟩) := by
  simp only [Source.read, moves]

theorem write_count (behind values : List α) : Sink.write answers ⟨behind, turn⟩ values =
    (.zero, (values.take (n + 1)).length, ⟨behind ++ values.take (n + 1), turn + 1⟩) := by
  simp only [Sink.write, moves]

end Calls

section Failures

variable (turn : Nat) (errno : Errno) (fails : answers turn = .error errno)
include fails

theorem read_error (ahead : List α) (asked : Nat) : Source.read answers ⟨ahead, turn⟩ asked = (errno, [], ⟨ahead, turn + 1⟩) := by
  simp only [Source.read, fails]

theorem write_error (behind values : List α) : Sink.write answers ⟨behind, turn⟩ values = (errno, 0, ⟨behind, turn + 1⟩) := by
  simp only [Sink.write, fails]

end Failures

-- A loop that spends one turn of its fuel on each interrupted call and changes nothing else.
theorem interrupted_turns {β : Type} (loop : Nat → Nat → β)
    (skips : ∀ fuel turn, answers turn = .error .eintr → loop (fuel + 1) turn = loop fuel (turn + 1)) (turn wait fuel : Nat)
    (waits : ∀ i, turn ≤ i → i < turn + wait → answers i = .error .eintr) : loop (fuel + wait) turn = loop fuel (turn + wait) := by
  induction wait generalizing turn with
  | zero => rfl
  | succ wait ih =>
      have next : turn + 1 + wait = turn + (wait + 1) := by omega
      rw [← Nat.add_assoc, skips _ turn (waits turn (Nat.le_refl turn) (by omega)), ← next]
      exact ih (turn + 1) fun i low high => waits i (by omega) (by omega)

section Portions

-- A portion and what is still asked for behind it.
theorem take_rest (values : List α) (k asked : Nat) (within : k ≤ asked) :
    values.take k ++ (values.drop k).take (asked - (values.take k).length) = values.take asked := by
  rcases Nat.le_total k values.length with whole | short
  · rw [List.length_take_of_le whole, ← List.take_add, Nat.add_sub_cancel' within]
  · rw [List.take_of_length_le short, List.drop_of_length_le short, List.take_nil, List.append_nil, List.take_of_length_le (Nat.le_trans short within)]

theorem drop_rest (values : List α) (k asked : Nat) (within : k ≤ asked) :
    (values.drop k).drop (asked - (values.take k).length) = values.drop asked := by
  rcases Nat.le_total k values.length with whole | short
  · rw [List.length_take_of_le whole, List.drop_drop, Nat.add_sub_cancel' within]
  · rw [List.drop_of_length_le short, List.drop_nil, List.drop_of_length_le (Nat.le_trans short within)]

end Portions

section Patterns

variable {answers}

theorem plain_count (plain : Plain answers) (turn : Nat) (other : answers turn ≠ .error .eintr) : ∃ n, answers turn = .count n := by
  cases answered : answers turn with
  | count n => exact ⟨n, rfl⟩
  | error errno => exact absurd (by rw [answered, plain turn errno answered]) other

-- The first call from a turn on that is not interrupted.
theorem first_count (plain : Plain answers) (fair : Fair answers) (turn : Nat) :
    ∃ later n, turn ≤ later ∧ answers later = .count n ∧ ∀ i, turn ≤ i → i < later → answers i = .error .eintr := by
  have some_later := fair turn
  obtain ⟨low, other⟩ := Nat.find_spec some_later
  obtain ⟨n, moves⟩ := plain_count plain _ other
  refine ⟨Nat.find some_later, n, low, moves, fun i above before => ?_⟩
  by_contra different
  exact Nat.find_min some_later before ⟨above, different⟩

-- What holds after one more call holds before it, where the call was interrupted, and
-- where it left less to do.
theorem turns_induct {motive : Nat → Nat → Prop} (plain : Plain answers) (fair : Fair answers)
    (skip : ∀ turn left, answers turn = .error .eintr → motive (turn + 1) left → motive turn left)
    (move : ∀ turn left n, answers turn = .count n → (∀ less, less < left → motive (turn + 1) less) → motive turn left) (turn left : Nat) :
    motive turn left := by
  induction left using Nat.strong_induction_on generalizing turn with
  | _ left ih =>
    obtain ⟨later, n, low, moves, waits⟩ := first_count plain fair turn
    obtain ⟨wait, rfl⟩ := Nat.exists_eq_add_of_le low
    clear low
    induction wait generalizing turn with
    | zero => exact move turn left n moves fun less before => ih less before (turn + 1)
    | succ wait waiting =>
      have next : turn + 1 + wait = turn + (wait + 1) := by omega
      exact skip turn left (waits turn (Nat.le_refl turn) (by omega))
        (waiting (turn + 1) (by rw [next]; exact moves) fun i above before => waits i (by omega) (by omega))

end Patterns

end Portions

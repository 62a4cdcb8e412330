import OsZero.Lib.Cstring
import OsZero.Lib.Portions
import OsZero.Lib.Stores

set_option autoImplicit false

namespace OsZero.Unix

open Cstring Portions Stores

section Loops

variable (stop : Errno → Nat → Int) (answers : Answers)

-- errno = 0; res = read(fd, cptr, nb); the result is not positive where nothing was read.
def readloop : Nat → Source UInt8 → Mem UInt8 → Nat → Nat → Nat → Option (Int × Mem UInt8 × Source UInt8)
  | 0, _, _, _, _, _ => none
  | fuel + 1, fd, mem, cptr, nb, len =>
      if nb = 0 then some (len, mem, fd)
      else
        let (errno, portion, fd) := fd.read answers nb
        if portion.length = 0 then
          if errno = .eintr then readloop fuel fd mem cptr nb len else some (stop errno len, mem, fd)
        else readloop fuel fd (mem.fill cptr portion) (cptr + portion.length) (nb - portion.length) (len + portion.length)

def writeloop : Nat → Sink UInt8 → (Nat → UInt8) → Nat → Nat → Nat → Option (Int × Sink UInt8)
  | 0, _, _, _, _, _ => none
  | fuel + 1, fd, buf, cptr, nb, len =>
      if nb = 0 then some (len, fd)
      else
        let (errno, res, fd) := fd.write answers (slice buf cptr (cptr + nb))
        if res = 0 then
          if errno = .eintr then writeloop fuel fd buf cptr nb len else some (stop errno len, fd)
        else writeloop fuel fd buf (cptr + res) (nb - res) (len + res)

end Loops

section Calls

variable (answers : Answers) (fuel : Nat)

def zread (fd : Source UInt8) (mem : Mem UInt8) (nb : Nat) : Option (Int × Mem UInt8 × Source UInt8) :=
  readloop (fun _ len => if len = 0 then -1 else len) answers fuel fd mem 0 nb 0

def zreadnb (fd : Source UInt8) (mem : Mem UInt8) (nb : Nat) : Option (Int × Mem UInt8 × Source UInt8) :=
  readloop (fun errno len => if errno = .eagain then len else -1) answers fuel fd mem 0 nb 0

def zwrite (fd : Sink UInt8) (buf : Nat → UInt8) (nb : Nat) : Option (Int × Sink UInt8) :=
  writeloop (fun _ len => len) answers fuel fd buf 0 nb 0

def zwritenb (fd : Sink UInt8) (buf : Nat → UInt8) (nb : Nat) : Option (Int × Sink UInt8) :=
  writeloop (fun errno len => if errno = .eagain then len else -1) answers fuel fd buf 0 nb 0

end Calls

section Files

variable (answers : Answers)

structure Statbuf where
  st_size : Nat
  regular : Bool

-- Every read goes to the start of the buffer; none is the result NULL of a failure.
def readall : Nat → Source UInt8 → Mem UInt8 → Nat → Option (Option (Mem UInt8))
  | 0, _, _, _ => none
  | fuel + 1, fd, buf, nleft =>
      if nleft = 0 then some (some buf)
      else
        let (errno, portion, fd) := fd.read answers nleft
        if errno = .zero then readall fuel fd (buf.fill 0 portion) (nleft - portion.length)
        else if errno = .eintr then readall fuel fd buf nleft
        else some none

-- The buffer and what is stored into *sizeret. The results of stat, open and malloc are
-- given: none where the call fails.
def zreadfile (statbuf : Option Statbuf) (fd : Option (Source UInt8)) (alloc : Option (Nat → UInt8)) (fuel : Nat) :
    Option (Option (Mem UInt8) × Nat) :=
  match statbuf, fd with
  | some statbuf, some fd =>
      if statbuf.regular then
        let nleft := statbuf.st_size
        if nleft = 0 then some (none, nleft)
        else
          match alloc with
          | some fresh => do
              match ← readall answers fuel fd ⟨fresh, []⟩ nleft with
              | some buf => some (some buf, nleft)
              | none => some (none, 0)
          | none => some (none, nleft)
      else some (none, 0)
  | _, _ => some (none, 0)

-- The result is whether the loop came to its end.
def writeall : Nat → Sink UInt8 → (Nat → UInt8) → Nat → Option (Bool × Sink UInt8)
  | 0, _, _, _ => none
  | fuel + 1, fd, buf, nleft =>
      if nleft = 0 then some (true, fd)
      else
        let (errno, res, fd) := fd.write answers (slice buf 0 nleft)
        if errno = .zero then writeall fuel fd buf (nleft - res)
        else if errno = .eintr then writeall fuel fd buf nleft
        else some (false, fd)

-- buf = malloc(nleft); the caller's buffer is not looked at. *sizeret is left as it was
-- where the function fails.
def zwritefile (fd : Option (Sink UInt8)) (alloc : Option (Nat → UInt8)) (_buf : Nat → UInt8) (nb sizeret fuel : Nat) :
    Option (Int × Nat × Option (Sink UInt8)) :=
  match fd with
  | some fd =>
      let nleft := nb
      if nleft = 0 then some (0, nb, some fd)
      else
        let buf := alloc
        match buf with
        | some buf => do
            let (done, fd) ← writeall answers fuel fd buf nleft
            if done then some (0, nb, some fd) else some (-1, sizeret, some fd)
        | none => some (0, nb, some fd)
  | none => some (-1, sizeret, none)

end Files

section Transfers

variable (stop : Errno → Nat → Int) (answers : Answers)

-- Pointer, remaining count and result go forward together, over what is read.
def Reads (turn nb : Nat) : Prop := ∀ ahead mem cptr len, ∃ enough after, ∀ fuel, enough ≤ fuel → readloop stop answers fuel ⟨ahead, turn⟩ mem cptr nb len =
  some (if nb ≤ ahead.length then ((len + nb : Nat) : Int) else stop .zero (len + ahead.length), mem.fill cptr (ahead.take nb), ⟨ahead.drop nb, after⟩)

def Writes (turn nb : Nat) : Prop := ∀ behind buf cptr len, ∃ enough after, ∀ fuel, enough ≤ fuel → writeloop stop answers fuel ⟨behind, turn⟩ buf cptr nb len =
  some (((len + nb : Nat) : Int), ⟨behind ++ slice buf cptr (cptr + nb), after⟩)

-- One more call, which needs one more unit of fuel.
theorem call_more {β : Type} {run : Nat → Option β} {next : Nat → Option β} {found : β} (enough : Nat) (call : ∀ fuel, run (fuel + 1) = next fuel)
    (later : ∀ fuel, enough ≤ fuel → next fuel = some found) : ∀ fuel, enough + 1 ≤ fuel → run fuel = some found := by
  intro fuel low
  obtain ⟨fuel, rfl⟩ := Nat.exists_eq_add_of_le' (Nat.le_trans (Nat.le_add_left 1 enough) low)
  rw [call]
  exact later fuel (by omega)

theorem readloop_done (fuel turn cptr len : Nat) (ahead : List UInt8) (mem : Mem UInt8) :
    readloop stop answers (fuel + 1) ⟨ahead, turn⟩ mem cptr 0 len = some ((len : Int), mem, ⟨ahead, turn⟩) := by
  rw [readloop, if_pos rfl]

theorem reads_none (turn : Nat) : Reads stop answers turn 0 := fun ahead mem cptr len =>
  ⟨0 + 1, turn, call_more 0 (fun fuel => readloop_done stop answers fuel turn cptr len ahead mem) fun fuel _ => by
    rw [if_pos (Nat.zero_le _)]
    rfl⟩

theorem reads_skip (turn nb : Nat) (interrupted : answers turn = .error .eintr) (ih : Reads stop answers (turn + 1) nb) : Reads stop answers turn nb := by
  rcases Nat.eq_zero_or_pos nb with rfl | some_left
  · exact reads_none stop answers turn
  intro ahead mem cptr len
  obtain ⟨enough, after, later⟩ := ih ahead mem cptr len
  refine ⟨enough + 1, after, call_more enough (fun fuel => ?_) later⟩
  rw [readloop, if_neg (Nat.ne_of_gt some_left), read_error answers turn .eintr interrupted]
  rfl

theorem reads_move (turn nb n : Nat) (moves : answers turn = .count n) (ih : ∀ less, less < nb → Reads stop answers (turn + 1) less) :
    Reads stop answers turn nb := by
  rcases Nat.eq_zero_or_pos nb with rfl | some_left
  · exact reads_none stop answers turn
  intro ahead mem cptr len
  have length := List.length_take (i := min (n + 1) nb) (l := ahead)
  rcases Nat.eq_zero_or_pos ahead.length with ended | more
  · obtain rfl := List.eq_nil_of_length_eq_zero ended
    have ends : ∀ fuel, readloop stop answers (fuel + 1) ⟨[], turn⟩ mem cptr nb len = some (stop .zero len, mem, ⟨[], turn + 1⟩) := by
      intro fuel
      rw [readloop, if_neg (Nat.ne_of_gt some_left), read_count answers turn n moves]
      simp
    refine ⟨0 + 1, turn + 1, call_more 0 ends fun fuel _ => ?_⟩
    · have short : ¬nb ≤ ([] : List UInt8).length := Nat.not_le_of_gt some_left
      rw [if_neg short, List.take_nil, List.drop_nil]
      rfl
  · obtain ⟨enough, after, later⟩ := ih (nb - (ahead.take (min (n + 1) nb)).length) (by omega) (ahead.drop (min (n + 1) nb))
      (mem.fill cptr (ahead.take (min (n + 1) nb))) (cptr + (ahead.take (min (n + 1) nb)).length) (len + (ahead.take (min (n + 1) nb)).length)
    rw [← fill_append, take_rest ahead _ nb (Nat.min_le_right _ _), drop_rest ahead _ nb (Nat.min_le_right _ _), List.length_drop] at later
    refine ⟨enough + 1, after, call_more enough (fun fuel => ?_) fun fuel low => (later fuel low).trans ?_⟩
    · rw [readloop, if_neg (Nat.ne_of_gt some_left), read_count answers turn n moves]
      exact if_neg (by omega)
    · by_cases fits : nb ≤ ahead.length
      · rw [if_pos (by omega), if_pos fits, show len + (ahead.take (min (n + 1) nb)).length + (nb - (ahead.take (min (n + 1) nb)).length) = len + nb by omega]
      · rw [if_neg (by omega), if_neg fits,
          show len + (ahead.take (min (n + 1) nb)).length + (ahead.length - min (n + 1) nb) = len + ahead.length by omega]

theorem writeloop_done (fuel turn cptr len : Nat) (behind : List UInt8) (buf : Nat → UInt8) :
    writeloop stop answers (fuel + 1) ⟨behind, turn⟩ buf cptr 0 len = some ((len : Int), ⟨behind, turn⟩) := by
  rw [writeloop, if_pos rfl]

theorem writes_none (turn : Nat) : Writes stop answers turn 0 := fun behind buf cptr len =>
  ⟨0 + 1, turn, call_more 0 (fun fuel => writeloop_done stop answers fuel turn cptr len behind buf) fun fuel _ => by
    rw [Nat.add_zero, Nat.add_zero, slice_empty, List.append_nil]⟩

theorem writes_skip (turn nb : Nat) (interrupted : answers turn = .error .eintr) (ih : Writes stop answers (turn + 1) nb) : Writes stop answers turn nb := by
  rcases Nat.eq_zero_or_pos nb with rfl | some_left
  · exact writes_none stop answers turn
  intro behind buf cptr len
  obtain ⟨enough, after, later⟩ := ih behind buf cptr len
  refine ⟨enough + 1, after, call_more enough (fun fuel => ?_) later⟩
  rw [writeloop, if_neg (Nat.ne_of_gt some_left), write_error answers turn .eintr interrupted]
  rfl

theorem writes_move (turn nb n : Nat) (moves : answers turn = .count n) (ih : ∀ less, less < nb → Writes stop answers (turn + 1) less) :
    Writes stop answers turn nb := by
  rcases Nat.eq_zero_or_pos nb with rfl | some_left
  · exact writes_none stop answers turn
  intro behind buf cptr len
  have length : (slice buf cptr (cptr + min (n + 1) nb)).length = min (n + 1) nb := by rw [slice_length, Nat.add_sub_cancel_left]
  obtain ⟨enough, after, later⟩ := ih (nb - min (n + 1) nb) (by omega) (behind ++ slice buf cptr (cptr + min (n + 1) nb)) buf
    (cptr + min (n + 1) nb) (len + min (n + 1) nb)
  refine ⟨enough + 1, after, call_more enough (fun fuel => ?_) fun fuel low => (later fuel low).trans ?_⟩
  · rw [writeloop, if_neg (Nat.ne_of_gt some_left), write_count answers turn n moves]
    rw [slice_portion, length]
    exact if_neg (by omega)
  · have whole : cptr + min (n + 1) nb + (nb - min (n + 1) nb) = cptr + nb := by omega
    have sum : len + min (n + 1) nb + (nb - min (n + 1) nb) = len + nb := by omega
    have joined := slice_join buf cptr (min (n + 1) nb) (nb - min (n + 1) nb)
    rw [whole] at joined
    rw [whole, sum, List.append_assoc, joined]

variable {answers} (plain : Plain answers) (fair : Fair answers)
include plain fair

theorem readloop_reads (turn nb : Nat) : Reads stop answers turn nb :=
  turns_induct plain fair (reads_skip stop answers) (reads_move stop answers) turn nb

theorem writeloop_writes (turn nb : Nat) : Writes stop answers turn nb :=
  turns_induct plain fair (writes_skip stop answers) (writes_move stop answers) turn nb

end Transfers

end OsZero.Unix

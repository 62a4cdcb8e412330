import OsZero.Unix.Transfer

set_option autoImplicit false

namespace OsZero.Unix

open Cstring Portions Stores

section Rightness

variable (answers : Answers)

-- The next bytes of the stream go to the buffer, each once, and the result is how many
-- there were; -1 where there was none.
def ReadRight (ahead : List UInt8) (mem : Mem UInt8) (nb : Nat) : Prop :=
  ∃ enough after, ∀ fuel, enough ≤ fuel → ∃ res : Int, zread answers fuel ⟨ahead, 0⟩ mem nb = some (res, mem.fill 0 (ahead.take nb), ⟨ahead.drop nb, after⟩) ∧
    (res = (ahead.take nb).length ∨ res = -1 ∧ ahead.take nb = [])

def WriteRight (behind : List UInt8) (buf : Nat → UInt8) (nb : Nat) : Prop :=
  ∃ enough after, ∀ fuel, enough ≤ fuel → zwrite answers fuel ⟨behind, 0⟩ buf nb = some ((nb : Int), ⟨behind ++ slice buf 0 nb, after⟩)

def Holds (buf : Option (Mem UInt8)) (bytes : List UInt8) : Prop :=
  match buf with
  | some buf => buf.Within 0 bytes.length ∧ slice buf.cell 0 bytes.length = bytes
  | none => bytes = []

-- Whatever the allocated memory holds. A file may have become shorter than its size says.
def ReadfileRight (content : List UInt8) (size : Nat) : Prop :=
  ∀ fresh, ∃ enough, ∀ fuel, enough ≤ fuel → ∃ buf sizeret, zreadfile answers (some ⟨size, true⟩) (some ⟨content, 0⟩) (some fresh) fuel = some (buf, sizeret) ∧
    (size ≤ content.length → sizeret = size ∧ Holds buf (content.take size))

def WritefileRight (buf : Nat → UInt8) (nb : Nat) : Prop :=
  ∀ fresh sizeret, ∃ enough, ∀ fuel, enough ≤ fuel → ∃ after, zwritefile answers (some ⟨[], 0⟩) (some fresh) buf nb sizeret fuel =
    some (0, nb, some ⟨slice buf 0 nb, after⟩)

-- The first read that is not interrupted delivers the whole size.
def Delivered (content : List UInt8) (size : Nat) : Prop :=
  size ≤ content.length ∧ ∃ turn n, (∀ i, i < turn → answers i = .error .eintr) ∧ answers turn = .count n ∧ size ≤ n + 1

end Rightness

section Streams

variable {answers : Answers} (plain : Plain answers) (fair : Fair answers)
include plain fair

theorem zread_right (ahead : List UInt8) (mem : Mem UInt8) (nb : Nat) : ReadRight answers ahead mem nb := by
  obtain ⟨enough, after, reads⟩ := readloop_reads (fun _ len => if len = 0 then -1 else len) plain fair 0 nb ahead mem 0 0
  refine ⟨enough, after, fun fuel low => ⟨_, reads fuel low, ?_⟩⟩
  rw [List.length_take]
  by_cases fits : nb ≤ ahead.length
  · rw [if_pos fits]
    exact .inl (congrArg Int.ofNat (by omega))
  · rw [if_neg fits]
    by_cases ended : ahead = []
    · subst ended
      exact .inr ⟨rfl, List.take_nil⟩
    · have some_bytes := List.length_pos_iff.mpr ended
      refine .inl ((if_neg (by omega)).trans (congrArg Int.ofNat ?_))
      omega

theorem zwrite_right (behind : List UInt8) (buf : Nat → UInt8) (nb : Nat) : WriteRight answers behind buf nb := by
  obtain ⟨enough, after, writes⟩ := writeloop_writes (fun _ len => len) plain fair 0 nb behind buf 0 0
  refine ⟨enough, after, fun fuel low => (writes fuel low).trans ?_⟩
  rw [Nat.zero_add]

end Streams

section Readfile

variable {answers : Answers}

theorem readall_interrupted (turn wait fuel nleft : Nat) (some_left : nleft ≠ 0) (ahead : List UInt8) (buf : Mem UInt8)
    (waits : ∀ i, turn ≤ i → i < turn + wait → answers i = .error .eintr) :
    readall answers (fuel + wait) ⟨ahead, turn⟩ buf nleft = readall answers fuel ⟨ahead, turn + wait⟩ buf nleft := by
  refine interrupted_turns answers (fun fuel turn => readall answers fuel ⟨ahead, turn⟩ buf nleft) (fun fuel turn interrupted => ?_) turn wait fuel waits
  rw [readall, if_neg some_left, read_error answers turn .eintr interrupted]
  rfl

variable (plain : Plain answers)
include plain

-- What is left never goes below what the file is too short by.
theorem readall_short (fuel turn nleft : Nat) (ahead : List UInt8) (buf : Mem UInt8) (short : ahead.length < nleft) :
    readall answers fuel ⟨ahead, turn⟩ buf nleft = none := by
  induction fuel generalizing turn nleft ahead buf with
  | zero => rfl
  | succ fuel ih =>
    rw [readall, if_neg (by omega)]
    cases answered : answers turn with
    | count n =>
      rw [read_count answers turn n answered]
      have length := List.length_take (i := min (n + 1) nleft) (l := ahead)
      exact ih (turn + 1) _ _ _ (by rw [List.length_drop]; omega)
    | error errno =>
      obtain rfl := plain turn errno answered
      rw [read_error answers turn .eintr answered]
      exact ih (turn + 1) nleft ahead buf short

-- The places of the buffer behind what is left are not stored into any more.
theorem readall_untouched (fuel turn nleft last : Nat) (ahead : List UInt8) (buf : Mem UInt8) (beyond : nleft ≤ last) (after : Option (Mem UInt8))
    (ran : readall answers fuel ⟨ahead, turn⟩ buf nleft = some after) : ∃ mem, after = some mem ∧ mem.cell last = buf.cell last := by
  induction fuel generalizing turn nleft ahead buf with
  | zero => cases ran
  | succ fuel ih =>
    rw [readall] at ran
    by_cases done : nleft = 0
    · rw [if_pos done] at ran
      exact ⟨buf, (Option.some.inj ran).symm, rfl⟩
    rw [if_neg done] at ran
    cases answered : answers turn with
    | count n =>
      rw [read_count answers turn n answered] at ran
      have length := List.length_take (i := min (n + 1) nleft) (l := ahead)
      obtain ⟨mem, rfl, same⟩ := ih (turn + 1) _ _ _ (by omega) ran
      exact ⟨mem, rfl, same.trans (fill_outside buf 0 last _ (.inr (by omega)))⟩
    | error errno =>
      obtain rfl := plain turn errno answered
      rw [read_error answers turn .eintr answered] at ran
      exact ih (turn + 1) nleft ahead buf beyond ran

omit plain in
theorem zreadfile_readall (content : List UInt8) (size : Nat) (some_size : size ≠ 0) (fresh : Nat → UInt8) (fuel : Nat) :
    zreadfile answers (some ⟨size, true⟩) (some ⟨content, 0⟩) (some fresh) fuel =
      (readall answers fuel ⟨content, 0⟩ ⟨fresh, []⟩ size).map fun after => (after, if after.isSome then size else 0) := by
  simp only [zreadfile, if_true, if_neg some_size]
  rcases readall answers fuel ⟨content, 0⟩ ⟨fresh, []⟩ size with _ | _ | buf <;> rfl

-- The file is read at its start, from the first call on that is not interrupted.
theorem readfile_delivered (fair : Fair answers) (content : List UInt8) (size : Nat) (some_size : size ≠ 0) (right : ReadfileRight answers content size) :
    Delivered answers content size := by
  -- Memory that differs from the file everywhere.
  obtain ⟨enough, right⟩ := right fun i => if content.getD i 0 = 0 then 1 else 0
  obtain ⟨turn, n, -, moves, waits⟩ := first_count plain fair 0
  obtain ⟨buf, sizeret, ran, holds⟩ := right (enough + 1 + turn) (by omega)
  rw [zreadfile_readall content size some_size] at ran
  by_cases fits : size ≤ content.length
  · refine ⟨fits, turn, n, fun i before => waits i (Nat.zero_le i) before, moves, ?_⟩
    by_contra part
    rw [readall_interrupted 0 turn (enough + 1) size some_size content _ (fun i low high => waits i low (by omega)), Nat.zero_add, readall,
      if_neg some_size, read_count answers turn n moves] at ran
    obtain ⟨after, read, same⟩ := Option.map_eq_some_iff.mp ran
    have length := List.length_take (i := min (n + 1) size) (l := content)
    obtain ⟨mem, rfl, kept⟩ := readall_untouched plain enough (turn + 1) _ (size - 1) _ _ (by omega) after read
    obtain rfl : some mem = buf := congrArg Prod.fst same
    rw [fill_outside _ 0 (size - 1) _ (.inr (by omega))] at kept
    have last : (slice mem.cell 0 (content.take size).length)[size - 1]? = some (content.getD (size - 1) 0) := by
      rw [(holds fits).2.2, List.getElem?_take_of_lt (by omega), List.getElem?_eq_getElem (by omega), List.getD_eq_getElem?_getD,
        List.getElem?_eq_getElem (by omega), Option.getD_some]
    have read_last := slice_get mem.cell 0 _ (size - 1) _ last
    rw [Nat.zero_add, kept] at read_last
    dsimp only at read_last
    split_ifs at read_last with zero
    · exact absurd (read_last.trans zero) (by decide)
    · exact zero read_last.symm
  · rw [readall_short plain _ 0 size content _ (by omega)] at ran
    cases ran

omit plain in
theorem slice_fill (mem : Mem UInt8) (str : Nat) (values : List UInt8) : slice (mem.fill str values).cell str (str + values.length) = values := by
  apply List.ext_getElem?
  intro i
  by_cases inside : i < values.length
  · have get := List.getElem?_eq_getElem inside
    have index : i < (slice (mem.fill str values).cell str (str + values.length)).length := by
      rw [slice_length]
      omega
    have cell := fill_inside mem str i values _ get
    rw [slice_get _ _ _ i _ (List.getElem?_eq_getElem index)] at cell
    rw [get, List.getElem?_eq_getElem index, cell]
  · have outside : values.length ≤ i := Nat.le_of_not_lt inside
    rw [List.getElem?_eq_none outside, List.getElem?_eq_none (by rw [slice_length]; omega)]

omit plain in
theorem fill_holds (fresh : Nat → UInt8) (values : List UInt8) : Holds (some ((⟨fresh, []⟩ : Mem UInt8).fill 0 values)) values := by
  constructor
  · intro i stored
    rw [fill_stored, List.nil_append, List.mem_range'_1] at stored
    omega
  · have filled := slice_fill ⟨fresh, []⟩ 0 values
    rwa [Nat.zero_add] at filled

omit plain in
theorem readfile_empty (content : List UInt8) : ReadfileRight answers content 0 := fun _ =>
  ⟨0, fun _ _ => ⟨none, 0, rfl, fun _ => ⟨rfl, rfl⟩⟩⟩

omit plain in
theorem delivered_readfile (content : List UInt8) (size : Nat) (some_size : size ≠ 0) (delivered : Delivered answers content size) :
    ReadfileRight answers content size := by
  obtain ⟨fits, turn, n, waits, moves, whole⟩ := delivered
  refine fun fresh => ⟨1 + 1 + turn, fun fuel enough => ⟨some ((⟨fresh, []⟩ : Mem UInt8).fill 0 (content.take size)), size, ?_, fun _ => ⟨rfl, fill_holds _ _⟩⟩⟩
  obtain ⟨fuel, rfl⟩ := Nat.exists_eq_add_of_le' enough
  rw [zreadfile_readall content size some_size, ← Nat.add_assoc, ← Nat.add_assoc,
    readall_interrupted 0 turn (fuel + 1 + 1) size some_size content _ (fun i _ high => waits i (by omega)), Nat.zero_add, readall, if_neg some_size,
    read_count answers turn n moves, Nat.min_eq_right whole]
  dsimp only
  rw [if_pos rfl, List.length_take_of_le fits, Nat.sub_self, readall, if_pos rfl]
  rfl

end Readfile

section Writefile

variable {answers : Answers} (plain : Plain answers)
include plain

theorem writeall_extends (fuel turn nleft : Nat) (behind : List UInt8) (buf : Nat → UInt8) (done : Bool) (fd : Sink UInt8)
    (ran : writeall answers fuel ⟨behind, turn⟩ buf nleft = some (done, fd)) : ∃ rest, fd.behind = behind ++ rest := by
  induction fuel generalizing turn nleft behind with
  | zero => cases ran
  | succ fuel ih =>
    rw [writeall] at ran
    by_cases last : nleft = 0
    · rw [if_pos last] at ran
      obtain ⟨-, rfl⟩ := Prod.mk.inj (Option.some.inj ran)
      exact ⟨[], (List.append_nil _).symm⟩
    rw [if_neg last] at ran
    cases answered : answers turn with
    | count n =>
      rw [write_count answers turn n answered] at ran
      obtain ⟨rest, whole⟩ := ih (turn + 1) _ _ ran
      exact ⟨_, whole.trans (List.append_assoc ..)⟩
    | error errno =>
      obtain rfl := plain turn errno answered
      rw [write_error answers turn .eintr answered] at ran
      exact ih (turn + 1) nleft behind ran

-- The first byte written is the first one of the buffer.
theorem writeall_first (fuel turn nleft : Nat) (some_left : nleft ≠ 0) (buf : Nat → UInt8) (done : Bool) (fd : Sink UInt8)
    (ran : writeall answers fuel ⟨[], turn⟩ buf nleft = some (done, fd)) : ∃ rest, fd.behind = buf 0 :: rest := by
  induction fuel generalizing turn with
  | zero => cases ran
  | succ fuel ih =>
    rw [writeall, if_neg some_left] at ran
    cases answered : answers turn with
    | count n =>
      rw [write_count answers turn n answered, slice_cons buf 0 nleft (by omega)] at ran
      obtain ⟨rest, whole⟩ := writeall_extends plain fuel (turn + 1) _ _ buf done fd ran
      exact ⟨_, whole⟩
    | error errno =>
      obtain rfl := plain turn errno answered
      rw [write_error answers turn .eintr answered] at ran
      exact ih (turn + 1) ran

-- The bytes are those of the memory allocated.
theorem writefile_right_iff (buf : Nat → UInt8) (nb : Nat) : WritefileRight answers buf nb ↔ nb = 0 := by
  constructor
  · intro right
    by_contra some_bytes
    obtain ⟨enough, right⟩ := right (fun i => if buf i = 0 then 1 else 0) 0
    obtain ⟨after, ran⟩ := right enough (Nat.le_refl enough)
    simp only [zwritefile, if_neg some_bytes] at ran
    cases written : writeall answers enough ⟨[], 0⟩ (fun i => if buf i = 0 then 1 else 0) nb with
    | none =>
      rw [written] at ran
      cases ran
    | some result =>
      obtain ⟨done, fd⟩ := result
      obtain ⟨rest, first⟩ := writeall_first plain enough 0 nb some_bytes _ done fd written
      have same : fd = ⟨slice buf 0 nb, after⟩ := by
        rw [written] at ran
        cases done with
        | false => cases ran
        | true => exact Option.some.inj (congrArg (fun result => result.2.2) (Option.some.inj ran))
      rw [same, slice_cons buf 0 nb (by omega)] at first
      have head := (List.cons.inj first).1
      split_ifs at head with zero
      · exact absurd (zero.symm.trans head) (by decide)
      · exact zero head
  · rintro rfl
    exact fun fresh sizeret => ⟨0, fun fuel _ => ⟨0, rfl⟩⟩

end Writefile

section Whole

variable (answers : Answers) (plain : Plain answers) (fair : Fair answers)
include plain fair

theorem readfile_right_iff (content : List UInt8) (size : Nat) : ReadfileRight answers content size ↔ size = 0 ∨ Delivered answers content size := by
  by_cases empty : size = 0
  · subst empty
    exact iff_of_true (readfile_empty content) (.inl rfl)
  · rw [or_iff_right empty]
    exact ⟨readfile_delivered plain fair content size empty, delivered_readfile content size empty⟩

theorem transfers_right_iff (ahead behind content : List UInt8) (mem : Mem UInt8) (buf file : Nat → UInt8) (readnb writenb filenb size : Nat) :
    ReadRight answers ahead mem readnb ∧ WriteRight answers behind buf writenb ∧
      (ReadfileRight answers content size ↔ size = 0 ∨ Delivered answers content size) ∧ (WritefileRight answers file filenb ↔ filenb = 0) :=
  ⟨zread_right plain fair ahead mem readnb, zwrite_right plain fair behind buf writenb, readfile_right_iff answers plain fair content size,
    writefile_right_iff plain file filenb⟩

end Whole

-- Two bytes a read and an interruption before each of them.
def haltingly : Answers := fun turn => if turn % 2 = 0 then .error .eintr else .count 1

theorem transfers_right_iff_halting :
    ReadRight haltingly [1, 2, 3, 4, 5] ⟨fun _ => 0, []⟩ 4 ∧ WriteRight haltingly [9] (fun place => place.toUInt8) 3 ∧ ReadfileRight haltingly [97, 98] 2 ∧
      ¬WritefileRight haltingly (fun _ => 7) 1 := by
  have plain : Plain haltingly := fun turn errno fails => by
    unfold haltingly at fails
    split_ifs at fails
    exact (Answer.error.inj fails).symm
  have fair : Fair haltingly := fun turn => by
    refine ⟨2 * turn + 1, by omega, fun interrupted => ?_⟩
    unfold haltingly at interrupted
    rw [if_neg (by omega)] at interrupted
    cases interrupted
  obtain ⟨reads, writes, readfile, writefile⟩ := transfers_right_iff haltingly plain fair [1, 2, 3, 4, 5] [9] [97, 98] ⟨fun _ => 0, []⟩
    (fun place => place.toUInt8) (fun _ => 7) 4 3 1 2
  have delivered : Delivered haltingly [97, 98] 2 := ⟨by decide, 1, 1, fun i before => by
    rw [Nat.lt_one_iff.mp before]
    rfl, rfl, by decide⟩
  exact ⟨reads, writes, readfile.mpr (.inr delivered), fun right => absurd (writefile.mp right) (by decide)⟩

-- One byte at a time.
theorem zreadfile_short_reads : ¬ReadfileRight (fun _ => .count 0) [97, 98] 2 := fun right => by
  have delivered := (readfile_right_iff (fun _ => .count 0) (fun turn errno fails => by cases fails) (fun turn => ⟨turn, Nat.le_refl turn, nofun⟩)
    [97, 98] 2).mp right
  obtain ⟨-, turn, n, -, moves, whole⟩ := delivered.resolve_left (by decide)
  obtain rfl : 0 = n := Answer.count.inj moves
  exact absurd whole (by decide)

end OsZero.Unix

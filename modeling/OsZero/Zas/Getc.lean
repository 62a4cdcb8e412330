import Mathlib.Logic.Relation
import OsZero.Lib.Portions
import OsZero.Lib.Stores

set_option autoImplicit false

namespace OsZero.Zas.Getc

open Portions Stores

def ZASBUFSIZE : Nat := 131072

def EOF : Int := -1

-- cur and lim are offsets from data.
structure Readbuf where
  data : Mem UInt8
  cur : Nat
  lim : Nat

-- base stands for the address of zasreadbuftab.
structure Io where
  zasnreadbuf : Nat
  base : Nat
  tab : Nat → Readbuf
  fds : Nat → Source UInt8

-- Every read is asked for a whole buffer. The result says first whether no read failed.
def refill (answers : Answers) : Nat → Source UInt8 → Mem UInt8 → Int → Option (Bool × Mem UInt8 × Int × Source UInt8)
  | 0, _, _, _ => none
  | fuel + 1, fd, data, nleft =>
      if nleft = 0 then some (true, data, nleft, fd)
      else
        let (errno, portion, fd) := fd.read answers ZASBUFSIZE
        if errno = .eintr then refill answers fuel fd data nleft
        else if errno ≠ .zero then some (false, data, nleft, fd)
        else if portion.length = 0 then some (true, data, nleft, fd)
        else refill answers fuel fd (data.fill 0 portion) (nleft - portion.length)

-- The pointer into the table is made before the table grows; after realloc has moved the
-- table, it is not one into the table any more. The buffers behind the old ones are there
-- and empty.
def zasgetc (moved : Bool) (answers : Nat → Answers) (fuel fd bufid : Nat) (io : Io) : Option (Int × Io) :=
  let buf := (io.base, bufid)
  let io :=
    if io.zasnreadbuf ≤ bufid then { io with zasnreadbuf := io.zasnreadbuf <<< 1, base := if moved then io.base + 1 else io.base } else io
  if buf.1 = io.base ∧ buf.2 < io.zasnreadbuf then
    let ⟨data, cur, lim⟩ := io.tab buf.2
    if cur < lim then
      if cur < ZASBUFSIZE then some ((data.cell cur).toNat, { io with tab := Function.update io.tab buf.2 ⟨data, cur + 1, lim⟩ }) else none
    else if cur = lim then do
      let (read, data, nleft, source) ← refill (answers fd) fuel (io.fds fd) data ZASBUFSIZE
      let fds := Function.update io.fds fd source
      if read = false ∨ nleft = ZASBUFSIZE then some (EOF, { io with tab := Function.update io.tab buf.2 ⟨data, cur, lim⟩, fds })
      else some ((data.cell 0).toNat, { io with tab := Function.update io.tab buf.2 ⟨data, 1, (ZASBUFSIZE - nleft).toNat⟩, fds })
    else some (EOF, io)
  else none

-- Calls for several open files, each of which has one number for its descriptor and its buffer.
def getcs (moved : Bool) (answers : Nat → Answers) (fuel : Nat) : List Nat → Io → Option (List Int)
  | [], _ => some []
  | file :: calls, io => do
      let (ch, io) ← zasgetc moved answers fuel file file io
      let chs ← getcs moved answers fuel calls io
      some (ch :: chs)

def start (fresh : Nat → Nat → UInt8) (contents : Nat → List UInt8) : Io :=
  ⟨16, 0, fun l => ⟨⟨fresh l, []⟩, 0, 0⟩, fun fd => ⟨contents fd, 0⟩⟩

-- The bytes of a file, and EOF behind them.
def byteAt (content : List UInt8) (k : Nat) : Int :=
  match content[k]? with
  | some c => c.toNat
  | none => EOF

def expected (contents : Nat → List UInt8) : List Nat → (Nat → Nat) → List Int
  | [], _ => []
  | file :: calls, pos => byteAt (contents file) (pos file) :: expected contents calls (Function.update pos file (pos file + 1))

-- The calls give the bytes of their files, for all files of these sizes and whatever the
-- allocator does.
def Right (answers : Nat → Answers) (sizes : Nat → Nat) (calls : List Nat) : Prop :=
  ∀ contents : Nat → List UInt8, (∀ file, (contents file).length = sizes file) → ∀ fresh moved,
    ∃ enough, ∀ fuel, enough ≤ fuel → getcs moved answers fuel calls (start fresh contents) = some (expected contents calls fun _ => 0)

-- The first read from a turn on that is not interrupted is that of a later turn.
def Next (answers : Answers) (turn later n : Nat) : Prop :=
  turn ≤ later ∧ answers later = .count n ∧ ∀ i, turn ≤ i → i < later → answers i = .error .eintr

-- A buffer filled by one read, at an offset of the file and a turn.
def Full (answers : Answers) (before after : Nat × Nat) : Prop :=
  ∃ later n, Next answers before.2 later n ∧ ZASBUFSIZE ≤ n + 1 ∧ after = (before.1 + ZASBUFSIZE, later + 1)

-- The buffer is filled again at an offset, where every read so far filled it.
def Refills (answers : Answers) (offset turn : Nat) : Prop := Relation.ReflTransGen (Full answers) (0, 0) (offset, turn)

-- There are as many buffers as there are open files, and wherever a buffer is filled
-- again, one read delivers the rest of the file or as much as the buffer holds.
def Whole (answers : Nat → Answers) (sizes : Nat → Nat) (calls : List Nat) : Prop :=
  (∀ file ∈ calls, file < 16) ∧
    ∀ file offset turn later n, Refills (answers file) offset turn → offset < sizes file → offset < calls.count file →
      Next (answers file) turn later n → min ZASBUFSIZE (sizes file - offset) ≤ n + 1

section Refill

variable {answers : Answers}

theorem refill_interrupted (turn wait fuel : Nat) (ahead : List UInt8) (data : Mem UInt8) (nleft : Int) (some_left : nleft ≠ 0)
    (waits : ∀ i, turn ≤ i → i < turn + wait → answers i = .error .eintr) :
    refill answers (fuel + wait) ⟨ahead, turn⟩ data nleft = refill answers fuel ⟨ahead, turn + wait⟩ data nleft := by
  refine interrupted_turns answers (fun fuel turn => refill answers fuel ⟨ahead, turn⟩ data nleft) (fun fuel turn interrupted => ?_) turn wait fuel waits
  rw [refill, if_neg some_left, read_error answers turn .eintr interrupted]
  rfl

-- The first read that is not interrupted.
theorem refill_next (turn later n fuel : Nat) (next : Next answers turn later n) (ahead : List UInt8) (data : Mem UInt8) (nleft : Int) (some_left : nleft ≠ 0)
    (enough : later < turn + fuel) : ∃ less, less < fuel ∧ fuel ≤ less + 1 + later ∧ refill answers fuel ⟨ahead, turn⟩ data nleft =
      if (ahead.take (min (n + 1) ZASBUFSIZE)).length = 0 then some (true, data, nleft, ⟨ahead.drop (min (n + 1) ZASBUFSIZE), later + 1⟩)
      else refill answers less ⟨ahead.drop (min (n + 1) ZASBUFSIZE), later + 1⟩ (data.fill 0 (ahead.take (min (n + 1) ZASBUFSIZE)))
        (nleft - (ahead.take (min (n + 1) ZASBUFSIZE)).length) := by
  obtain ⟨low, moves, waits⟩ := next
  obtain ⟨wait, rfl⟩ := Nat.exists_eq_add_of_le low
  obtain ⟨less, rfl⟩ : ∃ less, fuel = less + 1 + wait := ⟨fuel - 1 - wait, by omega⟩
  refine ⟨less, by omega, by omega, ?_⟩
  rw [refill_interrupted turn wait (less + 1) ahead data nleft some_left waits, refill, if_neg some_left, read_count answers (turn + wait) n moves]
  rfl

theorem refill_ended (plain : Plain answers) (fair : Fair answers) (turn : Nat) (data : Mem UInt8) (nleft : Int) (some_left : nleft ≠ 0) :
    ∃ enough after, ∀ fuel, enough ≤ fuel → refill answers fuel ⟨[], turn⟩ data nleft = some (true, data, nleft, ⟨[], after⟩) := by
  obtain ⟨later, n, next⟩ := first_count plain fair turn
  refine ⟨later + 1, later + 1, fun fuel enough => ?_⟩
  obtain ⟨less, -, -, read⟩ := refill_next turn later n fuel next [] data nleft some_left (by omega)
  rw [read, List.take_nil, List.drop_nil]
  rfl

-- One read that delivers the rest of the stream, or as much as the buffer holds.
theorem refill_whole (plain : Plain answers) (fair : Fair answers) (turn later n : Nat) (next : Next answers turn later n) (ahead : List UInt8)
    (data : Mem UInt8) (more : ahead ≠ []) (whole : min ZASBUFSIZE ahead.length ≤ n + 1) : ∃ enough after, (ZASBUFSIZE ≤ ahead.length → after = later + 1) ∧
      ∀ fuel, enough ≤ fuel → refill answers fuel ⟨ahead, turn⟩ data ZASBUFSIZE =
        some (true, data.fill 0 (ahead.take ZASBUFSIZE), (ZASBUFSIZE : Int) - (min ZASBUFSIZE ahead.length : Nat), ⟨ahead.drop ZASBUFSIZE, after⟩) := by
  have some_bytes := List.length_pos_iff.mpr more
  have size : ZASBUFSIZE = 131072 := rfl
  have portion : ahead.take (min (n + 1) ZASBUFSIZE) = ahead.take ZASBUFSIZE := by
    rw [List.take_eq_take_iff]
    omega
  have rest : ahead.drop (min (n + 1) ZASBUFSIZE) = ahead.drop ZASBUFSIZE := by
    rcases Nat.lt_or_ge (n + 1) ZASBUFSIZE with short | fills
    · rw [List.drop_of_length_le (by omega), List.drop_of_length_le (by omega)]
    · rw [Nat.min_eq_right fills]
  have length := List.length_take (i := ZASBUFSIZE) (l := ahead)
  by_cases full : ZASBUFSIZE ≤ ahead.length
  · refine ⟨later + 2, later + 1, fun _ => rfl, fun fuel enough => ?_⟩
    obtain ⟨less, -, least, read⟩ := refill_next turn later n fuel next ahead data ZASBUFSIZE (by omega) (by omega)
    obtain ⟨less, rfl⟩ : ∃ rest, less = rest + 1 := ⟨less - 1, by omega⟩
    rw [read, portion, rest, if_neg (by omega), refill, if_pos (by omega), length]
  · have ended : ahead.drop ZASBUFSIZE = [] := List.drop_of_length_le (by omega)
    obtain ⟨enough, after, ends⟩ := refill_ended plain fair (later + 1) (data.fill 0 (ahead.take ZASBUFSIZE))
      ((ZASBUFSIZE : Int) - (min ZASBUFSIZE ahead.length : Nat)) (by omega)
    refine ⟨enough + 1 + later, after, fun fits => absurd fits full, fun fuel low => ?_⟩
    obtain ⟨less, -, least, read⟩ := refill_next turn later n fuel next ahead data ZASBUFSIZE (by omega) (by omega)
    rw [read, portion, rest, if_neg (by omega), ended, length]
    exact ends less (by omega)

-- More fuel leads to the same end.
theorem refill_more (fuel extra : Nat) (fd : Source UInt8) (data : Mem UInt8) (nleft : Int) (result : Bool × Mem UInt8 × Int × Source UInt8)
    (ran : refill answers fuel fd data nleft = some result) : refill answers (fuel + extra) fd data nleft = some result := by
  induction fuel generalizing fd data nleft with
  | zero => cases ran
  | succ fuel ih =>
    rw [Nat.add_right_comm]
    simp only [refill] at ran ⊢
    split_ifs at ran ⊢
    · exact ran
    · exact ih _ _ _ ran
    · exact ran
    · exact ran
    · exact ih _ _ _ ran

-- The first byte of the buffer is replaced at each read.
theorem refill_first (plain : Plain answers) (fuel turn : Nat) (ahead : List UInt8) (data : Mem UInt8) (nleft : Int) (read : Bool) (after : Mem UInt8)
    (left : Int) (fd : Source UInt8) (ran : refill answers fuel ⟨ahead, turn⟩ data nleft = some (read, after, left, fd)) :
    read = true ∧ left ≤ nleft ∧ (after.cell 0 = data.cell 0 ∨ after.cell 0 ∈ ahead) ∧ (nleft ≠ 0 → ahead ≠ [] → after.cell 0 ∈ ahead) := by
  induction fuel generalizing turn ahead data nleft with
  | zero => cases ran
  | succ fuel ih =>
    rw [refill] at ran
    by_cases done : nleft = 0
    · rw [if_pos done] at ran
      obtain ⟨rfl, rfl, rfl, rfl⟩ : true = read ∧ data = after ∧ nleft = left ∧ _ = fd := by simpa using ran
      exact ⟨rfl, Int.le_refl _, .inl rfl, fun other => absurd done other⟩
    rw [if_neg done] at ran
    cases answered : answers turn with
    | count n =>
      rw [read_count answers turn n answered] at ran
      have size : ZASBUFSIZE = 131072 := rfl
      cases ahead with
      | nil =>
        obtain ⟨rfl, rfl, rfl, rfl⟩ : true = read ∧ data = after ∧ nleft = left ∧ _ = fd := by simpa using ran
        exact ⟨rfl, Int.le_refl _, .inl rfl, fun _ more => absurd rfl more⟩
      | cons first ahead =>
        obtain ⟨k, asked⟩ : ∃ k, min (n + 1) ZASBUFSIZE = k + 1 := ⟨min (n + 1) ZASBUFSIZE - 1, by omega⟩
        rw [asked, List.take_succ_cons, List.drop_succ_cons] at ran
        obtain ⟨done', less, cell, -⟩ := ih (turn + 1) _ _ _ ran
        have here : (data.fill 0 (first :: ahead.take k)).cell 0 = first := fill_inside data 0 0 _ first rfl
        have member : after.cell 0 ∈ first :: ahead := by
          rcases cell with same | later
          · rw [same, here]
            exact List.mem_cons_self
          · exact List.mem_cons_of_mem _ (List.mem_of_mem_drop later)
        exact ⟨done', by omega, .inr member, fun _ _ => member⟩
    | error errno =>
      obtain rfl := plain turn errno answered
      rw [read_error answers turn .eintr answered] at ran
      exact ih (turn + 1) ahead data nleft ran

end Refill

section Steps

variable (moved : Bool) (answers : Nat → Answers) (file : Nat) (io : Io) (room : file < io.zasnreadbuf)
include room

theorem zasgetc_buffered (fuel cur lim : Nat) (data : Mem UInt8) (buf : io.tab file = ⟨data, cur, lim⟩) (before : cur < lim) (inside : cur < ZASBUFSIZE) :
    zasgetc moved answers fuel file file io =
      some (((data.cell cur).toNat : Int), { io with tab := Function.update io.tab file ⟨data, cur + 1, lim⟩ }) := by
  simp only [zasgetc, if_neg (Nat.not_le_of_gt room), room, and_self, if_true, buf, if_pos before, if_pos inside]

theorem zasgetc_refilled (fuel cur : Nat) (data after : Mem UInt8) (left : Int) (fd : Source UInt8) (buf : io.tab file = ⟨data, cur, cur⟩)
    (ran : refill (answers file) fuel (io.fds file) data ZASBUFSIZE = some (true, after, left, fd)) :
    zasgetc moved answers fuel file file io =
      if left = ZASBUFSIZE then some (EOF, { io with tab := Function.update io.tab file ⟨after, cur, cur⟩, fds := Function.update io.fds file fd })
      else some (((after.cell 0).toNat : Int),
        { io with tab := Function.update io.tab file ⟨after, 1, (ZASBUFSIZE - left).toNat⟩, fds := Function.update io.fds file fd }) := by
  simp only [zasgetc, if_neg (Nat.not_le_of_gt room), room, and_self, if_true, buf, if_neg (Nat.lt_irrefl cur), ran,
    Option.bind_eq_bind, Option.bind_some, Bool.true_eq_false, false_or]

theorem zasgetc_more (fuel extra : Nat) (result : Int × Io) (ran : zasgetc moved answers fuel file file io = some result) :
    zasgetc moved answers (fuel + extra) file file io = some result := by
  simp only [zasgetc, if_neg (Nat.not_le_of_gt room), room, and_self, if_true] at ran ⊢
  split_ifs at ran ⊢ with before inside same
  · exact ran
  · rw [Option.bind_eq_bind, Option.bind_eq_some_iff] at ran
    obtain ⟨refilled, read, rest⟩ := ran
    rw [refill_more fuel extra _ _ _ refilled read]
    exact rest
  · exact ran

-- The other files are left alone.
theorem zasgetc_frame (fuel : Nat) (ch : Int) (after : Io) (ran : zasgetc moved answers fuel file file io = some (ch, after)) :
    after.zasnreadbuf = io.zasnreadbuf ∧ ∀ other, other ≠ file → after.tab other = io.tab other ∧ after.fds other = io.fds other := by
  simp only [zasgetc, if_neg (Nat.not_le_of_gt room), room, and_self, if_true] at ran
  split_ifs at ran with before inside same
  · obtain ⟨-, rfl⟩ := Prod.mk.inj (Option.some.inj ran)
    exact ⟨rfl, fun other different => ⟨Function.update_of_ne different _ _, rfl⟩⟩
  · rw [Option.bind_eq_bind, Option.bind_eq_some_iff] at ran
    obtain ⟨⟨read, data, left, fd⟩, -, rest⟩ := ran
    dsimp only at rest
    split_ifs at rest
    all_goals
      obtain ⟨-, rfl⟩ := Prod.mk.inj (Option.some.inj rest)
      exact ⟨rfl, fun other different => ⟨Function.update_of_ne different _ _, Function.update_of_ne different _ _⟩⟩
  · obtain ⟨-, rfl⟩ := Prod.mk.inj (Option.some.inj ran)
    exact ⟨rfl, fun _ _ => ⟨rfl, rfl⟩⟩

end Steps

-- The offset of the next refill, when pos bytes of the file were given.
def offset (io : Io) (file pos : Nat) : Nat := pos + ((io.tab file).lim - (io.tab file).cur)

-- What the buffer of a file holds in front of lim is what comes next in the file, and the
-- descriptor stands behind it.
structure Buffered (content : List UInt8) (io : Io) (file pos : Nat) : Prop where
  ordered : (io.tab file).cur ≤ (io.tab file).lim
  within : (io.tab file).lim ≤ ZASBUFSIZE
  cells : ∀ k, (io.tab file).cur + k < (io.tab file).lim → content[pos + k]? = some ((io.tab file).data.cell ((io.tab file).cur + k))
  ahead : (io.fds file).ahead = content.drop (offset io file pos)

theorem offset_eq (io : Io) (file pos cur lim : Nat) (data : Mem UInt8) (buf : io.tab file = ⟨data, cur, lim⟩) : offset io file pos = pos + (lim - cur) := by
  rw [offset, buf]

theorem buffered_of (content : List UInt8) (io : Io) (file pos cur lim : Nat) (data : Mem UInt8) (buf : io.tab file = ⟨data, cur, lim⟩) (ordered : cur ≤ lim)
    (within : lim ≤ ZASBUFSIZE) (cells : ∀ k, cur + k < lim → content[pos + k]? = some (data.cell (cur + k)))
    (ahead : (io.fds file).ahead = content.drop (pos + (lim - cur))) : Buffered content io file pos := by
  refine ⟨?_, ?_, ?_, ahead.trans (by rw [offset_eq io file pos cur lim data buf])⟩
  all_goals rwa [buf]

theorem start_buffered (fresh : Nat → Nat → UInt8) (contents : Nat → List UInt8) (file : Nat) : Buffered (contents file) (start fresh contents) file 0 :=
  ⟨Nat.le_refl 0, Nat.zero_le _, fun _ below => absurd below (Nat.not_lt_zero _), rfl⟩

theorem byteAt_some (content : List UInt8) (k : Nat) (c : UInt8) (get : content[k]? = some c) : byteAt content k = (c.toNat : Int) := by
  rw [byteAt, get]

theorem byteAt_none (content : List UInt8) (k : Nat) (ended : content.length ≤ k) : byteAt content k = EOF := by
  rw [byteAt, List.getElem?_eq_none ended]

section Step

variable (moved : Bool) (answers : Nat → Answers) (file : Nat) (io : Io) (room : file < io.zasnreadbuf) (content : List UInt8) (pos : Nat)

-- What one call does to where the next refill is: nothing, or the buffer was filled by one
-- read, or the end of the file was reached.
def Moves (after : Io) : Prop :=
  (offset after file (pos + 1) = offset io file pos ∧ (after.fds file).turn = (io.fds file).turn) ∨
    (offset io file pos = pos ∧ pos + ZASBUFSIZE ≤ content.length ∧
      Full (answers file) (pos, (io.fds file).turn) (offset after file (pos + 1), (after.fds file).turn)) ∨
    (offset io file pos = pos ∧ content.length < pos + ZASBUFSIZE ∧ content.length ≤ offset after file (pos + 1))

-- A call that gives the next byte, whatever it leaves.
def Gives : Prop :=
  ∃ enough after, (∀ fuel, enough ≤ fuel → zasgetc moved answers fuel file file io = some (byteAt content pos, after)) ∧
    Buffered content after file (pos + 1) ∧ Moves answers file io content pos after

variable (data : Mem UInt8) (cur lim : Nat) (buf : io.tab file = ⟨data, cur, lim⟩) (buffered : Buffered content io file pos)
include room buf buffered

theorem gives_buffered (before : cur < lim) : Gives moved answers file io content pos := by
  obtain ⟨-, within, cells, ahead⟩ := buffered
  simp only [offset, buf] at within cells ahead
  have here := cells 0 (by omega)
  have buf' : Function.update io.tab file ⟨data, cur + 1, lim⟩ file = ⟨data, cur + 1, lim⟩ := Function.update_self _ _ _
  have moves : pos + 1 + (lim - (cur + 1)) = pos + (lim - cur) := by omega
  refine ⟨0, { io with tab := Function.update io.tab file ⟨data, cur + 1, lim⟩ }, fun fuel _ => ?_, ?_, .inl ⟨?_, rfl⟩⟩
  · rw [byteAt_some content pos _ here]
    exact zasgetc_buffered moved answers file io room fuel cur lim data buf before (by omega)
  · refine buffered_of content _ file (pos + 1) (cur + 1) lim data buf' before within (fun k below => ?_) (ahead.trans (by rw [moves]))
    have later := cells (1 + k) (by omega)
    rwa [← Nat.add_assoc, ← Nat.add_assoc] at later
  · rw [offset_eq _ file (pos + 1) (cur + 1) lim data buf', offset_eq io file pos cur lim data buf, moves]

variable (plain : Plain (answers file)) (fair : Fair (answers file))
include plain fair

theorem gives_eof (empty : cur = lim) (ended : content.length ≤ pos) : Gives moved answers file io content pos := by
  subst empty
  have here := offset_eq io file pos cur cur data buf
  rw [Nat.sub_self, Nat.add_zero] at here
  have nothing : io.fds file = ⟨[], (io.fds file).turn⟩ := by
    have ahead := buffered.ahead
    rw [here, List.drop_of_length_le ended] at ahead
    rw [← ahead]
  obtain ⟨enough, turn, ends⟩ := refill_ended plain fair (io.fds file).turn data ZASBUFSIZE (by decide)
  have buf' : Function.update io.tab file ⟨data, cur, cur⟩ file = ⟨data, cur, cur⟩ := Function.update_self _ _ _
  have fd' : Function.update io.fds file ⟨[], turn⟩ file = ⟨[], turn⟩ := Function.update_self _ _ _
  refine ⟨enough, { io with tab := Function.update io.tab file ⟨data, cur, cur⟩, fds := Function.update io.fds file ⟨[], turn⟩ }, fun fuel low => ?_, ?_,
    .inr (.inr ⟨here, ?_, ?_⟩)⟩
  · rw [zasgetc_refilled moved answers file io room fuel cur data data ZASBUFSIZE ⟨[], turn⟩ buf (by rw [nothing]; exact ends fuel low), if_pos rfl,
      byteAt_none content pos ended]
  · refine buffered_of content _ file (pos + 1) cur cur data buf' (Nat.le_refl cur) ?_ (fun k below => absurd below (by omega)) ?_
    · have within := buffered.within
      rwa [buf] at within
    · exact (congrArg Source.ahead fd').trans (List.drop_of_length_le (by omega)).symm
  · have size : ZASBUFSIZE = 131072 := rfl
    omega
  · rw [offset_eq _ file (pos + 1) cur cur data buf']
    omega

theorem gives_refilled (empty : cur = lim) (more : pos < content.length)
    (whole : ∀ later n, Next (answers file) (io.fds file).turn later n → min ZASBUFSIZE (content.length - pos) ≤ n + 1) :
    Gives moved answers file io content pos := by
  subst empty
  have size : ZASBUFSIZE = 131072 := rfl
  have here := offset_eq io file pos cur cur data buf
  rw [Nat.sub_self, Nat.add_zero] at here
  have stands : io.fds file = ⟨content.drop pos, (io.fds file).turn⟩ := by
    have ahead := buffered.ahead
    rw [here] at ahead
    rw [← ahead]
  have length := List.length_drop (i := pos) (l := content)
  obtain ⟨later, n, next⟩ := first_count plain fair (io.fds file).turn
  obtain ⟨enough, turn, full, fills⟩ := refill_whole plain fair (io.fds file).turn later n next (content.drop pos) data
    (fun none => by rw [none] at length; exact absurd length (by simp; omega)) (by rw [length]; exact whole later n next)
  rw [length] at full fills
  generalize asked : min ZASBUFSIZE (content.length - pos) = got at fills
  have back : ((ZASBUFSIZE : Int) - ((ZASBUFSIZE : Int) - (got : Int))).toNat = got := by omega
  have cells : ∀ k, k < got → content[pos + k]? = some ((data.fill 0 ((content.drop pos).take ZASBUFSIZE)).cell (0 + k)) := by
    intro k below
    have get := List.getElem?_eq_getElem (show pos + k < content.length by omega)
    have taken : ((content.drop pos).take ZASBUFSIZE)[k]? = some content[pos + k] := by
      rw [List.getElem?_take_of_lt (by omega), List.getElem?_drop, get]
    rw [fill_inside data 0 k _ _ taken, get]
  generalize data.fill 0 ((content.drop pos).take ZASBUFSIZE) = filled at fills cells
  have buf' : Function.update io.tab file ⟨filled, 1, got⟩ file = ⟨filled, 1, got⟩ := Function.update_self _ _ _
  generalize source : (⟨(content.drop pos).drop ZASBUFSIZE, turn⟩ : Source UInt8) = fd at fills
  have fd' : Function.update io.fds file fd file = fd := Function.update_self _ _ _
  refine ⟨enough, { io with tab := Function.update io.tab file ⟨filled, 1, got⟩, fds := Function.update io.fds file fd }, fun fuel low => ?_, ?_, .inr ?_⟩
  · rw [zasgetc_refilled moved answers file io room fuel cur data filled _ fd buf (by rw [stands]; exact fills fuel low), if_neg (by omega), back,
      byteAt_some content pos _ (cells 0 (by omega))]
  · refine buffered_of content _ file (pos + 1) 1 got filled buf' (by omega) (by omega) (fun k below => ?_) ?_
    · have later := cells (1 + k) (by omega)
      rwa [← Nat.add_assoc, Nat.zero_add] at later
    · refine (congrArg Source.ahead fd').trans ?_
      rw [← source, List.drop_drop]
      by_cases fits : ZASBUFSIZE ≤ content.length - pos
      · rw [show pos + ZASBUFSIZE = pos + 1 + (got - 1) by omega]
      · rw [List.drop_of_length_le (by omega), List.drop_of_length_le (by omega)]
  · rw [offset_eq _ file (pos + 1) 1 got filled buf', here]
    by_cases fits : ZASBUFSIZE ≤ content.length - pos
    · have turned : (Function.update io.fds file fd file).turn = later + 1 := by rw [fd', ← source, full fits]
      have most := whole later n next
      exact .inl ⟨rfl, by omega, later, n, next, by omega, Prod.ext (show pos + 1 + (got - 1) = pos + ZASBUFSIZE by omega) turned⟩
    · exact .inr ⟨rfl, by omega, by omega⟩

end Step

end OsZero.Zas.Getc

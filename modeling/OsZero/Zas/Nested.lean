import OsZero.Zas.Getc

set_option autoImplicit false

namespace OsZero.Zas.Getc

open Portions Stores

section Turns

variable {answers : Answers}

theorem next_unique (turn later later' n n' : Nat) (next : Next answers turn later n) (next' : Next answers turn later' n') : later = later' ∧ n = n' := by
  obtain ⟨low, moves, waits⟩ := next
  obtain ⟨low', moves', waits'⟩ := next'
  rcases Nat.lt_trichotomy later later' with less | rfl | less
  · exact absurd (moves.symm.trans (waits' later low less)) nofun
  · exact ⟨rfl, Answer.count.inj (moves.symm.trans moves')⟩
  · exact absurd (moves'.symm.trans (waits later' low' less)) nofun

theorem full_unique (before after other : Nat × Nat) (full : Full answers before after) (full' : Full answers before other) : after = other := by
  obtain ⟨later, n, next, -, rfl⟩ := full
  obtain ⟨later', n', next', -, rfl⟩ := full'
  rw [(next_unique _ _ _ _ _ next next').1]

theorem leads_le (before after : Nat × Nat) (leads : Relation.ReflTransGen (Full answers) before after) : before.1 ≤ after.1 := by
  induction leads with
  | refl => exact Nat.le_refl _
  | tail _ full ih =>
    obtain ⟨later, n, -, -, rfl⟩ := full
    exact Nat.le_trans ih (Nat.le_add_right _ _)

end Turns

section Runs

variable (moved : Bool) (answers : Nat → Answers) (plain : ∀ file, Plain (answers file)) (fair : ∀ file, Fair (answers file))

theorem offset_same (io after : Io) (file pos : Nat) (same : after.tab file = io.tab file) : offset after file pos = offset io file pos := by
  rw [offset, offset, same]

theorem buffered_same (content : List UInt8) (io after : Io) (file pos : Nat) (tab : after.tab file = io.tab file) (fds : after.fds file = io.fds file)
    (buffered : Buffered content io file pos) : Buffered content after file pos := by
  obtain ⟨ordered, within, cells, ahead⟩ := buffered
  refine ⟨?_, ?_, ?_, ?_⟩
  · rwa [tab]
  · rwa [tab]
  · rwa [tab]
  · rwa [fds, offset_same io after file pos tab]

include plain fair

theorem gives_next (file : Nat) (io : Io) (room : file < io.zasnreadbuf) (content : List UInt8) (pos : Nat) (buffered : Buffered content io file pos)
    (whole : offset io file pos = pos → pos < content.length → ∀ later n, Next (answers file) (io.fds file).turn later n →
      min ZASBUFSIZE (content.length - pos) ≤ n + 1) : Gives moved answers file io content pos := by
  cases buf : io.tab file with
  | mk data cur lim =>
    have ordered := buffered.ordered
    rw [buf] at ordered
    rcases Nat.lt_or_eq_of_le ordered with before | empty
    · exact gives_buffered moved answers file io room content pos data cur lim buf buffered before
    · have here : offset io file pos = pos := by
        rw [offset_eq io file pos cur lim data buf]
        exact Nat.add_eq_left.mpr (Nat.sub_eq_zero_of_le (Nat.le_of_eq empty.symm))
      rcases Nat.lt_or_ge pos content.length with more | ended
      · exact gives_refilled moved answers file io room content pos data cur lim buf buffered (plain file) (fair file) empty more (whole here more)
      · exact gives_eof moved answers file io room content pos data cur lim buf buffered (plain file) (fair file) empty ended

-- Every file is read on from where it stands, whatever the calls for the others do.
theorem getcs_expected (contents : Nat → List UInt8) (calls : List Nat) (io : Io) (pos : Nat → Nat) (rooms : ∀ file ∈ calls, file < io.zasnreadbuf)
    (buffered : ∀ file, Buffered (contents file) io file (pos file))
    (refills : ∀ file, offset io file (pos file) < (contents file).length → Refills (answers file) (offset io file (pos file)) (io.fds file).turn)
    (whole : ∀ file offset turn later n, Refills (answers file) offset turn → offset < (contents file).length → offset < pos file + calls.count file →
      Next (answers file) turn later n → min ZASBUFSIZE ((contents file).length - offset) ≤ n + 1) :
    ∃ enough, ∀ fuel, enough ≤ fuel → getcs moved answers fuel calls io = some (expected contents calls pos) := by
  induction calls generalizing io pos with
  | nil => exact ⟨0, fun _ _ => rfl⟩
  | cons file calls ih =>
    have room := rooms file List.mem_cons_self
    obtain ⟨enough, after, gives, buffered', moves⟩ := gives_next moved answers plain fair file io room (contents file) (pos file) (buffered file)
      fun here more later n => whole file (pos file) _ later n (by simpa only [here] using refills file (by rwa [here])) more
        (by rw [List.count_cons_self]; omega)
    obtain ⟨kept, others⟩ := zasgetc_frame moved answers file io room enough _ after (gives enough (Nat.le_refl enough))
    have self : Function.update pos file (pos file + 1) file = pos file + 1 := Function.update_self _ _ _
    have apart : ∀ other, other ≠ file → Function.update pos file (pos file + 1) other = pos other := fun other different =>
      Function.update_of_ne different _ _
    obtain ⟨enough', rest⟩ := ih after (Function.update pos file (pos file + 1)) (fun other member => by rw [kept]; exact rooms other (List.mem_cons_of_mem _ member))
      (fun other => by
        by_cases same : other = file
        · rw [same, self]
          exact buffered'
        · rw [apart other same]
          exact buffered_same _ io after other _ (others other same).1 (others other same).2 (buffered other))
      (fun other => by
        by_cases same : other = file
        · rw [same, self]
          intro inside
          rcases moves with ⟨stays, turn⟩ | ⟨here, fits, full⟩ | ⟨here, -, ended⟩
          · rw [stays] at inside ⊢
            rw [turn]
            exact refills file inside
          · have size : ZASBUFSIZE = 131072 := rfl
            have refilled := refills file (by omega)
            rw [here] at refilled
            exact refilled.tail full
          · omega
        · rw [apart other same, offset_same io after other _ (others other same).1, (others other same).2]
          exact refills other)
      (fun other offset turn later n refill less asked => whole other offset turn later n refill less (by
        by_cases same : other = file
        · rw [same, self] at asked
          rw [same, List.count_cons_self]
          omega
        · rw [apart other same] at asked
          rwa [List.count_cons_of_ne (Ne.symm same)]))
    refine ⟨max enough enough', fun fuel low => ?_⟩
    simp only [getcs, gives fuel (by omega), rest fuel (by omega), Option.bind_eq_bind, Option.bind_some, expected]

omit plain fair in
theorem part_left (size n : Nat) (part : n + 1 < size) :
    (size : Int) - ((n + 1 : Nat) : Int) ≠ 0 ∧ ∀ left : Int, left ≤ (size : Int) - ((n + 1 : Nat) : Int) → left ≠ size := by
  refine ⟨by omega, fun left most => ?_⟩
  omega

omit fair in
-- A refill that one read does not fill leaves a byte of a later read in front.
theorem zasgetc_later (file fuel later n pos : Nat) (io after : Io) (ch : Int) (room : file < io.zasnreadbuf) (content : List UInt8)
    (buffered : Buffered content io file pos) (here : offset io file pos = pos) (next : Next (answers file) (io.fds file).turn later n)
    (short : n + 1 < min ZASBUFSIZE (content.length - pos)) (gave : zasgetc moved answers fuel file file io = some (ch, after)) :
    ∃ c ∈ content.drop (pos + 1), ch = (c.toNat : Int) := by
  cases buf : io.tab file with
  | mk data cur lim =>
    have ordered := buffered.ordered
    have ahead := buffered.ahead
    rw [here] at ahead
    have here' := offset_eq io file pos cur lim data buf
    rw [buf] at ordered
    obtain rfl : cur = lim := Nat.le_antisymm ordered (by omega)
    have stands : io.fds file = ⟨content.drop pos, (io.fds file).turn⟩ := by rw [← ahead]
    simp only [zasgetc, if_neg (Nat.not_le_of_gt room), room, and_self, if_true, buf, Nat.lt_irrefl, if_false, Option.bind_eq_bind,
      Option.bind_eq_some_iff] at gave
    obtain ⟨⟨read, filled, left, fd⟩, refilled, gave⟩ := gave
    have longer := refill_more fuel (later + 1) _ _ _ _ refilled
    rw [stands] at longer
    obtain ⟨less, -, -, reads⟩ := refill_next (io.fds file).turn later n (fuel + (later + 1)) next (content.drop pos) data ZASBUFSIZE (by decide) (by omega)
    obtain ⟨part, more⟩ := Nat.lt_min.mp short
    obtain ⟨some_left, never⟩ := part_left ZASBUFSIZE n part
    have asked : min (n + 1) ZASBUFSIZE = n + 1 := Nat.min_eq_left (Nat.le_of_lt part)
    have portion : ((content.drop pos).take (n + 1)).length = n + 1 := List.length_take_of_le (by rw [List.length_drop]; exact Nat.le_of_lt more)
    rw [reads, asked, portion, if_neg (Nat.succ_ne_zero n), List.drop_drop] at longer
    obtain ⟨rfl, most, -, member⟩ := refill_first (plain file) less (later + 1) _ _ _ read filled left fd longer
    have later_byte := member some_left fun none => absurd (List.drop_eq_nil_iff.mp none) (Nat.not_le_of_gt (Nat.add_lt_of_lt_sub' more))
    have other : left ≠ ZASBUFSIZE := never left most
    simp only [Bool.true_eq_false, other, or_self, if_false] at gave
    refine ⟨filled.cell 0, ?_, (congrArg Prod.fst (Option.some.inj gave)).symm⟩
    rw [show pos + (n + 1) = pos + 1 + n by omega, ← List.drop_drop] at later_byte
    exact List.mem_of_mem_drop later_byte

omit plain fair in
-- On the way to a later refill the buffer is filled by one read.
theorem leads_full (file target turn offset turn' : Nat) (leads : Relation.ReflTransGen (Full (answers file)) (offset, turn') (target, turn))
    (before : offset ≠ target) : ∃ later n, Next (answers file) turn' later n ∧ ZASBUFSIZE ≤ n + 1 ∧ offset + ZASBUFSIZE ≤ target ∧
      Relation.ReflTransGen (Full (answers file)) (offset + ZASBUFSIZE, later + 1) (target, turn) := by
  rcases Relation.ReflTransGen.cases_head leads with same | ⟨between, ⟨later, n, next, fills, rfl⟩, rest⟩
  · exact absurd (congrArg Prod.fst same) before
  · exact ⟨later, n, next, fills, leads_le _ _ rest, rest⟩

theorem getcs_fails (file target turn later n : Nat) (content : List UInt8) (next : Next (answers file) turn later n)
    (short : n + 1 < min ZASBUFSIZE (content.length - target)) (only : ∀ c ∈ content.drop (target + 1), byteAt content target ≠ (c.toNat : Int))
    (contents : Nat → List UInt8) (same : contents file = content) (fuel : Nat) (calls : List Nat) (io : Io) (pos : Nat → Nat)
    (rooms : ∀ file ∈ calls, file < io.zasnreadbuf) (buffered : Buffered content io file (pos file))
    (leads : Relation.ReflTransGen (Full (answers file)) (offset io file (pos file), (io.fds file).turn) (target, turn))
    (asked : target < pos file + calls.count file) : getcs moved answers fuel calls io ≠ some (expected contents calls pos) := by
  induction calls generalizing io pos with
  | nil =>
    have low := leads_le _ _ leads
    rw [List.count_nil, offset] at *
    omega
  | cons other calls ih =>
    intro ran
    have room := rooms other List.mem_cons_self
    rw [getcs, Option.bind_eq_bind, Option.bind_eq_some_iff] at ran
    obtain ⟨⟨ch, after⟩, gave, ran⟩ := ran
    rw [Option.bind_eq_bind, Option.bind_eq_some_iff] at ran
    obtain ⟨chs, rest, ran⟩ := ran
    obtain ⟨rfl, rfl⟩ : ch = byteAt (contents other) (pos other) ∧ chs = _ := List.cons.inj (Option.some.inj ran)
    obtain ⟨kept, others⟩ := zasgetc_frame moved answers other io room fuel _ after gave
    have rooms' : ∀ file ∈ calls, file < after.zasnreadbuf := fun file member => by
      rw [kept]
      exact rooms file (List.mem_cons_of_mem _ member)
    by_cases this : file = other
    · subst this
      rw [same] at gave
      by_cases here : offset io file (pos file) = pos file ∧ pos file = target
      · obtain ⟨empty, rfl⟩ := here
        have turned : (io.fds file).turn = turn := by
          rw [empty] at leads
          rcases Relation.ReflTransGen.cases_head leads with same | ⟨between, ⟨later, n, -, -, rfl⟩, rest⟩
          · exact congrArg Prod.snd same
          · have low := leads_le _ _ rest
            have size : ZASBUFSIZE = 131072 := rfl
            omega
        obtain ⟨c, member, wrong⟩ := zasgetc_later moved answers plain file fuel later n (pos file) io after _ room content buffered empty
          (by rwa [turned]) short gave
        exact only c member wrong
      · have ahead : offset io file (pos file) = pos file → pos file ≠ target := fun empty reached => here ⟨empty, reached⟩
        obtain ⟨enough, after', gives, buffered', moves⟩ := gives_next moved answers plain fair file io room content (pos file) buffered
          fun empty _ later n next' => by
            rw [empty] at leads
            obtain ⟨later', n', next'', fills, -, -⟩ := leads_full answers file target turn _ _ leads (ahead empty)
            obtain ⟨-, rfl⟩ := next_unique _ _ _ _ _ next' next''
            omega
        obtain rfl : after = after' := by
          have longer := zasgetc_more moved answers file io room fuel enough _ gave
          exact congrArg Prod.snd (Option.some.inj (longer.symm.trans (gives _ (Nat.le_add_left enough fuel))))
        have self : Function.update pos file (pos file + 1) file = pos file + 1 := Function.update_self _ _ _
        refine ih after _ rooms' (by rwa [self]) ?_ ?_ rest
        · rw [self]
          rcases moves with ⟨stays, turned⟩ | ⟨empty, -, full⟩ | ⟨empty, ended, -⟩
          · rwa [stays, turned]
          · rw [empty] at leads
            obtain ⟨later', n', next', fills, -, onward⟩ := leads_full answers file target turn _ _ leads (ahead empty)
            rwa [full_unique _ _ _ full ⟨later', n', next', fills, rfl⟩]
          · rw [empty] at leads
            obtain ⟨later', n', -, -, low, -⟩ := leads_full answers file target turn _ _ leads (ahead empty)
            omega
        · rw [List.count_cons_self] at asked
          rw [self]
          omega
    · have away : Function.update pos other (pos other + 1) file = pos file := Function.update_of_ne this _ _
      obtain ⟨tab, fds⟩ := others file this
      refine ih after _ rooms' ?_ ?_ ?_ rest
      · rw [away]
        exact buffered_same content io after file _ tab fds buffered
      · rw [away, offset_same io after file _ tab, fds]
        exact leads
      · rwa [away, ← List.count_cons_of_ne (Ne.symm this)]

end Runs

-- A pointer into the table that realloc has moved.
theorem getcs_rooms (answers : Nat → Answers) (fuel : Nat) (calls : List Nat) (io : Io) (chs : List Int) (ran : getcs true answers fuel calls io = some chs) :
    ∀ file ∈ calls, file < io.zasnreadbuf := by
  induction calls generalizing io chs with
  | nil => exact fun _ member => absurd member List.not_mem_nil
  | cons file calls ih =>
    rw [getcs, Option.bind_eq_bind, Option.bind_eq_some_iff] at ran
    obtain ⟨⟨ch, after⟩, gave, ran⟩ := ran
    rw [Option.bind_eq_bind, Option.bind_eq_some_iff] at ran
    obtain ⟨chs, rest, -⟩ := ran
    have room : file < io.zasnreadbuf := by
      by_contra full
      simp [zasgetc, Nat.le_of_not_lt full] at gave
    intro other member
    rcases List.mem_cons.mp member with rfl | later
    · exact room
    · rw [← (zasgetc_frame true answers file io room fuel ch after gave).1]
      exact ih after chs rest other later

-- A byte that stands in the file once.
theorem only_byte (size target : Nat) (inside : target < size) :
    byteAt ((List.replicate size 0).set target 1) target = 1 ∧ ∀ c ∈ ((List.replicate size (0 : UInt8)).set target 1).drop (target + 1), c = 0 := by
  constructor
  · exact byteAt_some _ target 1 (by rw [List.getElem?_set_self (by rwa [List.length_replicate])])
  · intro c member
    rw [List.drop_set_of_lt (Nat.lt_succ_self target)] at member
    exact List.eq_of_mem_replicate (List.mem_of_mem_drop member)

section Results

variable (answers : Nat → Answers) (plain : ∀ file, Plain (answers file)) (fair : ∀ file, Fair (answers file)) (sizes : Nat → Nat) (calls : List Nat)
include plain fair

theorem whole_right (whole : Whole answers sizes calls) : Right answers sizes calls := by
  intro contents lengths fresh moved
  refine getcs_expected moved answers plain fair contents calls (start fresh contents) (fun _ => 0) whole.1 (fun file => start_buffered fresh contents file)
    (fun file _ => .refl) fun file offset turn later n refills less asked next => ?_
  rw [lengths] at less ⊢
  exact whole.2 file offset turn later n refills less (by omega) next

theorem right_whole (right : Right answers sizes calls) : Whole answers sizes calls := by
  constructor
  · obtain ⟨enough, right⟩ := right (fun file => List.replicate (sizes file) 0) (fun file => List.length_replicate) (fun _ _ => 0) true
    exact getcs_rooms answers enough calls _ _ (right enough (Nat.le_refl enough))
  · intro file target turn later n refills less asked next
    by_contra short
    obtain ⟨enough, right⟩ := right (fun file => (List.replicate (sizes file) 0).set target 1)
      (fun file => by rw [List.length_set, List.length_replicate]) (fun _ _ => 0) true
    have ran := right enough (Nat.le_refl enough)
    have rooms := getcs_rooms answers enough calls _ _ ran
    obtain ⟨here, zeros⟩ := only_byte (sizes file) target less
    refine getcs_fails true answers plain fair file target turn later n _ next ?_ ?_ _ rfl enough calls _ (fun _ => 0) rooms
      (start_buffered (fun _ _ => 0) _ file) refills (by omega) ran
    · rw [List.length_set, List.length_replicate]
      exact Nat.lt_of_not_le short
    · intro c member same
      rw [here, zeros c member] at same
      exact absurd same (by decide)

theorem getcs_right_iff : Right answers sizes calls ↔ Whole answers sizes calls :=
  ⟨right_whole answers plain fair sizes calls, whole_right answers plain fair sizes calls⟩

end Results

theorem getcs_right_iff_full : Right (fun _ _ => .count (ZASBUFSIZE - 1)) (fun _ => 3) [0, 0, 1, 0, 0, 1] :=
  (getcs_right_iff (fun _ _ => .count (ZASBUFSIZE - 1)) (fun _ turn errno fails => by cases fails) (fun _ turn => ⟨turn, Nat.le_refl turn, nofun⟩)
    (fun _ => 3) [0, 0, 1, 0, 0, 1]).mpr ⟨by decide, fun _ _ _ _ _ _ _ _ next => by
      obtain rfl := Answer.count.inj next.2.1
      exact Nat.le_trans (Nat.min_le_left _ _) (Nat.le_add_of_sub_le (Nat.le_refl _))⟩

-- A file of two bytes that come one by one.
theorem zasgetc_short_reads : ¬Right (fun _ _ => .count 0) (fun _ => 2) [0, 0] := fun right => by
  have whole := right_whole (fun _ _ => .count 0) (fun _ turn errno fails => by cases fails) (fun _ turn => ⟨turn, Nat.le_refl turn, nofun⟩)
    (fun _ => 2) [0, 0] right
  have most := whole.2 0 0 0 0 0 .refl (by decide) (by decide) ⟨Nat.le_refl 0, rfl, fun i _ before => absurd before (Nat.not_lt_zero i)⟩
  exact absurd most (by decide)

end OsZero.Zas.Getc

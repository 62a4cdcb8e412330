import OsZero.Lib.Loops
import OsZero.Zcc.Comment
import OsZero.Zcc.Needs
import Mathlib.Data.List.Infix

set_option autoImplicit false

namespace OsZero.Zcc

open Cstring Loops

structure Sound (reader : Reader) : Prop where
  line : reader.done = false → Ended reader.linebuf reader.lim
  before : reader.done = false → reader.str ≤ reader.lim
  drained : reader.eof = true → reader.file = []
  newline : reader.done = false → reader.nl = true ∨ reader.file = []

-- What is left to do: a line takes less than a character of the file is worth.
def left (reader : Reader) : Nat :=
  reader.file.length * (nlinebuf + 2) + if reader.done then 0 else reader.lim - reader.str + 1

theorem queue_keeps (reader : Reader) : (queue reader).file = reader.file ∧ (queue reader).eof = reader.eof ∧ (queue reader).nl = false := by
  unfold queue
  split
  · exact ⟨rfl, rfl, rfl⟩
  · next clear => exact ⟨rfl, rfl, Bool.not_eq_true _ ▸ clear⟩

theorem loaded_sound (reader : Reader) (before : List UInt8) (line : Line) (nl : Bool) (file : List UInt8) (leaves : Leaves before line nl file) :
    ∃ next, loaded reader line nl file = .next next ∧ Sound next ∧ next.done = false ∧ next.file = file ∧ next.lim = line.len := by
  have ended : Ended (Function.update line.linebuf line.len 0) line.len := ⟨Function.update_self _ _ _, leaves.room⟩
  have stop : isspace (Function.update line.linebuf line.len 0 line.len) = false := by
    rw [ended.nul]
    rfl
  have room := leaves.room
  obtain ⟨str, found, -, upper, -⟩ := scan_stops isspace _ nlinebuf 0 line.len stop (Nat.zero_le _) (by omega)
  have clear : decide (line.len < str) = false := decide_eq_false (Nat.not_lt.mpr upper)
  refine ⟨_, by rw [loaded, found], ⟨fun _ => ended, fun _ => upper, leaves.drained, fun _ => leaves.newline⟩, clear, rfl, rfl⟩

-- How a line is loaded.
theorem load_cases (reader : Reader) :
    (∃ last, load reader = .ended last) ∨ load reader = .exited ∨
      ∃ next, load reader = .next next ∧ Sound next ∧ next.done = false ∧ left next < reader.file.length * (nlinebuf + 2) := by
  unfold load
  split
  · exact .inl ⟨_, rfl⟩
  split
  · exact .inl ⟨_, rfl⟩
  next more =>
    cases read : readline false ⟨reader.linebuf, 0, false⟩ reader.file with
    | none => exact .inr (.inl rfl)
    | some result =>
      obtain ⟨line, nl, file⟩ := result
      have leaves := readline_leaves _ false _ line reader.file file nl (Nat.le_refl _) (Nat.zero_lt_succ _) (fun set => by contradiction) read
      obtain ⟨next, taken, sound, clear, same, lim⟩ := loaded_sound reader reader.file line nl file leaves
      have some_byte : 0 < reader.file.length := List.length_pos_iff.mpr more
      have factor : file.length * (nlinebuf + 2) + (nlinebuf + 2) ≤ reader.file.length * (nlinebuf + 2) := by
        rw [← Nat.succ_mul]
        have shorter := leaves.shorter
        exact Nat.mul_le_mul_right _ (by omega)
      have room := leaves.room
      refine .inr (.inr ⟨next, taken, sound, clear, ?_⟩)
      rw [left, same, lim, clear, if_neg Bool.false_ne_true]
      omega

def AtInclude (reader : Reader) : Prop :=
  reader.done = false ∧ starts reader.linebuf reader.str (text "#include") = true

def AtComment (reader : Reader) : Prop :=
  reader.done = false ∧ ¬AtInclude reader ∧ reader.linebuf reader.str = code '/' ∧ reader.linebuf (reader.str + 1) = code '*'

def AtToken (reader : Reader) : Prop :=
  reader.done = false ∧ ¬AtInclude reader ∧ ¬AtComment reader ∧ reader.linebuf reader.str ≠ 0 ∧
    ¬(reader.linebuf reader.str = code '/' ∧ reader.linebuf (reader.str + 1) = code '/')

-- The rest of the loaded line behind the two characters at str.
def restline (reader : Reader) : List UInt8 := slice reader.linebuf (reader.str + 2) reader.lim

def behind (reader : Reader) : Option (List UInt8) :=
  afterEnd (restline reader ++ (if reader.nl then [newline] else []) ++ reader.file)

def sameline (chars : List UInt8) : List UInt8 := chars.takeWhile (· ≠ newline)

-- What an iteration should do: str stays in front of the NUL of the line
-- while zccgettoken runs, and what stands on the same line behind a comment is
-- still to be read after it.
structure Progress (reader : Reader) : Prop where
  defined : zccreadfile true reader ≠ .undefined
  advances : reader.done = false → ∀ next, zccreadfile true reader = .next next → reader.str < next.str ∨ next.done = true
  inside : AtToken reader → Keeps reader.lim (fun got => ∀ found ∈ got, found.str.high ≤ reader.lim) (zccgettoken reader.linebuf reader.str)
  kept : AtComment reader → ∀ rest, behind reader = some rest →
    sameline rest = [] ∨ ∃ next, zccreadfile true reader = .next next ∧ next.eof = false ∧ rest <:+ next.file

def Closes (reader : Reader) : Prop :=
  ∀ rest ∈ behind reader, sameline rest = [] ∨ afterEnd (restline reader) = none ∧ oddEnd 0 reader.file = true

instance (reader : Reader) : Decidable (AtInclude reader) := inferInstanceAs (Decidable (_ ∧ _))
instance (reader : Reader) : Decidable (AtComment reader) := inferInstanceAs (Decidable (_ ∧ _))
instance (reader : Reader) : Decidable (AtToken reader) := inferInstanceAs (Decidable (_ ∧ _))
instance (reader : Reader) : Decidable (Closes reader) := inferInstanceAs (Decidable (∀ rest ∈ behind reader, _))

def Reads (reader : Reader) : Prop :=
  (AtToken reader → Supported reader.linebuf reader.lim reader.str) ∧ (AtComment reader → Closes reader)

instance (reader : Reader) : Decidable (Reads reader) := inferInstanceAs (Decidable (_ ∧ _))

theorem behind_file (reader : Reader) (rest : List UInt8) (newline : reader.nl = true ∨ reader.file = [])
    (ends : behind reader = some rest) (inside : afterEnd (restline reader) = none) : afterEnd reader.file = some rest := by
  unfold behind at ends
  obtain nl | none := newline
  · rw [if_pos nl, List.append_assoc, List.singleton_append, afterEnd_line _ _ inside] at ends
    exact ends
  · cases nl : reader.nl with
    | true =>
      rw [if_pos nl, List.append_assoc, List.singleton_append, afterEnd_line _ _ inside] at ends
      exact ends
    | false =>
      rw [nl, if_neg Bool.false_ne_true, none, List.append_nil, List.append_nil, inside] at ends
      contradiction

-- What a loaded line is read as.
theorem scanline_cases (reader : Reader) (clear : reader.done = false) (plain : ¬AtInclude reader) :
    (AtComment reader ∧ ¬AtToken reader ∧ zccreadfile true reader = (comment reader.file).elim (.ended { reader with file := [], done := true })
        fun file => .next { reader with file := file, done := true }) ∨
      (AtToken reader ∧ ¬AtComment reader ∧ zccreadfile true reader = token reader) ∨
      ¬AtToken reader ∧ ¬AtComment reader ∧ zccreadfile true reader = .next { reader with done := true } := by
  have notInclude : ¬starts reader.linebuf reader.str (text "#include") = true := fun here => plain ⟨clear, here⟩
  have body : zccreadfile true reader = scanline reader := by rw [zccreadfile, clear, if_neg Bool.false_ne_true, if_pos rfl]
  rw [body]
  unfold scanline
  simp only
  rw [if_neg notInclude]
  by_cases slashes : reader.linebuf reader.str = code '/' ∧ reader.linebuf (reader.str + 1) = code '/'
  · rw [if_pos slashes]
    refine .inr (.inr ⟨fun token => token.2.2.2.2 slashes, ?_, rfl⟩)
    rintro ⟨-, -, -, star⟩
    rw [slashes.2] at star
    exact absurd star (by decide)
  rw [if_neg slashes]
  by_cases star : reader.linebuf reader.str = code '/' ∧ reader.linebuf (reader.str + 1) = code '*'
  · rw [if_pos star]
    have here : AtComment reader := ⟨clear, plain, star⟩
    exact .inl ⟨here, fun token => token.2.2.1 here, rfl⟩
  rw [if_neg star]
  have notComment : ¬AtComment reader := fun here => star here.2.2
  by_cases some_byte : reader.linebuf reader.str ≠ 0
  · rw [if_pos some_byte]
    exact .inr (.inl ⟨⟨clear, plain, notComment, some_byte, slashes⟩, notComment, rfl⟩)
  · rw [if_neg some_byte]
    exact .inr (.inr ⟨fun token => some_byte token.2.2.2.1, notComment, rfl⟩)

theorem left_done (reader : Reader) (file : List UInt8) (clear : reader.done = false) (shorter : file.length ≤ reader.file.length) :
    left { reader with file := file, done := true } < left reader := by
  have factor := Nat.mul_le_mul_right (nlinebuf + 2) shorter
  simp only [left, clear, if_pos, Bool.false_eq_true, if_false]
  omega

theorem comment_progress (reader : Reader) (sound : Sound reader) (clear : reader.done = false)
    (notToken : ¬AtToken reader) (closes : Closes reader)
    (body : zccreadfile true reader = (comment reader.file).elim (.ended { reader with file := [], done := true })
      fun file => .next { reader with file := file, done := true }) :
    Progress reader ∧ ∀ next, zccreadfile true reader = .next next → Sound next ∧ left next < left reader := by
  cases found : comment reader.file with
  | none =>
    rw [found, Option.elim_none] at body
    refine ⟨⟨by simp [body], fun _ next step => by simp [body] at step, fun token => absurd token notToken, fun _ rest ends => ?_⟩,
      fun next step => by simp [body] at step⟩
    obtain same | ⟨inside, odd⟩ := closes rest ends
    · exact .inl same
    · rw [comment_odd _ odd, behind_file reader rest (sound.newline clear) ends inside] at found
      contradiction
  | some file =>
    rw [found, Option.elim_some] at body
    have shorter := comment_shorter _ reader.file file (Nat.le_refl _) found
    have open_file : reader.eof = false := by
      refine Bool.eq_false_iff.mpr fun set => ?_
      rw [sound.drained set] at found
      contradiction
    refine ⟨⟨by simp [body], fun _ next step => ?_, fun token => absurd token notToken, fun _ rest ends => ?_⟩, fun next step => ?_⟩
    · rw [body] at step
      cases step
      exact .inr rfl
    · obtain same | ⟨inside, odd⟩ := closes rest ends
      · exact .inl same
      · rw [comment_odd _ odd, behind_file reader rest (sound.newline clear) ends inside] at found
        cases found
        exact .inr ⟨_, body, open_file, List.suffix_refl _⟩
    · rw [body] at step
      cases step
      refine ⟨⟨fun set => by contradiction, fun set => by contradiction, fun set => ?_, fun set => by contradiction⟩,
        left_done reader file clear (Nat.le_of_lt shorter)⟩
      rw [open_file] at set
      contradiction

theorem token_progress (reader : Reader) (sound : Sound reader) (clear : reader.done = false)
    (notComment : ¬AtComment reader) (supported : Supported reader.linebuf reader.lim reader.str) (body : zccreadfile true reader = token reader) :
    Progress reader ∧ ∀ next, zccreadfile true reader = .next next → Sound next ∧ left next < left reader := by
  have keeps := zccgettoken_keeps reader.linebuf reader.lim (sound.line clear) reader.str (sound.before clear) supported
  have inside := keeps_mono reader.lim _ (fun got => ∀ found ∈ got, found.str.high ≤ reader.lim) (by
    rintro _ ⟨found, rfl, within, -⟩ other same
    cases same
    exact within.high) _ keeps
  rw [token] at body
  rcases call : zccgettoken reader.linebuf reader.str with stop | got
  · rw [call] at keeps body
    cases stop with
    | undefined => exact keeps.elim
    | exited str =>
      exact ⟨⟨by simp [body], fun _ next step => by simp [body] at step, fun _ => inside, fun comment => absurd comment notComment⟩,
        fun next step => by simp [body] at step⟩
  · rw [call] at keeps body
    obtain ⟨found, rfl, within, ended⟩ := keeps
    have lower := within.low
    refine ⟨⟨by simp [body], fun _ next step => ?_, fun _ => inside, fun comment => absurd comment notComment⟩, fun next step => ?_⟩
    · rw [body] at step
      cases step
      exact .inl lower
    · rw [body] at step
      cases step
      refine ⟨⟨fun _ => ended, fun _ => within.pos, sound.drained, fun _ => sound.newline clear⟩, ?_⟩
      have upper := within.pos
      have before := sound.before clear
      simp only [left, taken, clear, decide_eq_true_eq, Bool.false_eq_true, if_false]
      split <;> omega

theorem reads_progress (reader : Reader) (sound : Sound reader) (plain : ¬AtInclude reader) (reads : Reads reader) :
    Progress reader ∧ ∀ next, zccreadfile true reader = .next next → Sound next ∧ left next < left reader := by
  cases clear : reader.done with
  | true =>
    have body : zccreadfile true reader = load (queue reader) := by rw [zccreadfile, if_pos clear]
    have notClear : reader.done ≠ false := by rw [clear]; decide
    obtain ⟨file, -, -⟩ := queue_keeps reader
    refine ⟨⟨?_, fun set => absurd set notClear, fun here => absurd here.1 notClear, fun here => absurd here.1 notClear⟩, fun next step => ?_⟩
    · obtain ⟨last, ended⟩ | exited | ⟨next, taken, -⟩ := load_cases (queue reader)
      · simp [body, ended]
      · simp [body, exited]
      · simp [body, taken]
    · obtain ⟨last, ended⟩ | exited | ⟨other, taken, sound, -, less⟩ := load_cases (queue reader)
      · simp [body, ended] at step
      · simp [body, exited] at step
      · rw [body, taken] at step
        cases step
        rw [file] at less
        have whole : left reader = reader.file.length * (nlinebuf + 2) := by rw [left, if_pos clear, Nat.add_zero]
        rw [whole]
        exact ⟨sound, less⟩
  | false =>
    obtain ⟨here, notToken, body⟩ | ⟨here, notComment, body⟩ | ⟨notToken, notComment, body⟩ := scanline_cases reader clear plain
    · exact comment_progress reader sound clear notToken (reads.2 here) body
    · exact token_progress reader sound clear notComment (reads.1 here) body
    · refine ⟨⟨by simp [body], fun _ next step => ?_, fun token => absurd token notToken, fun comment => absurd comment notComment⟩,
        fun next step => ?_⟩
      · rw [body] at step
        cases step
        exact .inr rfl
      · rw [body] at step
        cases step
        exact ⟨⟨fun set => by contradiction, fun set => by contradiction, sound.drained, fun set => by contradiction⟩,
          left_done reader reader.file clear (Nat.le_refl _)⟩

theorem progress_closes (reader : Reader) (sound : Sound reader) (here : AtComment reader) (progress : Progress reader) : Closes reader := by
  intro rest ends
  by_cases same : sameline rest = []
  · exact .inl same
  obtain ⟨next, step, -, suffix⟩ := (progress.kept here rest ends).resolve_left same
  have less : next.file.length < reader.file.length ∧ comment reader.file = some next.file := by
    obtain ⟨-, -, body⟩ | ⟨-, notComment, -⟩ | ⟨-, notComment, -⟩ := scanline_cases reader here.1 here.2.1
    · rw [body] at step
      cases found : comment reader.file with
      | none => simp [found] at step
      | some file =>
        rw [found, Option.elim_some] at step
        cases step
        exact ⟨comment_shorter _ reader.file file (Nat.le_refl _) found, rfl⟩
    · exact absurd here notComment
    · exact absurd here notComment
  have size := suffix.length_le
  have inside : afterEnd (restline reader) = none := by
    cases line : afterEnd (restline reader) with
    | none => rfl
    | some tail =>
      have whole := ends
      rw [Option.mem_def, behind, List.append_assoc, afterEnd_append _ _ tail line] at whole
      cases whole
      simp only [List.length_append] at size
      omega
  refine .inr ⟨inside, ?_⟩
  cases odd : oddEnd 0 reader.file with
  | true => rfl
  | false =>
    have fewer := comment_even reader.file next.file rest odd less.2 (behind_file reader rest (sound.newline here.1) ends inside)
    omega

theorem progress_supported (reader : Reader) (sound : Sound reader) (here : AtToken reader) (progress : Progress reader) :
    Supported reader.linebuf reader.lim reader.str := by
  have line := sound.line here.1
  have before := sound.before here.1
  have inside := progress.inside here
  refine (supported_iff reader.linebuf reader.lim line reader.str before).mp ?_
  rcases call : zccgettoken reader.linebuf reader.str with stop | got
  · rw [call] at inside
    rcases stop with str | _ <;> exact inside
  · rw [call] at inside
    cases got with
    | some found => exact ⟨found, rfl, inside found rfl⟩
    | none =>
      obtain ⟨-, notToken, -⟩ | ⟨-, -, body⟩ | ⟨notToken, -, -⟩ := scanline_cases reader here.1 here.2.1
      · exact absurd here notToken
      · rw [token, call] at body
        obtain moved | done := progress.advances here.1 _ body
        · exact absurd moved (Nat.lt_irrefl _)
        · have inLine := before_nul reader.linebuf reader.lim line reader.str before here.2.2.2.1
          exact absurd (of_decide_eq_true done) (Nat.not_le.mpr inLine)
      · exact absurd here notToken

theorem progress_iff (reader : Reader) (sound : Sound reader) (plain : ¬AtInclude reader) : Progress reader ↔ Reads reader :=
  ⟨fun progress => ⟨fun here => progress_supported reader sound here progress, fun here => progress_closes reader sound here progress⟩,
    fun reads => (reads_progress reader sound plain reads).1⟩

theorem start_sound (linebuf : Nat → UInt8) (tokens : List Zpptoken) (file : List UInt8) : Sound (start linebuf tokens file) :=
  ⟨fun set => by contradiction, fun set => by contradiction, fun set => by contradiction, fun set => by contradiction⟩

theorem turn_some (reader next : Reader) (taken : turn reader = some next) : zccreadfile true reader = .next next := by
  unfold turn at taken
  split at taken
  · next other body =>
    cases taken
    exact body
  · contradiction

theorem included_at (reader : Reader) (body : zccreadfile true reader = .included) : AtInclude reader := by
  by_contra plain
  cases clear : reader.done with
  | true =>
    rw [zccreadfile, if_pos clear] at body
    obtain ⟨last, ended⟩ | exited | ⟨next, taken, -⟩ := load_cases (queue reader)
    · simp [ended] at body
    · simp [exited] at body
    · simp [taken] at body
  | false =>
    obtain ⟨-, -, step⟩ | ⟨-, -, step⟩ | ⟨-, -, step⟩ := scanline_cases reader clear plain
    · rw [step] at body
      cases found : comment reader.file <;> simp [found] at body
    · rw [step, token] at body
      split at body <;> contradiction
    · rw [step] at body
      contradiction

theorem turn_none (reader : Reader) (left : turn reader = none) (plain : ¬AtInclude reader) (defined : zccreadfile true reader ≠ .undefined) :
    ∃ last, zccreadfile true reader = .ended last ∨ zccreadfile true reader = .exited := by
  unfold turn at left
  cases body : zccreadfile true reader with
  | next next => simp [body] at left
  | ended last => exact ⟨last, .inl rfl⟩
  | exited => exact ⟨reader, .inr rfl⟩
  | undefined => exact absurd body defined
  | included => exact absurd (included_at reader body) plain

-- The loop is left, and every iteration on the way does what it should.
def Lexes (first : Reader) : Prop :=
  (∃ last, Reaches turn first last ∧ ∃ final, zccreadfile true last = .ended final ∨ zccreadfile true last = .exited) ∧
    ∀ reader, Reaches turn first reader → Progress reader

theorem zccreadfile_lexes (linebuf : Nat → UInt8) (tokens : List Zpptoken) (file : List UInt8)
    (plain : ∀ reader, Reaches turn (start linebuf tokens file) reader → ¬AtInclude reader) :
    Lexes (start linebuf tokens file) ↔ ∀ reader, Reaches turn (start linebuf tokens file) reader → Reads reader := by
  have sounds : (∀ reader, Reaches turn (start linebuf tokens file) reader → Sound reader → Reads reader) →
      ∀ reader, Reaches turn (start linebuf tokens file) reader → Sound reader := by
    intro reads reader reached
    refine reaches_invariant turn Sound (fun reader => ¬AtInclude reader ∧ (Sound reader → Reads reader)) _ (start_sound linebuf tokens file) ?_
      (fun state at_state => ⟨plain state at_state, reads state at_state⟩) reader reached
    intro state later sound both taken
    exact ((reads_progress state sound both.1 (both.2 sound)).2 later (turn_some state later taken)).1
  constructor
  · rintro ⟨-, progress⟩
    have reads : ∀ reader, Reaches turn (start linebuf tokens file) reader → Sound reader → Reads reader :=
      fun reader reached sound => (progress_iff reader sound (plain reader reached)).mp (progress reader reached)
    exact fun reader reached => reads reader reached (sounds reads reader reached)
  · intro reads
    have sound := sounds fun reader reached _ => reads reader reached
    have step : ∀ reader, Reaches turn (start linebuf tokens file) reader → Progress reader ∧
        ∀ next, zccreadfile true reader = .next next → Sound next ∧ left next < left reader :=
      fun reader reached => reads_progress reader (sound reader reached) (plain reader reached) (reads reader reached)
    obtain ⟨last, reached, none⟩ := leaves turn left (start linebuf tokens file) fun state later at_state taken =>
      ((step state at_state).2 later (turn_some state later taken)).2
    exact ⟨⟨last, reached, turn_none last none (plain last reached) (step last reached).1.defined⟩, fun reader reached => (step reader reached).1⟩

-- The reader at a line that holds a character no token begins with.
def stuck : Reader :=
  { file := [], linebuf := Function.update (Function.update (fun _ => 0) 0 (code '@')) 1 0, str := 0, lim := 1, eof := false, nl := true,
    done := false, tokens := [] }

theorem stuck_turn : turn stuck = some stuck := rfl

theorem stuck_reached (reader : Reader) (reached : Reaches turn (start (fun _ => 0) [] [code '@', newline]) reader) :
    reader = start (fun _ => 0) [] [code '@', newline] ∨ reader = stuck := by
  induction reached with
  | start => exact .inl rfl
  | next _ taken ih =>
    right
    obtain rfl | rfl := ih
    · exact (Option.some.inj taken).symm
    · exact (Option.some.inj (stuck_turn.symm.trans taken)).symm

theorem zccreadfile_stuck :
    (∀ reader, Reaches turn (start (fun _ => 0) [] [code '@', newline]) reader → ¬AtInclude reader) ∧
      ¬Lexes (start (fun _ => 0) [] [code '@', newline]) := by
  constructor
  · intro reader reached
    obtain rfl | rfl := stuck_reached reader reached <;> decide +kernel
  · rintro ⟨-, progress⟩
    have reached : Reaches turn (start (fun _ => 0) [] [code '@', newline]) stuck := .next .start rfl
    obtain moved | done := (progress stuck reached).advances rfl stuck (turn_some stuck stuck stuck_turn)
    · exact absurd moved (Nat.lt_irrefl _)
    · contradiction

def sample : List UInt8 := text "int n; /* a" ++ [newline] ++ text " b **c*/ x" ++ [newline]

theorem sample_reads : ∀ reader, Reaches turn (start (fun _ => 0) [] sample) reader → ¬AtInclude reader ∧ Reads reader :=
  check_reaches turn (fun reader => ¬AtInclude reader ∧ Reads reader) 30 _ (by decide +kernel)

theorem zccreadfile_lexes_sample : Lexes (start (fun _ => 0) [] sample) :=
  (zccreadfile_lexes (fun _ => 0) [] sample fun reader reached => (sample_reads reader reached).1).mpr
    fun reader reached => (sample_reads reader reached).2

end OsZero.Zcc

import OsZero.Zas.Readfile

set_option autoImplicit false

namespace OsZero.Zas.Lexer

open Cstring Symtab Loops

-- A loaded line is shorter than its buffer.
def Sound (reader : Reader) : Prop := reader.done = false → reader.str.length < ZASLINELEN

-- What is left to do: a line takes less than the characters of the file it is read from are worth.
def left (reader : Reader) : Nat := 3 * reader.file.length + if reader.done then 0 else reader.str.length + 1

-- How the reader is between two iterations on one line.
structure Moved (reader next : Reader) : Prop where
  file : next.file = reader.file
  suffix : next.str <:+ reader.str
  shorter : next.str.length < reader.str.length

theorem behindQuote_append (s rest : List UInt8) (plain : dquote ∉ s) : behindQuote (s ++ dquote :: rest) = some rest := by
  induction s with
  | nil => rfl
  | cons c s ih =>
    obtain ⟨other, plain⟩ := not_or.mp (List.mem_cons.not.mp plain)
    rw [List.cons_append, behindQuote_other c _ (Ne.symm other), ih plain]

theorem behindQuote_some (str : List UInt8) (inside : dquote ∈ str) : ∃ rest, behindQuote str = some rest := ⟨_, if_pos inside⟩

theorem dropWhile_other (c : UInt8) (str : List UInt8) (other : c ≠ 0) : (c :: str).dropWhile (· ≠ 0) = str.dropWhile (· ≠ 0) :=
  List.dropWhile_cons_of_pos (decide_eq_true other)

theorem dropWhile_plain (s rest : List UInt8) (plain : 0 ∉ s) : (s ++ dquote :: rest).dropWhile (· ≠ 0) = rest.dropWhile (· ≠ 0) := by
  induction s with
  | nil => rfl
  | cons c s ih =>
    obtain ⟨other, plain⟩ := not_or.mp (List.mem_cons.not.mp plain)
    rw [List.cons_append, dropWhile_other c _ (Ne.symm other), ih plain]

theorem dropWhile_nul (s rest : List UInt8) (nul : 0 ∈ s) : (s ++ rest).dropWhile (· ≠ 0) = s.dropWhile (· ≠ 0) ++ rest := by
  induction s with
  | nil => contradiction
  | cons c s ih =>
    by_cases same : c = 0
    · subst same
      rfl
    · have later : 0 ∈ s := (List.mem_cons.mp nul).resolve_left (Ne.symm same)
      rw [List.cons_append, dropWhile_other c _ same, dropWhile_other c _ same, ih later]

-- Spaces in front of a NUL are no part of what stands behind it.
theorem dropWhile_spaces (str : List UInt8) : (str.dropWhile isspace).dropWhile (· ≠ 0) = str.dropWhile (· ≠ 0) := by
  induction str with
  | nil => rfl
  | cons c str ih =>
    by_cases blank : isspace c = true
    · have other : c ≠ 0 := by
        rintro rfl
        contradiction
      rw [List.dropWhile_cons_of_pos blank, ih, dropWhile_other c _ other]
    · rw [List.dropWhile_cons_of_neg blank]

-- A literal that holds a NUL ends where its string does, and no other does.
theorem behindQuote_literal (s rest : List UInt8) (plain : dquote ∉ s) (nul : 0 ∈ s) :
    behindQuote ((s ++ dquote :: rest).dropWhile (· ≠ 0)) = some rest := by
  rw [dropWhile_nul s _ nul]
  exact behindQuote_append _ rest fun inside => plain ((List.dropWhile_suffix _).mem inside)

theorem behindQuote_short (s rest found : List UInt8) (plain : 0 ∉ s) (ends : behindQuote ((s ++ dquote :: rest).dropWhile (· ≠ 0)) = some found) :
    (found.dropWhile isspace).length < (rest.dropWhile isspace).length := by
  rw [dropWhile_plain s rest plain, ← dropWhile_spaces] at ends
  have whole : (found.dropWhile isspace).length ≤ found.length := (List.dropWhile_suffix isspace).length_le
  have line : ((rest.dropWhile isspace).dropWhile (· ≠ 0)).length ≤ (rest.dropWhile isspace).length := (List.dropWhile_suffix _).length_le
  generalize (rest.dropWhile isspace).dropWhile (· ≠ 0) = str at ends line
  have shorter : found.length < str.length := by
    obtain ⟨inside, same⟩ := Option.ite_none_right_eq_some.mp ends
    cases same
    have size : (str.dropWhile (· ≠ dquote)).length ≤ str.length := (List.dropWhile_suffix _).length_le
    have some_byte : 0 < str.length := List.length_pos_of_mem inside
    rw [List.length_tail]
    omega
  omega

theorem moved_next (reader next : Reader) (sound : Sound reader) (clear : reader.done = false) (moved : Moved reader next) :
    Sound next ∧ left next < left reader := by
  have shorter := moved.shorter
  refine ⟨fun _ => Nat.lt_trans shorter (sound clear), ?_⟩
  simp only [left, moved.file, clear, Bool.false_eq_true, if_false]
  split <;> omega

theorem moved_taken (reader : Reader) (tokens : List Zastoken) (rest : List UInt8) (suffix : rest <:+ reader.str)
    (shorter : rest.length < reader.str.length) : Moved reader (taken reader tokens rest) :=
  have line : rest.dropWhile isspace <:+ rest := List.dropWhile_suffix isspace
  ⟨rfl, line.trans suffix, Nat.lt_of_le_of_lt line.length_le shorter⟩

theorem load_cases (reader : Reader) :
    load reader = .error .ended ∨ (∃ text, load reader = .error (.exited text)) ∨
      ∃ next, load reader = .ok next ∧ Sound next ∧ left next < 3 * reader.file.length := by
  unfold load
  simp only
  split
  · exact .inl rfl
  next more =>
  split
  · exact .inr (.inl ⟨_, rfl⟩)
  next fits =>
  have some_byte : 0 < reader.file.length := List.length_pos_iff.mpr (not_or.mp more).2
  have parts : (reader.file.takeWhile (· ≠ newline)).length + (reader.file.dropWhile (· ≠ newline)).length = reader.file.length := by
    rw [← List.length_append, List.takeWhile_append_dropWhile]
  have line : ((reader.file.takeWhile (· ≠ newline)).dropWhile isspace).length ≤ (reader.file.takeWhile (· ≠ newline)).length :=
    (List.dropWhile_suffix isspace).length_le
  have behind : (reader.file.dropWhile (· ≠ newline)).tail.length = (reader.file.dropWhile (· ≠ newline)).length - 1 := List.length_tail
  refine .inr (.inr ⟨_, rfl, fun _ => Nat.lt_of_le_of_lt line (Nat.not_le.mp fits), ?_⟩)
  simp only [left, Bool.false_eq_true, if_false]
  omega

theorem scanline_cases (asm : Asm) (reader : Reader) (clear : reader.done = false) (plain : ¬AtDirective reader) :
    (AtDefine reader ∧ ¬AtToken reader ∧ zasreadfile asm reader = define reader) ∨
      (AtToken reader ∧ ¬AtDefine reader ∧
        zasreadfile asm reader = (zasgettoken asm reader.vals reader.str).map fun (tokens, rest) => taken reader tokens rest) ∨
      ¬AtDefine reader ∧ ¬AtToken reader ∧ (zasreadfile asm reader = .error .ended ∨
        ∃ file, file.length ≤ reader.file.length ∧ zasreadfile asm reader = .ok { reader with file := file, done := true }) := by
  have body : zasreadfile asm reader = scanline asm reader := by rw [zasreadfile, clear, if_neg Bool.false_ne_true]
  have notDirective : ¬((text ".include").isPrefixOf reader.str ∨ (text ".import").isPrefixOf reader.str) := fun here => plain ⟨clear, here⟩
  rw [body]
  unfold scanline
  simp only
  by_cases here : (text ".define").isPrefixOf reader.str
  · rw [if_pos here]
    exact .inl ⟨⟨clear, here⟩, fun token => token.2.1 ⟨clear, here⟩, rfl⟩
  have notDefine : ¬AtDefine reader := fun at_define => here at_define.2
  rw [if_neg here, if_neg notDirective]
  right
  by_cases rest : peek reader.str = code ';' ∨ peek reader.str = code '/' ∧ peek reader.str.tail = code '/'
  · rw [if_pos rest]
    refine .inr ⟨notDefine, ?_, .inr ⟨reader.file, Nat.le_refl _, rfl⟩⟩
    rintro ⟨-, -, -, -, semicolon, slash⟩
    obtain same | both := rest
    · exact semicolon same
    · exact slash ⟨both.1, .inl both.2⟩
  rw [if_neg rest]
  by_cases star : peek reader.str = code '/' ∧ peek reader.str.tail = code '*'
  · rw [if_pos star]
    refine .inr ⟨notDefine, fun token => token.2.2.2.2.2 ⟨star.1, .inr star.2⟩, ?_⟩
    cases found : Zcc.comment reader.file with
    | none => exact .inl rfl
    | some file => exact .inr ⟨file, Nat.le_of_lt (Zcc.comment_shorter _ reader.file file (Nat.le_refl _) found), rfl⟩
  rw [if_neg star]
  by_cases some_byte : peek reader.str ≠ 0
  · rw [if_pos some_byte]
    refine .inl ⟨⟨clear, notDefine, plain, some_byte, fun same => rest (.inl same), ?_⟩, notDefine, rfl⟩
    rintro ⟨slash, same | same⟩
    · exact rest (.inr ⟨slash, same⟩)
    · exact star ⟨slash, same⟩
  · rw [if_neg some_byte]
    exact .inr ⟨notDefine, fun token => some_byte token.2.2.2.1, .inr ⟨reader.file, Nat.le_refl _, rfl⟩⟩

theorem define_body (asm : Asm) (reader : Reader) (here : AtDefine reader) : zasreadfile asm reader = define reader := by
  rw [zasreadfile, here.1, if_neg Bool.false_ne_true]
  exact if_pos here.2

theorem define_gives (reader : Reader) (here : AtDefine reader) (named : Named reader.str) : Gives (Moved reader) (define reader) := by
  have size : 7 ≤ reader.str.length := (List.isPrefixOf_iff_prefix.mp here.2).length_le
  have shorter : (reader.str.drop 7).length < reader.str.length := by
    rw [List.length_drop]
    omega
  have moved : ∀ (rest : List UInt8) (vals : Vals), rest <:+ reader.str.drop 7 → Moved reader { reader with str := rest, vals := vals } :=
    fun rest vals suffix => ⟨rfl, suffix.trans (List.drop_suffix 7 _), Nat.lt_of_le_of_lt suffix.length_le shorter⟩
  have spaces : (reader.str.drop 7).dropWhile isspace <:+ reader.str.drop 7 := List.dropWhile_suffix isspace
  unfold define
  simp only
  split
  · next first =>
    rw [if_neg (named first)]
    refine gives_bind _ _ _ _ (zasgetvalue_gives _) fun found suffix => ?_
    cases found with
    | none => exact ⟨_, rfl⟩
    | some got =>
      have lim : (word ((reader.str.drop 7).dropWhile isspace)).tail <:+ reader.str.drop 7 :=
        ((List.tail_suffix _).trans (word_suffix _)).trans spaces
      have value : got.2 <:+ (word ((reader.str.drop 7).dropWhile isspace)).tail :=
        ((suffix got rfl).trans (List.tail_suffix _)).trans (List.dropWhile_suffix isspace)
      exact moved got.2 _ (value.trans lim)
  · exact moved _ reader.vals spaces

theorem token_body (asm : Asm) (reader : Reader) (here : AtToken reader) :
    zasreadfile asm reader = (zasgettoken asm reader.vals reader.str).map fun (tokens, rest) => taken reader tokens rest := by
  obtain ⟨-, notToken, -⟩ | ⟨-, -, body⟩ | ⟨-, notToken, -⟩ := scanline_cases asm reader here.1 here.2.2.1
  · exact absurd here notToken
  · exact body
  · exact absurd here notToken

theorem split_quote (str : List UInt8) (inside : dquote ∈ str) :
    str = str.takeWhile (· ≠ dquote) ++ dquote :: (str.dropWhile (· ≠ dquote)).tail := by
  induction str with
  | nil => contradiction
  | cons c str ih =>
    by_cases same : c = dquote
    · subst same
      rfl
    · have passed : decide (c ≠ dquote) = true := decide_eq_true same
      have later : dquote ∈ str := (List.mem_cons.mp inside).resolve_left (Ne.symm same)
      rw [List.takeWhile_cons, List.dropWhile_cons, if_pos passed, if_pos passed]
      exact congrArg (c :: ·) (ih later)

-- A string at the front of what is left of a line.
section
variable (asm : Asm) (reader : Reader) (str : List UInt8) (quote : separators reader.str = dquote :: str)
include quote

theorem string_moved (rest : List UInt8) (name : Name) (ends : behindQuote (str.dropWhile (· ≠ 0)) = some rest) :
    Moved reader (taken reader [.string name] rest) := by
  have front : dquote :: str <:+ reader.str := quote ▸ separators_suffix reader.str
  have suffix : rest <:+ str := (behindQuote_suffix _ rest ends).trans (List.dropWhile_suffix _)
  exact moved_taken reader _ rest (suffix.trans ((List.suffix_cons dquote str).trans front))
    (Nat.lt_of_lt_of_le (Nat.lt_succ_of_le suffix.length_le) front.length_le)

variable (sound : Sound reader) (here : AtToken reader)
include sound here

theorem string_body : (∀ rest, behindQuote (str.dropWhile (· ≠ 0)) = some rest → ∃ name, zasreadfile asm reader = .ok (taken reader [.string name] rest)) ∧
    (behindQuote (str.dropWhile (· ≠ 0)) = none → zasreadfile asm reader = .error .overrun) := by
  have line : str <:+ reader.str := (List.suffix_cons dquote str).trans (quote ▸ separators_suffix reader.str)
  have body : zasreadfile asm reader = (quoted str).map fun (tokens, rest) => taken reader tokens rest := by
    rw [token_body asm reader here, zasgettoken, quote]
    rfl
  obtain ⟨found, missing⟩ := quoted_rest str (Nat.lt_of_le_of_lt line.length_le (sound here.1))
  rw [body]
  refine ⟨fun rest ends => ?_, fun ends => ?_⟩
  · obtain ⟨name, same⟩ := found rest ends
    rw [same]
    exact ⟨name, rfl⟩
  · rw [missing ends]
    rfl

theorem literal_ends (fine : Quoted str) (s rest : List UInt8) (parts : str = s ++ dquote :: rest) (literal : Literal s) :
    ∃ name, zasreadfile asm reader = .ok (taken reader [.string name] rest) := by
  have whole : str.takeWhile (· ≠ dquote) = s := by
    have others : ∀ c ∈ s, decide (c ≠ dquote) = true := by
      rintro c inside
      refine decide_eq_true fun same => ?_
      subst same
      exact literal.1 inside
    rw [parts, List.takeWhile_append_of_pos others, List.takeWhile_cons_of_neg (by decide), List.append_nil]
  have nul : 0 ∈ s := by
    have inside := fine.2
    rw [whole] at inside
    exact inside literal.2
  subst parts
  exact (string_body asm reader _ quote sound here).1 rest (behindQuote_literal s rest literal.1 nul)

theorem right_quoted (right : Right asm reader) : Quoted str := by
  obtain ⟨found, missing⟩ := string_body asm reader str quote sound here
  cases ends : behindQuote (str.dropWhile (· ≠ 0)) with
  | none => exact absurd (missing ends) right.inside
  | some behind =>
    obtain ⟨inside, -⟩ := Option.ite_none_right_eq_some.mp ends
    refine ⟨inside, fun escapes => ?_⟩
    by_contra plain
    have parts := split_quote str ((List.dropWhile_suffix _).mem inside)
    have noQuote : dquote ∉ str.takeWhile (· ≠ dquote) := fun member => absurd (List.mem_takeWhile_imp member) (by decide)
    obtain ⟨name, taken_rest⟩ := right.kept here _ _ (quote.trans (congrArg _ parts)) ⟨noQuote, escapes⟩
    obtain ⟨other, taken_behind⟩ := found behind ends
    have same : (str.dropWhile (· ≠ dquote)).tail.dropWhile isspace = behind.dropWhile isspace :=
      congrArg Reader.str (Except.ok.inj (taken_rest.symm.trans taken_behind))
    rw [parts] at ends
    have shorter := behindQuote_short _ _ behind plain ends
    rw [same] at shorter
    exact Nat.lt_irrefl _ shorter

end

theorem peek_quote (str : List UInt8) (quote : peek str = dquote) : str = dquote :: str.tail := by
  cases str with
  | nil => contradiction
  | cons c str => exact congrArg (· :: str) quote

theorem peek_shorter (str : List UInt8) (some_byte : peek str ≠ 0) : str.tail.length < str.length := by
  cases str with
  | nil => exact absurd rfl some_byte
  | cons c str => exact Nat.lt_succ_self _

-- What keeps its place is no separator.
theorem separators_idle (str : List UInt8) (same : separators str = str) : str.dropWhile isspace = str := by
  have twice : (separators str).dropWhile isspace = separators str := List.dropWhile_idempotent isspace _
  rw [same] at twice
  exact twice

theorem opens_some (c : UInt8) (first : opens c) : c ≠ 0 := by
  rintro rfl
  exact absurd first (by decide)

structure Step (asm : Asm) (reader : Reader) : Prop where
  right : Right asm reader
  next : ∀ next, zasreadfile asm reader = .ok next → Sound next ∧ left next < left reader
  stop : ∀ stop, zasreadfile asm reader = .error stop → stop = .ended ∨ ∃ text, stop = .exited text

section
variable (asm : Asm) (reader : Reader) (kept : Kept asm reader)
include kept

theorem step_error (stop : Stop) (body : zasreadfile asm reader = .error stop) (known : stop = .ended ∨ ∃ text, stop = .exited text) :
    Step asm reader := by
  refine ⟨⟨fun overrun => ?_, fun _ next step => ?_, kept⟩, fun next step => ?_, fun other step => ?_⟩
  · rw [body] at overrun
    cases overrun
    obtain same | ⟨text, same⟩ := known <;> contradiction
  · rw [body] at step
    contradiction
  · rw [body] at step
    contradiction
  · rw [body] at step
    cases step
    exact known

theorem step_ok (next : Reader) (body : zasreadfile asm reader = .ok next) (sound : Sound next) (less : left next < left reader)
    (advances : reader.done = false → next.str <:+ reader.str ∧ next.str.length < reader.str.length ∨ next.done = true) : Step asm reader := by
  refine ⟨⟨fun overrun => ?_, fun clear other step => ?_, kept⟩, fun other step => ?_, fun stop step => ?_⟩
  · rw [body] at overrun
    contradiction
  · rw [body] at step
    cases step
    exact advances clear
  · rw [body] at step
    cases step
    exact ⟨sound, less⟩
  · rw [body] at step
    contradiction

-- An iteration that stays on the line.
theorem step_moves (sound : Sound reader) (clear : reader.done = false) (gives : Gives (Moved reader) (zasreadfile asm reader)) :
    Step asm reader := by
  cases body : zasreadfile asm reader with
  | error stop =>
    rw [body] at gives
    exact step_error asm reader kept stop body (.inr gives)
  | ok next =>
    rw [body] at gives
    have moved : Moved reader next := gives
    obtain ⟨sound, less⟩ := moved_next reader next sound clear moved
    exact step_ok asm reader kept next body sound less fun _ => .inl ⟨moved.suffix, moved.shorter⟩

end

theorem load_step (asm : Asm) (reader : Reader) (set : reader.done = true) : Step asm reader := by
  have loading : reader.done ≠ false := by
    rw [set]
    decide
  have kept : Kept asm reader := fun here => absurd here.1 loading
  have whole : left reader = 3 * reader.file.length := by rw [left, if_pos set, Nat.add_zero]
  have result := load_cases reader
  rw [show load reader = zasreadfile asm reader from (if_pos set).symm, ← whole] at result
  obtain ended | ⟨text, exited⟩ | ⟨next, loaded, sound, less⟩ := result
  · exact step_error asm reader kept _ ended (.inl rfl)
  · exact step_error asm reader kept _ exited (.inr ⟨text, rfl⟩)
  · exact step_ok asm reader kept next loaded sound less fun clear => absurd clear loading

section
variable {asm : Asm} (documented : asm.Documented)
include documented

theorem token_gives (reader : Reader) (here : AtToken reader) (other : peek (separators reader.str) ≠ dquote)
    (fine : separators reader.str = reader.str → opens (peek reader.str)) :
    Gives (Moved reader) (zasreadfile asm reader) := by
  have line := separators_suffix reader.str
  rw [token_body asm reader here]
  by_cases first : opens (peek (separators reader.str))
  · refine gives_map _ _ _ _ (zasgettoken_from documented reader.vals reader.str other first) fun got suffix => ?_
    have shorter := peek_shorter _ (opens_some _ first)
    exact moved_taken reader _ _ ((suffix.trans (List.tail_suffix _)).trans line)
      (Nat.lt_of_le_of_lt suffix.length_le (Nat.lt_of_lt_of_le shorter line.length_le))
  · rw [zasgettoken_none asm reader.vals reader.str other first]
    have passed : separators reader.str ≠ reader.str := fun same => first (by rw [same]; exact fine same)
    exact moved_taken reader _ _ line (Nat.lt_of_le_of_ne line.length_le fun same => passed (line.eq_of_length same))

theorem fine_step (reader : Reader) (sound : Sound reader) (plain : ¬AtDirective reader) (fine : Fine reader) : Step asm reader := by
  cases clear : reader.done with
  | true => exact load_step asm reader clear
  | false =>
    obtain ⟨here, notToken, body⟩ | ⟨here, -, -⟩ | ⟨-, notToken, body | ⟨file, shorter, body⟩⟩ := scanline_cases asm reader clear plain
    · refine step_moves asm reader (fun token => absurd token notToken) sound clear ?_
      rw [body]
      exact define_gives reader here (fine.1 here)
    · by_cases quote : peek (separators reader.str) = dquote
      · have front := peek_quote _ quote
        have string := (fine.2 here).1 quote
        have kept : Kept asm reader := fun _ s rest parts =>
          literal_ends asm reader _ front sound here string s rest (by rw [parts]; rfl)
        refine step_moves asm reader kept sound clear ?_
        obtain ⟨rest, ends⟩ := behindQuote_some _ string.1
        obtain ⟨name, body⟩ := (string_body asm reader _ front sound here).1 rest ends
        rw [body]
        exact string_moved reader _ front rest name ends
      · have kept : Kept asm reader := fun _ s rest parts => absurd (congrArg peek parts) quote
        exact step_moves asm reader kept sound clear (token_gives documented reader here quote ((fine.2 here).2 quote))
    · exact step_error asm reader (fun token => absurd token notToken) _ body (.inl rfl)
    · refine step_ok asm reader (fun token => absurd token notToken) _ body (fun unset => by contradiction) ?_ fun _ => .inr rfl
      simp only [left, clear, if_pos, Bool.false_eq_true, if_false]
      omega

end

-- An iteration that does what it should is at a line that can be read.
theorem right_fine (asm : Asm) (reader : Reader) (sound : Sound reader) (right : Right asm reader) : Fine reader := by
  constructor
  · intro here first ended
    refine right.inside ?_
    rw [define_body asm reader here, define, if_pos first, if_pos ended]
  · refine fun here => ⟨fun quote => right_quoted asm reader _ (peek_quote _ quote) sound here right, fun other same => ?_⟩
    by_contra none
    rw [← same] at none
    have body := token_body asm reader here
    rw [zasgettoken_none asm reader.vals reader.str other none] at body
    have idle : (taken reader [.unset] (separators reader.str)).str = reader.str := by
      show (separators reader.str).dropWhile isspace = reader.str
      rw [same]
      exact separators_idle reader.str same
    obtain ⟨-, shorter⟩ | done := right.advances here.1 _ body
    · rw [idle] at shorter
      exact Nat.lt_irrefl _ shorter
    · have ends : (taken reader [.unset] (separators reader.str)).str = [] := List.isEmpty_iff.mp done
      rw [idle] at ends
      exact here.2.2.2.1 (by rw [ends]; rfl)

theorem turn_some (asm : Asm) (reader next : Reader) (taken : turn asm reader = some next) : zasreadfile asm reader = .ok next := by
  unfold turn at taken
  cases body : zasreadfile asm reader with
  | ok other =>
    rw [body] at taken
    cases taken
    rfl
  | error stop =>
    rw [body] at taken
    contradiction

theorem turn_none (asm : Asm) (reader : Reader) (left : turn asm reader = none) (step : Step asm reader) :
    zasreadfile asm reader = .error .ended ∨ ∃ text, zasreadfile asm reader = .error (.exited text) := by
  unfold turn at left
  cases body : zasreadfile asm reader with
  | ok next =>
    rw [body] at left
    contradiction
  | error stop =>
    obtain rfl | ⟨text, rfl⟩ := step.stop stop body
    · exact .inl rfl
    · exact .inr ⟨text, rfl⟩

theorem start_sound (vals : Vals) (tokens : List Zastoken) (file : List UInt8) : Sound (start vals tokens file) := fun unset => by contradiction

theorem zasreadfile_lexes (asm : Asm) (documented : asm.Documented) (vals : Vals) (tokens : List Zastoken) (file : List UInt8)
    (plain : ∀ reader, Reaches (turn asm) (start vals tokens file) reader → ¬AtDirective reader) :
    Lexes asm (start vals tokens file) ↔ ∀ reader, Reaches (turn asm) (start vals tokens file) reader → Fine reader := by
  have sounds : (∀ reader, Reaches (turn asm) (start vals tokens file) reader → Sound reader → Fine reader) →
      ∀ reader, Reaches (turn asm) (start vals tokens file) reader → Sound reader := by
    intro fine reader reached
    refine reaches_invariant (turn asm) Sound (fun reader => ¬AtDirective reader ∧ (Sound reader → Fine reader)) _ (start_sound vals tokens file) ?_
      (fun state at_state => ⟨plain state at_state, fine state at_state⟩) reader reached
    intro state later sound both step
    exact ((fine_step documented state sound both.1 (both.2 sound)).next later (turn_some asm state later step)).1
  constructor
  · rintro ⟨-, right⟩
    have fine : ∀ reader, Reaches (turn asm) (start vals tokens file) reader → Sound reader → Fine reader :=
      fun reader reached sound => right_fine asm reader sound (right reader reached)
    exact fun reader reached => fine reader reached (sounds fine reader reached)
  · intro fine
    have sound := sounds fun reader reached _ => fine reader reached
    have step : ∀ reader, Reaches (turn asm) (start vals tokens file) reader → Step asm reader :=
      fun reader reached => fine_step documented reader (sound reader reached) (plain reader reached) (fine reader reached)
    obtain ⟨last, reached, none⟩ := leaves (turn asm) left (start vals tokens file) fun state later at_state taken =>
      ((step state at_state).next later (turn_some asm state later taken)).2
    exact ⟨⟨last, reached, turn_none asm last none (step last reached)⟩, fun reader reached => (step reader reached).right⟩

-- A machine with numbered registers and two operations.
def registers : List UInt8 → Except String (Word × Nat)
  | [] => .error "invalid register"
  | c :: str =>
      if c = code 'r' then .ok ((digits isdigit (· * 10) str).1, (str.takeWhile isdigit).length + 1) else .error "invalid register"

def operations : List Zasop := [⟨strdup (text "mov"), 1, 2, 3⟩, ⟨strdup (text "nop"), 2, 0, 3⟩]

def machine : Asm where
  asmgetreg str := registers str.1
  asmfindop str := operations.find? fun op => op.name.1.isPrefixOf str.1

theorem registers_inside (str : List UInt8) (reg : Word) (len : Nat) (found : registers str = .ok (reg, len)) : len ≤ str.length := by
  cases str with
  | nil => contradiction
  | cons c str =>
    have size : (str.takeWhile isdigit).length ≤ str.length := (List.takeWhile_prefix _).length_le
    rw [registers] at found
    split at found
    · cases found
      exact Nat.succ_le_succ size
    · contradiction

theorem operations_named : ∀ op ∈ operations, op.name.1 ≠ [] ∧ op.len.toNat = op.name.1.length := by decide

theorem machine_documented : machine.Documented where
  register str reg len found := registers_inside str.1 reg len found
  operation str op found := by
    have selected : operations.find? (fun op => op.name.1.isPrefixOf str.1) = some op := found
    obtain ⟨named, len⟩ := operations_named op (List.mem_of_find?_eq_some selected)
    have front := List.find?_some selected
    exact ⟨named, List.isPrefixOf_iff_prefix.mp front, len⟩

def sample : List UInt8 := text "_start:\tmov $4, %r1 ; x" ++ [newline] ++ text ".define n 7 /* y" ++ [newline] ++ text "*/ .long -$n, 2(%r3)"

theorem sample_fine : ∀ reader, Reaches (turn machine) (start (fun _ => []) [] sample) reader → ¬AtDirective reader ∧ Fine reader :=
  check_reaches (turn machine) (fun reader => ¬AtDirective reader ∧ Fine reader) 40 _ (by decide +kernel)

theorem zasreadfile_lexes_sample : Lexes machine (start (fun _ => []) [] sample) :=
  (zasreadfile_lexes machine machine_documented (fun _ => []) [] sample fun reader reached => (sample_fine reader reached).1).mpr
    fun reader reached => (sample_fine reader reached).2

-- The line that holds a string, and the reader in front of the string.
def asciz : List UInt8 := text ".asciz " ++ [dquote] ++ text "hi" ++ [dquote, newline]

def atString : Reader :=
  { file := [], str := [dquote] ++ text "hi" ++ [dquote], eof := false, done := false, vals := fun _ => [], tokens := [.asciz] }

theorem zasreadfile_string : machine.Documented ∧
    (∀ reader, Reaches (turn machine) (start (fun _ => []) [] asciz) reader → ¬AtDirective reader) ∧
      ¬Lexes machine (start (fun _ => []) [] asciz) := by
  refine ⟨machine_documented, check_reaches (turn machine) (fun reader => ¬AtDirective reader) 5 _ (by decide +kernel), ?_⟩
  rintro ⟨-, right⟩
  have loaded : Reaches (turn machine) (start (fun _ => []) [] asciz) atString := .next (.next .start rfl) rfl
  exact (right atString loaded).inside rfl

end OsZero.Zas.Lexer

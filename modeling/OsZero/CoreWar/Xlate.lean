import Mathlib.Data.List.TakeWhile
import OsZero.CoreWar.Reading
import OsZero.CoreWar.Standard

set_option autoImplicit false

namespace OsZero.CoreWar

-- fprintf reads its string up to a NUL, which rcgetline does not store.
def rcdiagnose (str : List Char) : Except Stop Instr → Except Stop Instr
  | .error (.exit diagnostic) => if '\x00' ∈ str then .error (.exit diagnostic) else .error .fault
  | read => read

-- rcloop with what the diagnostics of rcgetop read.
def rcloopPrinted (pid : Fin 2) : List (List Char) → Xlate → Except Stop Xlate
  | [], state => .ok state
  | buffer :: buffers, state => do
      let (wrap, cp) ← rcblank state.wrap buffer
      let c ← rcpeek cp
      let state := { state with wrap := wrap }
      if c = ';' then rcloopPrinted pid buffers state
      else if isalpha c then do
        let instr ← rcdiagnose cp (rcgetop cp)
        let state ← rcstore pid instr state
        rcloopPrinted pid buffers state
      else if wrap then rcloopPrinted pid buffers state
      else .ok state

def rcxlatePrinted (buffers : List (List Char)) (pid : Fin 2) (base : Int) (optab : Fin cwcoresize → Instr) : Except Stop Xlate :=
  rcloopPrinted pid buffers ⟨optab, base, -1, false⟩

-- The instruction of a line, read as a string that ends behind its newline.
def instruction (text : List Char) : Except Stop Instr :=
  match rcoptab.lookup ((word text).map toupper) with
  | none => .error (.exit .invalidMnemonic)
  | some op => (rctail op (text.drop 3 ++ ['\n', '\x00'])).map Line.instr

def ignored (line : List Char) : Bool :=
  match line.dropWhile isspace with
  | [] => true
  | c :: _ => decide (c = ';')

-- The instructions of the lines up to one that has none, and its diagnostic.
def meant : List (List Char) → List Instr × Option Stop
  | [] => ([], none)
  | line :: lines =>
      if ignored line then meant lines
      else
        match instruction (line.dropWhile isspace) with
        | .ok instr => (instr :: (meant lines).1, (meant lines).2)
        | .error stop => ([], some stop)

def place (pid : Fin 2) : List Instr → Fin cwcoresize → (Fin cwcoresize → Instr) → Except Stop (Fin cwcoresize → Instr)
  | [], _, optab => .ok optab
  | instr :: instrs, cell, optab =>
      if optab cell ≠ emptyCell then .error (.exit .programsOverlap)
      else place pid instrs (ahead cell one) (Function.update optab cell { instr with pid := pid })

-- The address of the first instruction that is executed.
def entry (base : Fin cwcoresize) (instrs : List Instr) : Int :=
  match instrs.findIdx? fun instr => decide (instr.op ≠ .dat) with
  | some n => ((base.val + n) % cwcoresize : Nat)
  | none => -1

structure Program where
  optab : Fin cwcoresize → Instr
  ret : Int
  limret : Int

def Xlate.program (state : Xlate) : Program := ⟨state.optab, state.ret, state.pc⟩

def translation (pid : Fin 2) (base : Fin cwcoresize) (lines : List (List Char)) (before : Fin cwcoresize → Instr) : Except Stop Program :=
  (place pid (meant lines).1 base before).bind fun optab =>
    (meant lines).2.elim (.ok ⟨optab, entry base (meant lines).1, ((base.val + (meant lines).1.length) % cwcoresize : Nat)⟩) .error

-- Whatever the bytes behind the newlines are.
def Translates (pid : Fin 2) (base : Fin cwcoresize) (file : List Char) (before : Fin cwcoresize → Instr) : Prop :=
  ∀ garbage, (rcxlatePrinted (rcbuffers file garbage) pid base before).map Xlate.program = translation pid base (rclines file) before

def Settled (text : List Char) : Prop := course text = .whole ∨ course text = .diagnosed ∧ '\x00' ∈ text

-- No line that is reached is blank, begins with something else than a letter or a
-- semicolon, or is read further than it is stored.
def Clean (pid : Fin 2) : List (List Char) → Fin cwcoresize → (Fin cwcoresize → Instr) → Prop
  | [], _, _ => True
  | line :: lines, cell, optab =>
      match line.dropWhile isspace with
      | [] => False
      | c :: cs =>
          if c = ';' then Clean pid lines cell optab
          else isalpha c = true ∧ Settled (c :: cs) ∧ ∀ instr, instruction (c :: cs) = .ok instr → optab cell = emptyCell →
            Clean pid lines (ahead cell one) (Function.update optab cell { instr with pid := pid })

theorem instruction_named (text : List Char) (op : Opcode) (named : rcoptab.lookup ((word text).map toupper) = some op) :
    instruction text = (rctail op (text.drop 3 ++ ['\n', '\x00'])).map Line.instr := by
  unfold instruction
  rw [named]

theorem instruction_unnamed (text : List Char) (unnamed : rcoptab.lookup ((word text).map toupper) = none) :
    instruction text = .error (.exit .invalidMnemonic) := by
  unfold instruction
  rw [unnamed]

theorem instruction_read (text : List Char) : instruction text ≠ .error .fault := by
  cases named : rcoptab.lookup ((word text).map toupper) with
  | none =>
      rw [instruction_unnamed text named]
      exact fun fault => by cases fault
  | some op =>
      rw [instruction_named text op named]
      have read := follows_ended _ _ (tail_follows op (text.drop 3))
      intro fault
      apply read
      cases run : rctail op (text.drop 3 ++ ['\n', '\x00']) with
      | ok line =>
          rw [run] at fault
          cases fault
      | error stop =>
          rw [run] at fault
          exact congrArg Except.error (Except.error.inj fault)

theorem unlettered_instruction (c : Char) (cs : List Char) (other : isalpha c = false) : instruction (c :: cs) = .error (.exit .invalidMnemonic) := by
  apply instruction_unnamed
  cases named : rcoptab.lookup ((word (c :: cs)).map toupper) with
  | none => rfl
  | some op =>
      obtain ⟨c0, c1, c2, shape, letter, -⟩ := named_word _ op named
      obtain ⟨rfl, -⟩ := word_head _ _ _ _ shape
      rw [letter] at other
      cases other

theorem rcgetop_map (cp : List Char) : rcgetop cp = (rcparse cp).map Line.instr := by
  unfold rcgetop
  cases rcparse cp <;> rfl

-- What rcgetop makes of a line, against the line's own instruction.
theorem rcgetop_course (c : Char) (cs : List Char) (alpha : isalpha c = true) :
    match course (c :: cs) with
    | .lost => rcgetop (c :: cs ++ ['\n']) = .error .fault
    | .diagnosed => ∃ diagnostic, instruction (c :: cs) = .error (.exit diagnostic) ∧ ∀ rest, rcgetop (c :: cs ++ '\n' :: rest) = .error (.exit diagnostic)
    | .whole => ∃ instr, instruction (c :: cs) = .ok instr ∧ ∀ rest, rcgetop (c :: cs ++ '\n' :: rest) = .ok instr := by
  simp only [rcgetop_map]
  unfold course
  cases named : rcoptab.lookup ((word (c :: cs)).map toupper) with
  | none =>
      have runs := fun rest => rcparse_unnamed c cs rest alpha named
      cases half : halfNamed (c :: cs) with
      | true =>
          simp only [half, if_true] at runs ⊢
          rw [runs]
          rfl
      | false =>
          simp only [half, Bool.false_eq_true, if_false] at runs ⊢
          refine ⟨.invalidMnemonic, instruction_unnamed _ named, fun rest => ?_⟩
          rw [runs]
          rfl
  | some op =>
      have follows := tail_follows op ((c :: cs).drop 3)
      have meaning := instruction_named _ op named
      simp only [rcparse_named c cs _ op alpha named]
      cases which : tailCourse op ((c :: cs).drop 3) with
      | lost =>
          rw [which] at follows
          exact congrArg (Except.map Line.instr) follows.1
      | diagnosed =>
          rw [which] at follows
          obtain ⟨diagnostic, runs⟩ := follows
          exact ⟨diagnostic, meaning.trans (congrArg (Except.map Line.instr) (runs _)), fun rest => congrArg (Except.map Line.instr) (runs rest)⟩
      | whole =>
          rw [which] at follows
          obtain ⟨line, runs⟩ := follows
          exact ⟨line.instr, meaning.trans (congrArg (Except.map Line.instr) (runs _)), fun rest => congrArg (Except.map Line.instr) (runs rest)⟩

theorem settled_reads (c : Char) (cs rest : List Char) (alpha : isalpha c = true) (settled : Settled (c :: cs)) :
    rcdiagnose (c :: cs ++ '\n' :: rest) (rcgetop (c :: cs ++ '\n' :: rest)) = instruction (c :: cs) := by
  have here := rcgetop_course c cs alpha
  rcases settled with whole | ⟨diagnosed, ended⟩
  · rw [whole] at here
    obtain ⟨instr, meaning, runs⟩ := here
    rw [runs, meaning]
    rfl
  · rw [diagnosed] at here
    obtain ⟨diagnostic, meaning, runs⟩ := here
    rw [runs, meaning]
    exact if_pos (List.mem_append_left _ ended)

theorem unsettled_faults (c : Char) (cs : List Char) (alpha : isalpha c = true) (unsettled : ¬Settled (c :: cs)) :
    rcdiagnose (c :: cs ++ ['\n']) (rcgetop (c :: cs ++ ['\n'])) = .error .fault := by
  have here := rcgetop_course c cs alpha
  unfold Settled at unsettled
  cases which : course (c :: cs) with
  | lost =>
      rw [which] at here
      rw [here]
      rfl
  | diagnosed =>
      rw [which] at here unsettled
      obtain ⟨diagnostic, -, runs⟩ := here
      rw [runs]
      refine if_neg fun ended => unsettled (Or.inr ⟨rfl, ?_⟩)
      rcases List.mem_append.mp ended with inside | behind
      · exact inside
      · exact absurd behind (by decide)
  | whole =>
      rw [which] at unsettled
      exact absurd (Or.inl rfl) unsettled

theorem rcblank_line (wrap : Bool) (line rest : List Char) (c : Char) (cs : List Char) (single : '\n' ∉ line)
    (left : line.dropWhile isspace = c :: cs) : rcblank wrap (line ++ rest) = .ok (wrap, c :: cs ++ rest) := by
  induction line with
  | nil => cases left
  | cons d line ih =>
      rw [List.mem_cons, not_or] at single
      rw [List.cons_append, rcblank]
      rw [List.dropWhile_cons] at left
      split_ifs at left ⊢ with blank
      · rw [show (wrap || decide (d = '\n')) = wrap by simp [Ne.symm single.1]]
        exact ih single.2 left
      · rw [← left]
        rfl

theorem rcblank_past (wrap : Bool) (line : List Char) (blank : line.dropWhile isspace = []) : rcblank wrap (line ++ ['\n']) = .error .fault := by
  induction line generalizing wrap with
  | nil => rfl
  | cons d line ih =>
      rw [List.dropWhile_cons] at blank
      split_ifs at blank with space
      rw [List.cons_append, rcblank, if_pos space]
      exact ih _ blank

theorem rclines_single (file : List Char) : ∀ line ∈ rclines file, '\n' ∉ line := by
  induction long : file.length using Nat.strong_induction_on generalizing file with
  | _ size ih =>
      rw [rclines_getline]
      cases file with
      | nil => simp [rcgetline]
      | cons c file =>
          have shorter : (((c :: file).dropWhile (· ≠ '\n')).drop 1).length < size := by
            have less := (List.dropWhile_sublist (· ≠ '\n') (l := c :: file)).length_le
            simp only [List.length_cons] at less long
            rw [List.length_drop]
            omega
          intro line inside
          rcases List.mem_cons.mp inside with rfl | later
          · exact fun newline => by simpa using List.mem_takeWhile_imp newline
          · exact ih _ shorter _ rfl line later

-- The translation where the first instructions have been stored.
def onward (pid : Fin 2) (lines : List (List Char)) (cell : Fin cwcoresize) (ret : Int) (optab : Fin cwcoresize → Instr) : Except Stop Program :=
  (place pid (meant lines).1 cell optab).bind fun last =>
    (meant lines).2.elim (.ok ⟨last, if ret < 0 then entry cell (meant lines).1 else ret, ((cell.val + (meant lines).1.length) % cwcoresize : Nat)⟩) .error

section

variable (pid : Fin 2) (line : List Char) (lines : List (List Char)) (cell : Fin cwcoresize) (ret : Int) (optab : Fin cwcoresize → Instr)

theorem onward_ignored (silent : ignored line = true) : onward pid (line :: lines) cell ret optab = onward pid lines cell ret optab := by
  unfold onward
  rw [meant, if_pos silent]

theorem onward_stop (stop : Stop) (loud : ignored line = false) (stops : instruction (line.dropWhile isspace) = .error stop) :
    onward pid (line :: lines) cell ret optab = .error stop := by
  unfold onward
  rw [meant, loud, if_neg Bool.false_ne_true, stops]
  rfl

theorem ahead_next : (ahead cell one).val = (cell.val + 1) % cwcoresize := rfl

theorem entry_cons (instr : Instr) (instrs : List Instr) :
    entry cell (instr :: instrs) = if instr.op = .dat then entry (ahead cell one) instrs else (cell.val : Int) := by
  unfold entry
  rw [List.findIdx?_cons]
  by_cases data : instr.op = .dat
  · rw [if_pos data]
    simp only [data, ne_eq, not_true_eq_false, decide_false, Bool.false_eq_true, if_false]
    cases instrs.findIdx? fun instr => decide (instr.op ≠ .dat) with
    | none => rfl
    | some n =>
        simp only [Option.map_some]
        congr 1
        rw [ahead_next, Nat.mod_add_mod, Nat.add_right_comm, Nat.add_assoc]
  · rw [if_neg data]
    simp only [data, ne_eq, not_false_eq_true, decide_true, if_true, Nat.add_zero]
    rw [Nat.mod_eq_of_lt cell.isLt]

def firstOf (instr : Instr) : Int := if ret < 0 ∧ instr.op ≠ .dat then (cell.val : Int) else ret

theorem firstOf_fresh (instr : Instr) (fresh : ret < 0 → ret = -1) : firstOf cell ret instr < 0 → firstOf cell ret instr = -1 := by
  unfold firstOf
  split_ifs
  · exact fun early => absurd early (Int.not_lt.mpr (Int.natCast_nonneg _))
  · exact fresh

theorem entry_first (instr : Instr) (instrs : List Instr) : (if ret < 0 then entry cell (instr :: instrs) else ret) =
    if firstOf cell ret instr < 0 then entry (ahead cell one) instrs else firstOf cell ret instr := by
  unfold firstOf
  rw [entry_cons]
  have inside : ¬(cell.val : Int) < 0 := Int.not_lt.mpr (Int.natCast_nonneg _)
  by_cases fresh : ret < 0
  · by_cases data : instr.op = .dat
    · simp [fresh, data]
    · simp [fresh, data]
  · simp [fresh]

theorem onward_store (instr : Instr) (loud : ignored line = false) (reads : instruction (line.dropWhile isspace) = .ok instr) :
    onward pid (line :: lines) cell ret optab =
      if optab cell ≠ emptyCell then .error (.exit .programsOverlap)
      else onward pid lines (ahead cell one) (firstOf cell ret instr) (Function.update optab cell { instr with pid := pid }) := by
  unfold onward
  rw [meant, loud, if_neg Bool.false_ne_true, reads]
  dsimp only
  rw [place]
  by_cases taken : optab cell ≠ emptyCell
  · rw [if_pos taken, if_pos taken]
    rfl
  · have limit : (cell.val + (instr :: (meant lines).1).length) % cwcoresize = ((ahead cell one).val + (meant lines).1.length) % cwcoresize := by
      rw [List.length_cons, ahead_next, Nat.mod_add_mod]
      congr 1
      omega
    rw [if_neg taken, if_neg taken, limit, entry_first]

theorem meant_stop (stop : Stop) (stops : (meant lines).2 = some stop) : stop ≠ .fault := by
  induction lines with
  | nil => cases stops
  | cons line lines ih =>
      rw [meant] at stops
      split_ifs at stops
      · exact ih stops
      · cases read : instruction (line.dropWhile isspace) with
        | ok instr =>
            rw [read] at stops
            exact ih stops
        | error other =>
            rw [read] at stops
            obtain rfl := Option.some.inj stops
            rintro rfl
            exact instruction_read _ read

theorem place_read (instrs : List Instr) : place pid instrs cell optab ≠ .error .fault := by
  induction instrs generalizing cell optab with
  | nil => exact fun fault => by cases fault
  | cons instr instrs ih =>
      rw [place]
      split_ifs
      · exact fun fault => by cases fault
      · exact ih _ _

theorem onward_read : onward pid lines cell ret optab ≠ .error .fault := by
  unfold onward
  cases placed : place pid (meant lines).1 cell optab with
  | error stop =>
      intro fault
      cases fault
      exact place_read pid cell optab _ placed
  | ok last =>
      cases stops : (meant lines).2 with
      | none => exact fun fault => by cases fault
      | some stop =>
          intro fault
          cases fault
          exact meant_stop lines _ stops rfl

theorem rcstore_cell (instr : Instr) :
    rcstore pid instr ⟨optab, cell.val, ret, false⟩ = if optab cell ≠ emptyCell then .error (.exit .programsOverlap)
      else .ok ⟨Function.update optab cell { instr with pid := pid }, (ahead cell one).val, firstOf cell ret instr, false⟩ := by
  unfold rcstore
  dsimp only
  rw [corecell_place, wrapcore_next]
  rfl

theorem ok_bind {α β : Type} (value : α) (next : α → Except Stop β) : (Except.ok value >>= next) = next value := rfl

theorem error_bind {α β : Type} (stop : Stop) (next : α → Except Stop β) : ((Except.error stop : Except Stop α) >>= next) = .error stop := rfl

-- One line, as long as no blank one has been read.
theorem rcloop_line (rest : List Char) (buffers : List (List Char)) (c : Char) (cs : List Char) (single : '\n' ∉ line)
    (left : line.dropWhile isspace = c :: cs) :
    rcloopPrinted pid ((line ++ '\n' :: rest) :: buffers) ⟨optab, cell.val, ret, false⟩ =
      if c = ';' then rcloopPrinted pid buffers ⟨optab, cell.val, ret, false⟩
      else if isalpha c then rcdiagnose (c :: cs ++ '\n' :: rest) (rcgetop (c :: cs ++ '\n' :: rest)) >>= fun instr =>
        if optab cell ≠ emptyCell then .error (.exit .programsOverlap)
        else rcloopPrinted pid buffers
          ⟨Function.update optab cell { instr with pid := pid }, (ahead cell one).val, firstOf cell ret instr, false⟩
      else .ok ⟨optab, cell.val, ret, false⟩ := by
  have stored : ∀ instr, (rcstore pid instr ⟨optab, cell.val, ret, false⟩ >>= fun state => rcloopPrinted pid buffers state) =
      if optab cell ≠ emptyCell then .error (.exit .programsOverlap)
      else rcloopPrinted pid buffers
        ⟨Function.update optab cell { instr with pid := pid }, (ahead cell one).val, firstOf cell ret instr, false⟩ := fun instr => by
    rw [rcstore_cell]
    split_ifs <;> rfl
  have peeked : rcpeek (c :: cs ++ '\n' :: rest) = .ok c := rfl
  rw [rcloopPrinted, rcblank_line false line _ c cs single left, ok_bind]
  dsimp only
  rw [peeked, ok_bind]
  by_cases comment : c = ';'
  · rw [if_pos comment, if_pos comment]
  · rw [if_neg comment, if_neg comment]
    by_cases alpha : isalpha c = true
    · rw [if_pos alpha, if_pos alpha]
      cases rcdiagnose (c :: cs ++ '\n' :: rest) (rcgetop (c :: cs ++ '\n' :: rest)) with
      | error stop => rw [error_bind, error_bind]
      | ok instr => rw [ok_bind, ok_bind, stored]
    · rw [if_neg alpha, if_neg alpha, if_neg Bool.false_ne_true]

end

theorem clean_translates (pid : Fin 2) (lines : List (List Char)) (cell : Fin cwcoresize) (ret : Int) (optab : Fin cwcoresize → Instr)
    (garbage : Nat → List Char) (single : ∀ line ∈ lines, '\n' ∉ line) (fresh : ret < 0 → ret = -1) (clean : Clean pid lines cell optab) :
    (rcloopPrinted pid (lines.mapIdx fun n line => line ++ '\n' :: garbage n) ⟨optab, cell.val, ret, false⟩).map Xlate.program =
      onward pid lines cell ret optab := by
  induction lines generalizing cell ret optab garbage with
  | nil =>
      have start : (if ret < 0 then entry cell [] else ret) = ret := by
        split_ifs with early
        · exact (fresh early).symm
        · rfl
      have limit : (cell.val + 0) % cwcoresize = cell.val := Nat.mod_eq_of_lt cell.isLt
      show Except.ok _ = Except.ok _
      rw [meant, start, List.length_nil, limit]
      rfl
  | cons line lines ih =>
      rw [List.mapIdx_cons]
      have one := single line List.mem_cons_self
      have others := fun other inside => single other (List.mem_cons_of_mem _ inside)
      cases left : line.dropWhile isspace with
      | nil =>
          rw [Clean, left] at clean
          exact clean.elim
      | cons c cs =>
          rw [Clean, left] at clean
          dsimp only at clean
          rw [rcloop_line pid line cell ret optab _ _ c cs one left]
          by_cases comment : c = ';'
          · have silent : ignored line = true := by simp [ignored, left, comment]
            rw [if_pos comment] at clean ⊢
            rw [onward_ignored pid line lines cell ret optab silent]
            exact ih cell ret optab _ others fresh clean
          · have loud : ignored line = false := by simp [ignored, left, comment]
            rw [if_neg comment] at clean ⊢
            obtain ⟨alpha, settled, later⟩ := clean
            rw [if_pos alpha, settled_reads c cs _ alpha settled]
            cases reads : instruction (c :: cs) with
            | error stop =>
                rw [error_bind, onward_stop pid line lines cell ret optab stop loud (by rw [left]; exact reads)]
                rfl
            | ok instr =>
                rw [onward_store pid line lines cell ret optab instr loud (by rw [left]; exact reads)]
                rw [ok_bind]
                by_cases taken : optab cell ≠ emptyCell
                · rw [if_pos taken, if_pos taken]
                  rfl
                · rw [if_neg taken, if_neg taken]
                  exact ih _ _ _ _ others (firstOf_fresh cell ret instr fresh) (later instr reads (not_not.mp taken))

theorem map_fault (run : Except Stop Xlate) (lost : run = .error .fault) : run.map Xlate.program = .error .fault := by
  rw [lost]
  rfl

theorem unclean_fails (pid : Fin 2) (lines : List (List Char)) (cell : Fin cwcoresize) (ret : Int) (optab : Fin cwcoresize → Instr)
    (single : ∀ line ∈ lines, '\n' ∉ line) (unclean : ¬Clean pid lines cell optab) :
    (rcloopPrinted pid (lines.mapIdx fun _ line => line ++ ['\n']) ⟨optab, cell.val, ret, false⟩).map Xlate.program ≠
      onward pid lines cell ret optab := by
  induction lines generalizing cell ret optab with
  | nil => exact absurd trivial unclean
  | cons line lines ih =>
      rw [List.mapIdx_cons]
      have one := single line List.mem_cons_self
      have others := fun other inside => single other (List.mem_cons_of_mem _ inside)
      have read := onward_read pid (line :: lines) cell ret optab
      cases left : line.dropWhile isspace with
      | nil =>
          rw [map_fault _ (by rw [rcloopPrinted, rcblank_past false line left, error_bind])]
          exact read.symm
      | cons c cs =>
          rw [Clean, left] at unclean
          dsimp only at unclean
          rw [rcloop_line pid line cell ret optab [] _ c cs one left]
          by_cases comment : c = ';'
          · have silent : ignored line = true := by simp [ignored, left, comment]
            rw [if_pos comment] at unclean ⊢
            rw [onward_ignored pid line lines cell ret optab silent]
            exact ih cell ret optab others unclean
          · have loud : ignored line = false := by simp [ignored, left, comment]
            rw [if_neg comment] at unclean ⊢
            by_cases alpha : isalpha c = true
            · rw [if_pos alpha]
              by_cases settled : Settled (c :: cs)
              · rw [settled_reads c cs _ alpha settled]
                cases reads : instruction (c :: cs) with
                | error stop =>
                    refine absurd ⟨alpha, settled, fun instr other => ?_⟩ unclean
                    rw [reads] at other
                    cases other
                | ok instr =>
                    rw [onward_store pid line lines cell ret optab instr loud (by rw [left]; exact reads), ok_bind]
                    by_cases taken : optab cell ≠ emptyCell
                    · refine absurd ⟨alpha, settled, fun _ _ empty => absurd empty taken⟩ unclean
                    · rw [if_neg taken, if_neg taken]
                      refine ih _ _ _ others fun later => unclean ⟨alpha, settled, fun other same _ => ?_⟩
                      rw [reads] at same
                      cases same
                      exact later
              · rw [unsettled_faults c cs alpha settled, error_bind]
                exact read.symm
            · have diagnosed : onward pid (line :: lines) cell ret optab = .error (.exit .invalidMnemonic) :=
                onward_stop pid line lines cell ret optab _ loud (by rw [left]; exact unlettered_instruction c cs (Bool.eq_false_iff.mpr alpha))
              rw [if_neg alpha, diagnosed]
              exact fun same => by cases same

theorem translates_clean (pid : Fin 2) (base : Fin cwcoresize) (file : List Char) (before : Fin cwcoresize → Instr)
    (translates : Translates pid base file before) : Clean pid (rclines file) base before := by
  by_contra unclean
  exact unclean_fails pid (rclines file) base (-1) before (rclines_single file) unclean (translates fun _ => [])

-- A file is translated exactly where each line that is reached is a comment, or has an
-- instruction or a diagnostic that ends on it.
theorem rcxlate_translates_iff (pid : Fin 2) (base : Fin cwcoresize) (file : List Char) (before : Fin cwcoresize → Instr) :
    Translates pid base file before ↔ Clean pid (rclines file) base before :=
  ⟨translates_clean pid base file before,
    fun clean garbage => clean_translates pid (rclines file) base (-1) before garbage (rclines_single file) (fun _ => rfl) clean⟩

-- A blank line is read past its end, and a word of three letters that begins like a
-- name leads to NULL.
theorem rcxlate_loses : ¬Translates pid0 origin ['\n'] (fun _ => emptyCell) ∧
    ¬Translates pid0 origin ['M', 'O', 'X', ' ', '1', '\n'] (fun _ => emptyCell) := by
  refine ⟨fun translates => translates_clean pid0 origin _ _ translates, fun translates => ?_⟩
  obtain ⟨-, settled, -⟩ : _ ∧ Settled ['M', 'O', 'X', ' ', '1'] ∧ _ := translates_clean pid0 origin _ _ translates
  rcases settled with whole | ⟨diagnosed, -⟩
  · exact absurd whole (by decide)
  · exact absurd diagnosed (by decide)

theorem diagnose_ok (str : List Char) (instr : Instr) : rcdiagnose str (.ok instr) = .ok instr := rfl

theorem diagnose_fault (str : List Char) : rcdiagnose str (.error .fault) = .error .fault := rfl

-- Without the bytes that the diagnostics read, the loop is rcloop.
theorem rcloop_printed (pid : Fin 2) (buffers : List (List Char)) (state : Xlate) (read : rcloopPrinted pid buffers state ≠ .error .fault) :
    rcloop pid buffers state = rcloopPrinted pid buffers state := by
  induction buffers generalizing state with
  | nil => rfl
  | cons buffer buffers ih =>
      rw [rcloopPrinted] at read ⊢
      rw [rcloop]
      cases blank : rcblank state.wrap buffer with
      | error stop => rw [error_bind, error_bind]
      | ok skipped =>
          obtain ⟨wrap, cp⟩ := skipped
          rw [blank, ok_bind] at read
          rw [ok_bind, ok_bind]
          dsimp only at read ⊢
          cases peeked : rcpeek cp with
          | error stop => rw [error_bind, error_bind]
          | ok c =>
              rw [peeked, ok_bind] at read
              rw [ok_bind, ok_bind]
              by_cases comment : c = ';'
              · rw [if_pos comment] at read
                rw [if_pos comment, if_pos comment]
                exact ih _ read
              · rw [if_neg comment] at read
                rw [if_neg comment, if_neg comment]
                by_cases alpha : isalpha c = true
                · rw [if_pos alpha] at read
                  rw [if_pos alpha, if_pos alpha]
                  cases parsed : rcgetop cp with
                  | error stop =>
                      cases stop with
                      | fault => rw [diagnose_fault, error_bind, error_bind]
                      | exit diagnostic =>
                          rw [parsed, rcdiagnose] at read
                          by_cases ended : '\x00' ∈ cp
                          · rw [rcdiagnose, if_pos ended, error_bind, error_bind]
                          · rw [if_neg ended, error_bind] at read
                            exact absurd rfl read
                  | ok instr =>
                      rw [parsed, diagnose_ok, ok_bind] at read
                      rw [diagnose_ok, ok_bind, ok_bind]
                      cases stored : rcstore pid instr { state with wrap := wrap } with
                      | error stop => rw [error_bind, error_bind]
                      | ok after =>
                          rw [stored, ok_bind] at read
                          rw [ok_bind, ok_bind]
                          exact ih after read
                · rw [if_neg alpha] at read
                  rw [if_neg alpha, if_neg alpha]
                  by_cases wrapped : wrap = true
                  · rw [if_pos wrapped] at read
                    rw [if_pos wrapped, if_pos wrapped]
                    exact ih _ read
                  · rw [if_neg wrapped, if_neg wrapped]

end OsZero.CoreWar

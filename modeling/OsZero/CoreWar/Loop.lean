import OsZero.CoreWar.Game
import Mathlib.Tactic.SplitIfs

set_option autoImplicit false

namespace OsZero.CoreWar

open Runs

def cwnturn : Nat := 128 * 1024

-- pid++ ; pid &= 0x01
def nextpid (pid : Fin 2) : Fin 2 := if pid = pid0 then pid1 else pid0

theorem pid_cases (pid : Fin 2) : pid = pid0 ∨ pid = pid1 := by
  revert pid
  decide

inductive Ending where
  | tie (mars : Mars)
  | exit (diagnostic : Diagnostic)
  | fault

-- The counter of the player whose turn it is goes down whether or not the loop is
-- left; cwmars.curpid is not read again.
def cwloop (mars : Mars) (nturn : Fin 2 → Nat) (pid : Fin 2) : Ending :=
  match _counter : nturn pid with
  | 0 => .tie mars
  | left + 1 =>
      match cwexec mars pid with
      | .ok next => cwloop next (Function.update nturn pid left) (nextpid pid)
      | .error (.exit diagnostic) => .exit diagnostic
      | .error .fault => .fault
termination_by nturn pid0 + nturn pid1
decreasing_by
  rcases pid_cases pid with rfl | rfl
  · simp [pid0, pid1] at _counter ⊢
    omega
  · simp [pid0, pid1] at _counter ⊢
    omega

-- What the loop comes to: the two players in turn, each cwnturn times.
def turns (first : Fin 2) : Nat → List (Fin 2)
  | 0 => []
  | count + 1 => first :: turns (nextpid first) count

def mover (first : Fin 2) (turn : Nat) : Fin 2 := if turn % 2 = 0 then first else nextpid first

def played (mars : Mars) (pids : List (Fin 2)) : Option Game := pids.foldlM cwstep (.running mars)

def outcome : Option Game → Ending
  | none => .fault
  | some (.running mars) => .tie mars
  | some (.ended diagnostic) => .exit diagnostic

@[simp] theorem nextpid_twice (pid : Fin 2) : nextpid (nextpid pid) = pid := by
  revert pid
  decide

theorem nextpid_other (pid : Fin 2) : nextpid pid ≠ pid := by
  revert pid
  decide

theorem mover_succ (first : Fin 2) (turn : Nat) : mover (nextpid first) turn = mover first (turn + 1) := by
  unfold mover
  by_cases even : turn % 2 = 0
  · rw [if_pos even, if_neg (by omega)]
  · rw [if_neg even, if_pos (by omega), nextpid_twice]

theorem ended_stays (diagnostic : Diagnostic) (pids : List (Fin 2)) :
    pids.foldlM cwstep (.ended diagnostic) = some (.ended diagnostic) := by
  induction pids with
  | nil => rfl
  | cons pid pids ih => simpa [cwstep] using ih

-- The player to move has as many turns left as the other one, or one more.
theorem cwloop_played (mars : Mars) (nturn : Fin 2 → Nat) (pid : Fin 2)
    (fair : nturn pid = nturn (nextpid pid) ∨ nturn pid = nturn (nextpid pid) + 1) :
    cwloop mars nturn pid = outcome (played mars (turns pid (nturn pid + nturn (nextpid pid)))) := by
  induction mars, nturn, pid using cwloop.induct with
  | case1 mars nturn pid none =>
      have other : nturn (nextpid pid) = 0 := by omega
      rw [cwloop, none, other]
      rfl
  | case2 mars nturn pid left more next taken ih =>
      have same : Function.update nturn pid left (nextpid pid) = nturn (nextpid pid) :=
        Function.update_of_ne (nextpid_other pid) _ _
      have mine : Function.update nturn pid left pid = left := Function.update_self ..
      rw [nextpid_twice, same, mine] at ih
      have rest := ih (by omega)
      rw [cwloop, more]
      simp only [taken]
      rw [rest, show left + 1 + nturn (nextpid pid) = nturn (nextpid pid) + left + 1 by omega]
      simp [played, turns, cwstep, taken]
  | case3 mars nturn pid left more diagnostic taken =>
      rw [cwloop, more, show left + 1 + nturn (nextpid pid) = left + nturn (nextpid pid) + 1 by omega]
      simp [played, turns, cwstep, taken, ended_stays, outcome]
  | case4 mars nturn pid left more taken =>
      rw [cwloop, more, show left + 1 + nturn (nextpid pid) = left + nturn (nextpid pid) + 1 by omega]
      simp [played, turns, cwstep, taken, outcome]

-- A sequence of turns either leaves the game running or stops at its first turn that
-- does not return.
theorem played_cases (mars : Mars) (first : Fin 2) (count : Nat) :
    (∃ final, played mars (turns first count) = some (.running final)) ∨
      ∃ turn before, turn < count ∧ played mars (turns first turn) = some (.running before) ∧
        ((∃ diagnostic, cwexec before (mover first turn) = .error (.exit diagnostic) ∧
            played mars (turns first count) = some (.ended diagnostic)) ∨
          (cwexec before (mover first turn) = .error .fault ∧ played mars (turns first count) = none)) := by
  induction count generalizing mars first with
  | zero => exact .inl ⟨mars, rfl⟩
  | succ count ih =>
      cases taken : cwexec mars first with
      | error stop =>
          refine .inr ⟨0, mars, by omega, rfl, ?_⟩
          cases stop with
          | exit diagnostic => exact .inl ⟨diagnostic, taken, by simp [played, turns, cwstep, taken, ended_stays]⟩
          | fault => exact .inr ⟨taken, by simp [played, turns, cwstep, taken]⟩
      | ok next =>
          have onward : ∀ more, played mars (turns first (more + 1)) = played next (turns (nextpid first) more) := by
            intro more
            simp [played, turns, cwstep, taken]
          rcases ih next (nextpid first) with ⟨final, runs⟩ | ⟨turn, before, early, reached, stops⟩
          · exact .inl ⟨final, (onward count).trans runs⟩
          · rw [mover_succ] at stops
            rw [← onward turn] at reached
            rw [← onward count] at stops
            exact .inr ⟨turn + 1, before, by omega, reached, stops⟩

-- What every instruction but DAT does with the cells of the core: it copies one, or
-- stores into the two fields and the sign flag of one. None of them exits.
section Cells

variable (Cell : Instr → Prop)
variable (stored : ∀ instr : Instr, ∀ a b sign, Cell instr → Cell { instr with a := a, b := b, bflg := { instr.bflg with sign := sign } })

def Cells (mars : Mars) : Prop := ∀ cell, Cell (mars.optab cell)

def Quiet : Except Stop (Mars × Int) → Prop
  | .ok next => Cells Cell next.1
  | .error (.exit _) => False
  | .error .fault => True

theorem cells_set_cell (mars : Mars) (cell : Fin cwcoresize) (instr : Instr) (cells : Cells Cell mars) (holds : Cell instr) :
    Cells Cell (mars.setCell cell instr) := by
  intro other
  by_cases same : other = cell
  · subst same
    simpa [Mars.setCell] using holds
  · simpa [Mars.setCell, same] using cells other

include stored

theorem cells_set_a (mars : Mars) (cell : Fin cwcoresize) (value : Int) (cells : Cells Cell mars) : Cells Cell (mars.setA cell value) :=
  cells_set_cell Cell mars cell _ cells (stored _ (BitVec.ofInt 16 value) (mars.optab cell).b (mars.optab cell).bflg.sign (cells cell))

theorem cells_set_b (mars : Mars) (cell : Fin cwcoresize) (value : Int) (cells : Cells Cell mars) : Cells Cell (mars.setB cell value) :=
  cells_set_cell Cell mars cell _ cells (stored _ (mars.optab cell).a (BitVec.ofInt 16 value) (mars.optab cell).bflg.sign (cells cell))

theorem cells_clear_sign (mars : Mars) (cell : Fin cwcoresize) (cells : Cells Cell mars) : Cells Cell (mars.clearBSign cell) :=
  cells_set_cell Cell mars cell _ cells (stored _ (mars.optab cell).a (mars.optab cell).b false (cells cell))

omit stored in
theorem quiet_cell (index : Int) (rest : Fin cwcoresize → Except Stop (Mars × Int)) (each : ∀ cell, Quiet Cell (rest cell)) :
    Quiet Cell (corecell index >>= rest) := by
  unfold corecell
  split
  · exact each _
  · trivial

omit stored in
theorem quiet_proc (index : Int) (rest : Fin cwnproc → Except Stop (Mars × Int)) (each : ∀ proc, Quiet Cell (rest proc)) :
    Quiet Cell (runqcell index >>= rest) := by
  unfold runqcell
  split
  · exact each _
  · trivial

theorem quiet_arg (mars : Mars) (flg : Flags) (field pc : Int) (cells : Cells Cell mars) : Quiet Cell (cwgetarg mars flg field pc) := by
  unfold cwgetarg
  split
  · exact cells
  · dsimp only
    split
    · apply quiet_cell
      intro ptr
      split
      · exact cells_set_b Cell stored mars ptr _ cells
      · exact cells
    · exact cells

theorem quiet_args (mars : Mars) (op : Fin cwcoresize) (pc : Int) (rest : Mars × Int × Int → Except Stop (Mars × Int))
    (cells : Cells Cell mars) (each : ∀ next arg1 arg2, Cells Cell next → Quiet Cell (rest (next, arg1, arg2))) :
    Quiet Cell (cwgetargs mars op pc >>= rest) := by
  have first := quiet_arg Cell stored mars (mars.optab op).aflg (mars.a op) pc cells
  unfold cwgetargs
  cases one : cwgetarg mars (mars.optab op).aflg (mars.a op) pc with
  | error stop =>
      rw [one] at first
      cases stop with
      | exit diagnostic => exact first.elim
      | fault => trivial
  | ok middle =>
      rw [one] at first
      have second := quiet_arg Cell stored middle.1 (middle.1.optab op).bflg (middle.1.b op) pc first
      cases two : cwgetarg middle.1 (middle.1.optab op).bflg (middle.1.b op) pc with
      | error stop =>
          rw [two] at second
          cases stop with
          | exit diagnostic => exact second.elim
          | fault =>
              simp only [bind, Except.bind, two]
              trivial
      | ok last =>
          rw [two] at second
          simp only [bind, Except.bind, two]
          exact each last.1 middle.2 last.2 second

omit stored in
theorem quiet_jump (mars : Mars) (pid : Fin 2) (pc : Int) (cells : Cells Cell mars) : Quiet Cell (cwjump mars pid pc) :=
  quiet_proc Cell _ _ fun _ => cells

theorem cwmovop_quiet (mars : Mars) (pid : Fin 2) (pc : Int) (cells : Cells Cell mars) : Quiet Cell (cwmovop mars pid pc) := by
  refine quiet_cell Cell _ _ fun op => quiet_args Cell stored mars op pc _ cells fun next arg1 arg2 kept => ?_
  refine quiet_cell Cell _ _ fun target => ?_
  split
  · exact cells_set_b Cell stored next target arg1 kept
  · exact quiet_cell Cell _ _ fun source => cells_set_cell Cell next target _ kept (kept source)

theorem cwaddop_quiet (mars : Mars) (pid : Fin 2) (pc : Int) (cells : Cells Cell mars) : Quiet Cell (cwaddop mars pid pc) := by
  refine quiet_cell Cell _ _ fun op => quiet_args Cell stored mars op pc _ cells fun next arg1 arg2 kept => ?_
  dsimp only
  split
  · split
    · exact cells_set_b Cell stored _ op _ (cells_clear_sign Cell stored next op kept)
    · exact quiet_cell Cell _ _ fun target => cells_set_b Cell stored _ target _ (cells_clear_sign Cell stored next target kept)
  · split
    · exact cells_set_b Cell stored next op _ kept
    · exact quiet_cell Cell _ _ fun source => quiet_cell Cell _ _ fun target =>
        cells_set_b Cell stored _ target _ (cells_set_a Cell stored next target _ kept)

theorem cwsubop_quiet (mars : Mars) (pid : Fin 2) (pc : Int) (cells : Cells Cell mars) : Quiet Cell (cwsubop mars pid pc) := by
  refine quiet_cell Cell _ _ fun op => quiet_args Cell stored mars op pc _ cells fun next arg1 arg2 kept => ?_
  dsimp only
  split
  · exact quiet_cell Cell _ _ fun target => cells_set_b Cell stored next target _ kept
  · exact quiet_cell Cell _ _ fun source => quiet_cell Cell _ _ fun target =>
      cells_set_b Cell stored _ target _ (cells_set_a Cell stored next target _ kept)

theorem cwjmpop_quiet (mars : Mars) (pid : Fin 2) (pc : Int) (cells : Cells Cell mars) : Quiet Cell (cwjmpop mars pid pc) := by
  refine quiet_cell Cell _ _ fun op => quiet_args Cell stored mars op pc _ cells fun next arg1 arg2 kept => ?_
  dsimp only
  split
  · exact quiet_jump Cell next pid arg2 kept
  · exact kept

theorem cwjmzop_quiet (mars : Mars) (pid : Fin 2) (pc : Int) (cells : Cells Cell mars) : Quiet Cell (cwjmzop mars pid pc) := by
  refine quiet_cell Cell _ _ fun op => quiet_args Cell stored mars op pc _ cells fun next arg1 arg2 kept => ?_
  refine quiet_cell Cell _ _ fun target => ?_
  split
  · exact quiet_jump Cell next pid arg1 kept
  · exact kept

theorem cwjmnop_quiet (mars : Mars) (pid : Fin 2) (pc : Int) (cells : Cells Cell mars) : Quiet Cell (cwjmnop mars pid pc) := by
  refine quiet_cell Cell _ _ fun op => quiet_args Cell stored mars op pc _ cells fun next arg1 arg2 kept => ?_
  refine quiet_cell Cell _ _ fun target => ?_
  split
  · exact quiet_jump Cell next pid arg1 kept
  · exact kept

theorem cwcmpop_quiet (mars : Mars) (pid : Fin 2) (pc : Int) (cells : Cells Cell mars) : Quiet Cell (cwcmpop mars pid pc) := by
  refine quiet_cell Cell _ _ fun op => quiet_args Cell stored mars op pc _ cells fun next arg1 arg2 kept => ?_
  dsimp only
  split
  · exact quiet_cell Cell _ _ fun target => kept
  · exact quiet_cell Cell _ _ fun source => quiet_cell Cell _ _ fun target => kept

theorem cwsltop_quiet (mars : Mars) (pid : Fin 2) (pc : Int) (cells : Cells Cell mars) : Quiet Cell (cwsltop mars pid pc) := by
  refine quiet_cell Cell _ _ fun op => quiet_args Cell stored mars op pc _ cells fun next arg1 arg2 kept => ?_
  refine quiet_cell Cell _ _ fun target => ?_
  dsimp only
  split
  · exact kept
  · exact kept

theorem cwdjnop_quiet (mars : Mars) (pid : Fin 2) (pc : Int) (cells : Cells Cell mars) : Quiet Cell (cwdjnop mars pid pc) := by
  refine quiet_cell Cell _ _ fun op => quiet_args Cell stored mars op pc _ cells fun next arg1 arg2 kept => ?_
  refine quiet_cell Cell _ _ fun counter => ?_
  dsimp only
  have after := cells_set_b Cell stored next counter (cwborrow (next.b counter - 1)) kept
  split
  · exact quiet_jump Cell _ pid arg1 after
  · exact after

theorem cwsplop_quiet (mars : Mars) (pid : Fin 2) (pc : Int) (cells : Cells Cell mars) : Quiet Cell (cwsplop mars pid pc) := by
  refine quiet_cell Cell _ _ fun op => quiet_args Cell stored mars op pc _ cells fun next arg1 arg2 kept => ?_
  refine quiet_proc Cell _ _ fun cur => ?_
  dsimp only
  split
  · exact quiet_proc Cell _ _ fun last => kept
  · exact kept

theorem cwfunctab_quiet (op : Opcode) (mars : Mars) (pid : Fin 2) (pc : Int) (notDat : op ≠ .dat) (cells : Cells Cell mars) :
    Quiet Cell (cwfunctab op mars pid pc) := by
  cases op with
  | dat => exact (notDat rfl).elim
  | mov => exact cwmovop_quiet Cell stored mars pid pc cells
  | add => exact cwaddop_quiet Cell stored mars pid pc cells
  | sub => exact cwsubop_quiet Cell stored mars pid pc cells
  | jmp => exact cwjmpop_quiet Cell stored mars pid pc cells
  | jmz => exact cwjmzop_quiet Cell stored mars pid pc cells
  | jmn => exact cwjmnop_quiet Cell stored mars pid pc cells
  | cmp => exact cwcmpop_quiet Cell stored mars pid pc cells
  | slt => exact cwsltop_quiet Cell stored mars pid pc cells
  | djn => exact cwdjnop_quiet Cell stored mars pid pc cells
  | spl => exact cwsplop_quiet Cell stored mars pid pc cells

theorem cwexec_cells (mars next : Mars) (pid : Fin 2) (cells : Cells Cell mars) (taken : cwexec mars pid = .ok next) : Cells Cell next := by
  unfold cwexec at taken
  cases proc : runqcell (mars.curproc pid) with
  | error stop => simp [proc, bind, Except.bind] at taken
  | ok place =>
      cases cell : corecell (mars.runqtab pid place) with
      | error stop => simp [proc, cell, bind, Except.bind] at taken
      | ok op =>
          simp only [proc, cell, bind, Except.bind] at taken
          split_ifs at taken
          by_cases dat : (mars.optab op).op = .dat
          · simp [dat, cwfunctab, cwdatop] at taken
          · have quiet := cwfunctab_quiet Cell stored _ mars pid (mars.runqtab pid place) dat cells
            cases ran : cwfunctab (mars.optab op).op mars pid (mars.runqtab pid place) with
            | error stop => simp [ran] at taken
            | ok result =>
                rw [ran] at quiet
                simp only [ran] at taken
                by_cases none : result.2 = cwnone
                · by_cases several : result.1.proccnt pid > 1
                  · rw [if_pos none, if_pos several] at taken
                    cases shifted : runqshift (result.1.runqtab pid) (mars.curproc pid) (result.1.proccnt pid - 1 - mars.curproc pid).toNat with
                    | error stop => simp [shifted] at taken
                    | ok runq =>
                        simp only [shifted, Except.ok.injEq] at taken
                        subst taken
                        exact quiet
                  · rw [if_pos none, if_neg several] at taken
                    cases taken
                · rw [if_neg none] at taken
                  by_cases split : (result.1.optab op).op ≠ .spl
                  · rw [if_pos split] at taken
                    cases taken
                    exact quiet
                  · rw [if_neg split] at taken
                    cases taken
                    exact quiet

end Cells

theorem runqcell_quiet (index : Int) (stop : Stop) (failed : runqcell index = .error stop) : stop = .fault := by
  unfold runqcell at failed
  split at failed
  · cases failed
  · cases failed
    rfl

theorem corecell_quiet (index : Int) (stop : Stop) (failed : corecell index = .error stop) : stop = .fault := by
  unfold corecell at failed
  split at failed
  · cases failed
  · cases failed
    rfl

theorem runqshift_quiet (runq : Fin cwnproc → Int) (l : Int) (count : Nat) (stop : Stop)
    (failed : runqshift runq l count = .error stop) : stop = .fault := by
  induction count generalizing runq l with
  | zero => cases failed
  | succ count ih =>
      unfold runqshift at failed
      cases here : runqcell l with
      | error first =>
          simp only [here, bind, Except.bind, Except.error.injEq] at failed
          exact runqcell_quiet l stop (by rw [here, failed])
      | ok low =>
          cases after : runqcell (l + 1) with
          | error second =>
              simp only [here, after, bind, Except.bind, Except.error.injEq] at failed
              exact runqcell_quiet (l + 1) stop (by rw [after, failed])
          | ok high =>
              simp only [here, after, bind, Except.bind] at failed
              exact ih _ _ failed

-- Whatever ends the game, the player whose turn it was has lost it.
theorem cwexec_exits (mars : Mars) (pid : Fin 2) (diagnostic : Diagnostic) (ended : cwexec mars pid = .error (.exit diagnostic)) :
    ∃ report, diagnostic = .won report ∧ report.winner = nextpid pid := by
  have wins : ∀ progname pc, won pid progname pc = .exit diagnostic → ∃ report, diagnostic = .won report ∧ report.winner = nextpid pid := by
    intro progname pc same
    cases same
    exact ⟨_, rfl, rfl⟩
  unfold cwexec at ended
  cases proc : runqcell (mars.curproc pid) with
  | error stop =>
      have fault := runqcell_quiet _ stop proc
      subst fault
      simp [proc, bind, Except.bind] at ended
  | ok place =>
      cases cell : corecell (mars.runqtab pid place) with
      | error stop =>
          have fault := corecell_quiet _ stop cell
          subst fault
          simp [proc, cell, bind, Except.bind] at ended
      | ok op =>
          simp only [proc, cell, bind, Except.bind] at ended
          split_ifs at ended with empty
          · exact wins _ _ (Except.error.inj ended)
          · by_cases dat : (mars.optab op).op = .dat
            · simp only [dat, cwfunctab, cwdatop] at ended
              exact wins _ _ (Except.error.inj ended)
            · have quiet := cwfunctab_quiet (fun _ => True) (fun _ _ _ _ _ => trivial) _ mars pid (mars.runqtab pid place) dat fun _ => trivial
              cases ran : cwfunctab (mars.optab op).op mars pid (mars.runqtab pid place) with
              | error stop =>
                  rw [ran] at quiet
                  simp only [ran] at ended
                  cases ended
                  exact quiet.elim
              | ok result =>
                  simp only [ran] at ended
                  by_cases none : result.2 = cwnone
                  · by_cases several : result.1.proccnt pid > 1
                    · rw [if_pos none, if_pos several] at ended
                      cases shifted : runqshift (result.1.runqtab pid) (mars.curproc pid) (result.1.proccnt pid - 1 - mars.curproc pid).toNat with
                      | error stop =>
                          have fault := runqshift_quiet _ _ _ stop shifted
                          subst fault
                          simp [shifted] at ended
                      | ok runq => simp [shifted] at ended
                    · rw [if_pos none, if_neg several] at ended
                      exact wins _ _ (Except.error.inj ended)
                  · rw [if_neg none] at ended
                    by_cases split : (result.1.optab op).op ≠ .spl
                    · rw [if_pos split] at ended
                      cases ended
                    · rw [if_neg split] at ended
                      cases ended

-- The loop always comes to an end: after cwnturn turns of each player it is a tie, and
-- before that at the first turn that does not return, which its player has lost unless
-- the turn left an array.
theorem cwloop_decides (mars : Mars) (first : Fin 2) :
    (∃ final, cwloop mars (fun _ => cwnturn) first = .tie final ∧ played mars (turns first (2 * cwnturn)) = some (.running final)) ∨
      ∃ turn before, turn < 2 * cwnturn ∧ played mars (turns first turn) = some (.running before) ∧
        ((∃ report, cwexec before (mover first turn) = .error (.exit (.won report)) ∧ report.winner = nextpid (mover first turn) ∧
            cwloop mars (fun _ => cwnturn) first = .exit (.won report)) ∨
          (cwexec before (mover first turn) = .error .fault ∧ cwloop mars (fun _ => cwnturn) first = .fault)) := by
  have loop : cwloop mars (fun _ => cwnturn) first = outcome (played mars (turns first (2 * cwnturn))) := by
    rw [cwloop_played mars _ first (.inl rfl), Nat.two_mul]
  rw [loop]
  rcases played_cases mars first (2 * cwnturn) with ⟨final, runs⟩ | ⟨turn, before, early, reached, stops⟩
  · exact .inl ⟨final, by rw [runs]; rfl, runs⟩
  · refine .inr ⟨turn, before, early, reached, ?_⟩
    rcases stops with ⟨diagnostic, ended, stopped⟩ | ⟨fault, stopped⟩
    · obtain ⟨report, rfl, winner⟩ := cwexec_exits before _ diagnostic ended
      exact .inl ⟨report, ended, winner, by rw [stopped]; rfl⟩
    · exact .inr ⟨fault, by rw [stopped]; rfl⟩

-- Programs without a predecrement operand. Nothing an instruction does brings one in.
def NoPredecrement (program : List (List Char)) : Prop :=
  ∀ buffer ∈ program, ∀ wrap wrapped cp line operand, rcblank wrap buffer = .ok (wrapped, cp) → rcparse cp = .ok line →
    line.aoperand = some operand ∨ line.boperand = some operand → operand.mode ≠ .predecrement

def Undecremented (instr : Instr) : Prop := instr.aflg.predec = false ∧ instr.bflg.predec = false

theorem undecremented_stored (instr : Instr) (a b : BitVec 16) (sign : Bool) (undecremented : Undecremented instr) :
    Undecremented { instr with a := a, b := b, bflg := { instr.bflg with sign := sign } } := undecremented

theorem operand_undecremented (operand : Option Operand) (plain : ∀ given, operand = some given → given.mode ≠ .predecrement) :
    (operandFlags operand).predec = false := by
  cases operand with
  | none => rfl
  | some given => simpa [operandFlags, Operand.flags] using plain given rfl

theorem rcgetop_undecremented (cp : List Char) (instr : Instr) (parsed : rcgetop cp = .ok instr)
    (plain : ∀ line operand, rcparse cp = .ok line → line.aoperand = some operand ∨ line.boperand = some operand → operand.mode ≠ .predecrement) :
    Undecremented instr := by
  unfold rcgetop at parsed
  cases source : rcparse cp with
  | error stop => simp [source, bind, Except.bind] at parsed
  | ok line =>
      simp only [source, bind, Except.bind, Except.ok.injEq] at parsed
      subst parsed
      exact ⟨operand_undecremented _ fun given same => plain line given source (.inl same),
        operand_undecremented _ fun given same => plain line given source (.inr same)⟩

theorem rcxlate_undecremented (program : List (List Char)) (pid : Fin 2) (base : Int) (optab : Fin cwcoresize → Instr) (final : Xlate)
    (plain : NoPredecrement program) (before : ∀ cell, Undecremented (optab cell)) (translated : rcxlate program pid base optab = .ok final) :
    ∀ cell, Undecremented (final.optab cell) := by
  apply rcloop_invariant pid program (fun state => ∀ cell, Undecremented (state.optab cell)) ?_ ?_ _ final before translated
  · exact fun _ _ kept => kept
  · intro buffer member wrap wrapped cp instr state next blank parsed kept stored cell
    have fresh := rcgetop_undecremented cp instr parsed fun line operand source => plain buffer member wrap wrapped cp line operand blank source
    unfold rcstore at stored
    cases found : corecell state.pc with
    | error stop => simp [found, bind, Except.bind] at stored
    | ok place =>
        simp only [found, bind, Except.bind] at stored
        split at stored
        · cases stored
        · cases stored
          by_cases same : cell = place
          · subst same
            dsimp only
            rw [Function.update_self]
            exact fresh
          · simpa [same] using kept cell

theorem cwstart_undecremented (program1 program2 : List (List Char)) (base1 base2 : Fin cwcoresize) (mars : Mars)
    (plain1 : NoPredecrement program1) (plain2 : NoPredecrement program2) (accepted : cwstart program1 program2 base1 base2 = .ok mars) :
    Cells Undecremented mars := by
  obtain ⟨first, second, one, -, two, -, rfl⟩ := cwstart_cases program1 program2 base1 base2 mars accepted
  have firstPlain := rcxlate_undecremented program1 pid0 base1 _ first plain1 (fun _ => ⟨rfl, rfl⟩) one
  exact rcxlate_undecremented program2 pid1 base2 _ second plain2 firstPlain two

theorem step_nonzero_undecremented (mars : Mars) (pid : Fin 2) (plain : Cells Undecremented mars) : StepNonzero mars pid :=
  fun op pc _ _ => predecs_nonzero_without mars op pc (plain op).1 (plain op).2

theorem played_safe (mars before : Mars) (pids : List (Fin 2)) (safe : Safe mars) (plain : Cells Undecremented mars)
    (reached : played mars pids = some (.running before)) : Safe before ∧ Cells Undecremented before := by
  induction pids generalizing mars with
  | nil =>
      cases reached
      exact ⟨safe, plain⟩
  | cons pid pids ih =>
      rcases cwexec_safe mars pid safe (step_nonzero_undecremented mars pid plain) with ⟨diagnostic, ended⟩ | ⟨next, taken, nextSafe⟩
      · have finished : played mars (pid :: pids) = some (.ended diagnostic) := by simp [played, cwstep, ended, ended_stays]
        rw [finished] at reached
        cases reached
      · have onward : played mars (pid :: pids) = played next pids := by simp [played, cwstep, taken]
        rw [onward] at reached
        exact ih next nextSafe (cwexec_cells Undecremented undecremented_stored mars next pid plain taken) reached

-- Two accepted programs whose operands lie in the core and are never predecrements
-- play a whole game inside the arrays, to a tie or to the loss of one of them; no turn
-- of theirs brings a predecrement into the core.
theorem cwloop_without_predecrement (file1 file2 : List Char) (garbage1 garbage2 : Nat → List Char) (base1 base2 : Fin cwcoresize)
    (mars : Mars) (first : Fin 2)
    (range1 : OperandsInRange (rcbuffers file1 garbage1)) (range2 : OperandsInRange (rcbuffers file2 garbage2))
    (plain1 : NoPredecrement (rcbuffers file1 garbage1)) (plain2 : NoPredecrement (rcbuffers file2 garbage2))
    (accepted : cwstart (rcbuffers file1 garbage1) (rcbuffers file2 garbage2) base1 base2 = .ok mars) :
    (∀ pids before, played mars pids = some (.running before) → Cells Undecremented before) ∧
      ((∃ final, cwloop mars (fun _ => cwnturn) first = .tie final ∧ Safe final ∧
          played mars (turns first (2 * cwnturn)) = some (.running final)) ∨
        ∃ turn before report, turn < 2 * cwnturn ∧ played mars (turns first turn) = some (.running before) ∧ Safe before ∧
          cwexec before (mover first turn) = .error (.exit (.won report)) ∧ report.winner = nextpid (mover first turn) ∧
          cwloop mars (fun _ => cwnturn) first = .exit (.won report)) := by
  have safe := cwstart_safe _ _ base1 base2 mars range1 range2 accepted
  have plain := cwstart_undecremented _ _ base1 base2 mars plain1 plain2 accepted
  refine ⟨fun pids before reached => (played_safe mars before pids safe plain reached).2, ?_⟩
  have loop : cwloop mars (fun _ => cwnturn) first = outcome (played mars (turns first (2 * cwnturn))) := by
    rw [cwloop_played mars _ first (.inl rfl), Nat.two_mul]
  rw [loop]
  rcases played_cases mars first (2 * cwnturn) with ⟨final, runs⟩ | ⟨turn, before, early, reached, stops⟩
  · exact .inl ⟨final, by rw [runs]; rfl, (played_safe mars final _ safe plain runs).1, runs⟩
  · obtain ⟨beforeSafe, beforePlain⟩ := played_safe mars before _ safe plain reached
    rcases stops with ⟨diagnostic, ended, stopped⟩ | ⟨fault, -⟩
    · obtain ⟨report, rfl, winner⟩ := cwexec_exits before _ diagnostic ended
      exact .inr ⟨turn, before, report, early, reached, beforeSafe, ended, winner, by rw [stopped]; rfl⟩
    · rcases cwexec_safe before _ beforeSafe (step_nonzero_undecremented before _ beforePlain) with ⟨diagnostic, ended⟩ | ⟨next, taken, -⟩
      · rw [fault] at ended
        cases ended
      · rw [fault] at taken
        cases taken

theorem cwloop_without_predecrement_imp :
    ∃ mars, cwstart (rcbuffers impText noGarbage) (rcbuffers loopText noGarbage) ⟨0, by decide⟩ ⟨4000, by decide⟩ = .ok mars ∧
      (∀ pids before, played mars pids = some (.running before) → Cells Undecremented before) ∧
      ((∃ final, cwloop mars (fun _ => cwnturn) pid0 = .tie final ∧ Safe final ∧
          played mars (turns pid0 (2 * cwnturn)) = some (.running final)) ∨
        ∃ turn before report, turn < 2 * cwnturn ∧ played mars (turns pid0 turn) = some (.running before) ∧ Safe before ∧
          cwexec before (mover pid0 turn) = .error (.exit (.won report)) ∧ report.winner = nextpid (mover pid0 turn) ∧
          cwloop mars (fun _ => cwnturn) pid0 = .exit (.won report)) := by
  have range1 : OperandsInRange (rcbuffers impText noGarbage) := by
    intro buffer member wrap wrapped cp line blank parsed
    cases List.mem_singleton.mp (show buffer ∈ [impText] from member)
    cases blank
    cases parsed
    simp [Line.InRange, Operand.InRange, cwcoresize]
  have range2 : OperandsInRange (rcbuffers loopText noGarbage) := by
    intro buffer member wrap wrapped cp line blank parsed
    cases List.mem_singleton.mp (show buffer ∈ [loopText] from member)
    cases blank
    cases parsed
    simp [Line.InRange, Operand.InRange, cwcoresize]
  have plain1 : NoPredecrement (rcbuffers impText noGarbage) := by
    intro buffer member wrap wrapped cp line operand blank parsed given
    cases List.mem_singleton.mp (show buffer ∈ [impText] from member)
    cases blank
    cases parsed
    rcases given with same | same <;> cases same <;> decide
  have plain2 : NoPredecrement (rcbuffers loopText noGarbage) := by
    intro buffer member wrap wrapped cp line operand blank parsed given
    cases List.mem_singleton.mp (show buffer ∈ [loopText] from member)
    cases blank
    cases parsed
    rcases given with same | same <;> cases same
    decide
  obtain ⟨mars, accepted⟩ : ∃ mars, cwstart (rcbuffers impText noGarbage) (rcbuffers loopText noGarbage)
      ⟨0, by decide⟩ ⟨4000, by decide⟩ = .ok mars := by
    refine ⟨_, rfl⟩
  exact ⟨mars, accepted,
    cwloop_without_predecrement impText loopText noGarbage noGarbage _ _ mars pid0 range1 range2 plain1 plain2 accepted⟩

end OsZero.CoreWar

import OsZero.CoreWar.Safety

set_option autoImplicit false

namespace OsZero.CoreWar

open Runs

-- The magnitudes whose field lies inside the core: rcgetop keeps the low 16
-- bits of the magnitude, or of its difference from the core size.
def Operand.InRange (operand : Operand) : Prop :=
  if operand.sign then 1 ≤ operand.val % 65536 ∧ operand.val % 65536 ≤ cwcoresize else operand.val % 65536 < cwcoresize

def Line.InRange (line : Line) : Prop :=
  (∀ operand, line.aoperand = some operand → operand.InRange) ∧ ∀ operand, line.boperand = some operand → operand.InRange

def OperandsInRange (program : List (List Char)) : Prop :=
  ∀ buffer ∈ program, ∀ wrap wrapped cp line,
    rcblank wrap buffer = .ok (wrapped, cp) → rcparse cp = .ok line → line.InRange

theorem operand_field_in_core_iff (operand : Operand) : InCore operand.field.toNat ↔ operand.InRange := by
  unfold InCore Operand.field Operand.InRange cwcoresize
  rw [BitVec.toNat_ofInt]
  cases operand.sign <;> simp <;> omega

theorem operand_field_in_core (operand : Option Operand) (range : ∀ given, operand = some given → given.InRange) :
    InCore (operandField operand).toNat := by
  cases operand with
  | none => exact ⟨by decide, by decide⟩
  | some operand => exact (operand_field_in_core_iff operand).mpr (range operand rfl)

def InstrInCore (instr : Instr) : Prop := InCore instr.a.toNat ∧ InCore instr.b.toNat

theorem rcgetop_in_core (cp : List Char) (instr : Instr) (range : ∀ line, rcparse cp = .ok line → line.InRange)
    (parsed : rcgetop cp = .ok instr) : InstrInCore instr := by
  unfold rcgetop at parsed
  cases source : rcparse cp with
  | error stop => simp [source, bind, Except.bind] at parsed
  | ok line =>
      simp only [source, bind, Except.bind, Except.ok.injEq] at parsed
      subst parsed
      exact ⟨operand_field_in_core _ (range line source).1, operand_field_in_core _ (range line source).2⟩

structure XlateInCore (state : Xlate) : Prop where
  cells : ∀ cell, InstrInCore (state.optab cell)
  pc : InCore state.pc
  ret : state.ret < 0 ∨ InCore state.ret

theorem rcstore_in_core (pid : Fin 2) (instr : Instr) (state next : Xlate) (inside : XlateInCore state)
    (range : InstrInCore instr) (stored : rcstore pid instr state = .ok next) : XlateInCore next := by
  obtain ⟨cell, found, -⟩ := corecell_in_core _ inside.pc
  unfold rcstore at stored
  simp only [found, bind, Except.bind] at stored
  split at stored
  · cases stored
  · cases stored
    refine ⟨?_, next_in_core _ inside.pc, ?_⟩
    · intro other
      by_cases same : other = cell
      · subst same
        dsimp only
        rw [Function.update_self]
        exact range
      · simpa [same] using inside.cells other
    · dsimp only
      split
      · exact .inr inside.pc
      · exact inside.ret

-- What every stored instruction keeps, the whole translation keeps.
theorem rcloop_invariant (pid : Fin 2) (program : List (List Char)) (Fact : Xlate → Prop)
    (wraps : ∀ state wrap, Fact state → Fact { state with wrap := wrap })
    (stores : ∀ buffer ∈ program, ∀ wrap wrapped cp instr state next, rcblank wrap buffer = .ok (wrapped, cp) →
      rcgetop cp = .ok instr → Fact state → rcstore pid instr state = .ok next → Fact next)
    (state next : Xlate) (fact : Fact state) (translated : rcloop pid program state = .ok next) : Fact next := by
  induction program generalizing state with
  | nil =>
      cases translated
      exact fact
  | cons buffer program ih =>
      have rest := ih fun other member => stores other (List.mem_cons_of_mem _ member)
      unfold rcloop at translated
      cases blank : rcblank state.wrap buffer with
      | error stop => simp [blank, bind, Except.bind] at translated
      | ok skipped =>
          obtain ⟨wrap, cp⟩ := skipped
          have kept := wraps state wrap fact
          cases peeked : rcpeek cp with
          | error stop => simp [blank, peeked, bind, Except.bind] at translated
          | ok c =>
              simp only [blank, peeked, bind, Except.bind] at translated
              split at translated
              · exact rest _ kept translated
              · split at translated
                · cases parsed : rcgetop cp with
                  | error stop => simp [parsed] at translated
                  | ok instr =>
                      cases stored : rcstore pid instr { state with wrap := wrap } with
                      | error stop => simp [parsed, stored] at translated
                      | ok after =>
                          simp only [parsed, stored] at translated
                          exact rest _ (stores buffer (by simp) _ _ cp instr _ after blank parsed kept stored) translated
                · split at translated
                  · exact rest _ kept translated
                  · cases translated
                    exact kept

theorem rcloop_in_core (pid : Fin 2) (program : List (List Char)) (state next : Xlate) (inside : XlateInCore state)
    (range : OperandsInRange program) (translated : rcloop pid program state = .ok next) : XlateInCore next := by
  apply rcloop_invariant pid program XlateInCore ?_ ?_ state next inside translated
  · exact fun state wrap inside => ⟨inside.cells, inside.pc, inside.ret⟩
  · intro buffer member wrap wrapped cp instr state next blank parsed inside stored
    have instrRange := rcgetop_in_core cp instr (fun line source => range buffer member wrap wrapped cp line blank source) parsed
    exact rcstore_in_core pid instr state next inside instrRange stored

theorem one_process : (0 : Int) ≤ 0 ∧ (0 : Int) < 1 ∧ (1 : Int) ≤ cwnproc := by decide

theorem base_in_core (base : Fin cwcoresize) : InCore base.val := ⟨by omega, by exact_mod_cast base.isLt⟩

-- A game starts after two translations, each player with one process.
theorem cwstart_cases (program1 program2 : List (List Char)) (base1 base2 : Fin cwcoresize) (mars : Mars)
    (accepted : cwstart program1 program2 base1 base2 = .ok mars) :
    ∃ first second, rcxlate program1 pid0 base1 (fun _ => emptyCell) = .ok first ∧ ¬ first.ret < 0 ∧
      rcxlate program2 pid1 base2 first.optab = .ok second ∧ ¬ second.ret < 0 ∧ mars = ⟨second.optab,
        fun pid proc => if proc.val = 0 then (if pid = pid0 then first.ret else second.ret) else 0, fun _ => 1, fun _ => 0⟩ := by
  unfold cwstart at accepted
  cases one : rcxlate program1 pid0 base1 fun _ => emptyCell with
  | error stop => simp [one, bind, Except.bind] at accepted
  | ok first =>
      simp only [one, bind, Except.bind] at accepted
      split at accepted
      · cases accepted
      · rename_i firstRuns
        cases two : rcxlate program2 pid1 base2 first.optab with
        | error stop => simp [two] at accepted
        | ok second =>
            simp only [two] at accepted
            split at accepted
            · cases accepted
            · rename_i secondRuns
              cases accepted
              exact ⟨first, second, rfl, firstRuns, two, secondRuns, rfl⟩

theorem start_pcs (first second : Int) (one : InCore first) (two : InCore second) (pid : Fin 2) (proc : Fin cwnproc)
    (alive : (proc.val : Int) < 1) : InCore (if proc.val = 0 then (if pid = pid0 then first else second) else 0) := by
  rw [if_pos (by omega)]
  split
  · exact one
  · exact two

theorem cwstart_safe (program1 program2 : List (List Char)) (base1 base2 : Fin cwcoresize) (mars : Mars)
    (range1 : OperandsInRange program1) (range2 : OperandsInRange program2)
    (accepted : cwstart program1 program2 base1 base2 = .ok mars) : Safe mars := by
  obtain ⟨first, second, one, firstRuns, two, secondRuns, rfl⟩ := cwstart_cases program1 program2 base1 base2 mars accepted
  have zero : InstrInCore emptyCell := ⟨⟨by decide, by decide⟩, by decide, by decide⟩
  have before : (-1 : Int) < 0 := by decide
  have firstIn : XlateInCore first :=
    rcloop_in_core pid0 program1 ⟨_, base1, -1, false⟩ first ⟨fun _ => zero, base_in_core base1, .inl before⟩ range1 one
  have secondIn : XlateInCore second :=
    rcloop_in_core pid1 program2 ⟨_, base2, -1, false⟩ second ⟨firstIn.cells, base_in_core base2, .inl before⟩ range2 two
  refine ⟨secondIn.cells, fun _ => one_process, ?_⟩
  exact start_pcs first.ret second.ret (firstIn.ret.resolve_left firstRuns) (secondIn.ret.resolve_left secondRuns)

def GameSafe : Game → Prop
  | .running mars => Safe mars
  | .ended _ => True

def GameIndexes : Game → Fin 2 → Prop
  | .running mars, pid => IndexesInCore mars pid
  | .ended _, _ => True

def GameNonzero : Game → Fin 2 → Prop
  | .running mars, pid => StepNonzero mars pid
  | .ended _, _ => True

theorem cwstep_safe (game : Game) (pid : Fin 2) (safe : GameSafe game) (nonzero : GameNonzero game pid) :
    GameIndexes game pid ∧ ∃ next, cwstep game pid = some next ∧ GameSafe next := by
  cases game with
  | ended diagnostic => exact ⟨trivial, _, rfl, trivial⟩
  | running mars =>
      refine ⟨indexes_in_core mars pid safe nonzero, ?_⟩
      rcases cwexec_safe mars pid safe nonzero with ⟨diagnostic, ended⟩ | ⟨next, taken, nextSafe⟩
      · exact ⟨.ended diagnostic, by simp [cwstep, ended], trivial⟩
      · exact ⟨.running next, by simp [cwstep, taken], nextSafe⟩

-- Two accepted programs whose operands lie in the core run safely as long as
-- no operand counts down a B-field that is zero.
theorem cwexec_run_safe (file1 file2 : List Char) (garbage1 garbage2 : Nat → List Char) (base1 base2 : Fin cwcoresize)
    (mars : Mars) (pids : List (Fin 2))
    (range1 : OperandsInRange (rcbuffers file1 garbage1)) (range2 : OperandsInRange (rcbuffers file2 garbage2))
    (accepted : cwstart (rcbuffers file1 garbage1) (rcbuffers file2 garbage2) base1 base2 = .ok mars)
    (nonzero : Meets cwstep GameNonzero (.running mars) pids) :
    Holds cwstep GameSafe GameIndexes (.running mars) pids :=
  invariant_holds cwstep GameSafe GameIndexes GameNonzero cwstep_safe (.running mars) pids
    (cwstart_safe _ _ base1 base2 mars range1 range2 accepted) nonzero

theorem predecs_nonzero_without (mars : Mars) (op : Fin cwcoresize) (pc : Int)
    (first : (mars.optab op).aflg.predec = false) (second : (mars.optab op).bflg.predec = false) :
    PredecsNonzero mars op pc := by
  simp [PredecsNonzero, Nonzero, countdown, first, second]

def noGarbage : Nat → List Char := fun _ => []

def predecText : List Char := ['M', 'O', 'V', ' ', '0', ',', ' ', '<', '1', '\n']

def loopText : List Char := ['J', 'M', 'P', ' ', '0', '\n']

def impText : List Char := ['M', 'O', 'V', ' ', '0', ',', ' ', '1', '\n']

theorem cwexec_run_safe_imp :
    ∃ mars, cwstart (rcbuffers impText noGarbage) (rcbuffers loopText noGarbage) ⟨0, by decide⟩ ⟨4000, by decide⟩ = .ok mars ∧
      Holds cwstep GameSafe GameIndexes (.running mars) [0, 1] := by
  have range1 : OperandsInRange (rcbuffers impText noGarbage) := by
    intro buffer member wrap wrapped cp line blank parsed
    cases List.mem_singleton.mp (show buffer ∈ [impText] from member)
    cases blank
    cases parsed
    simp [Line.InRange, Operand.InRange, cwcoresize]
  have range2 : OperandsInRange (rcbuffers loopText noGarbage) := by
    intro buffer member wrap wrapped cp line blank parsed
    cases List.mem_singleton.mp (show buffer ∈ [loopText] from member)
    cases blank
    cases parsed
    simp [Line.InRange, Operand.InRange, cwcoresize]
  obtain ⟨mars, accepted, nonzero⟩ : ∃ mars, cwstart (rcbuffers impText noGarbage) (rcbuffers loopText noGarbage)
      ⟨0, by decide⟩ ⟨4000, by decide⟩ = .ok mars ∧ Meets cwstep GameNonzero (.running mars) [0, 1] := by
    refine ⟨_, rfl, ?_, ?_⟩
    · rintro op pc ⟨proc, found, rfl, cell⟩ -
      cases found
      cases cell
      exact predecs_nonzero_without _ _ _ rfl rfl
    · intro next taken
      cases taken
      refine ⟨?_, fun _ _ => trivial⟩
      rintro op pc ⟨proc, found, rfl, cell⟩ -
      cases found
      cases cell
      exact predecs_nonzero_without _ _ _ rfl rfl
  exact ⟨mars, accepted, cwexec_run_safe impText loopText noGarbage noGarbage _ _ mars _ range1 range2 accepted nonzero⟩

-- MOV 0, <1 in front of an empty cell at address 0 counts its zero B-field
-- down and addresses cell -1.
theorem predecrement_leaves_core :
    ∃ mars, cwstart (rcbuffers predecText noGarbage) (rcbuffers loopText noGarbage) ⟨0, by decide⟩ ⟨4000, by decide⟩ = .ok mars ∧
      ¬ Holds cwstep GameSafe GameIndexes (.running mars) [0] := by
  refine ⟨_, rfl, ?_⟩
  rintro ⟨-, -, next, taken, -⟩
  cases taken

end OsZero.CoreWar

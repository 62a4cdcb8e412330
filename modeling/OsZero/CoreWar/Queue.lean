import OsZero.CoreWar.Game

set_option autoImplicit false

namespace OsZero.CoreWar

open Runs

-- Where the instruction at pc sends its process, by what it sees after its
-- operands have been read. CMP and SLT may skip one instruction.
def Goes (seen : Mars) (op : Fin cwcoresize) (pc arg1 arg2 newpc : Int) : Prop :=
  match (seen.optab op).op with
  | .jmp => newpc = arg2
  | .jmz => ∀ target, corecell arg2 = .ok target → newpc = if seen.b target = 0 then arg1 else wrapcore (pc + 1)
  | .jmn => ∀ target, corecell arg2 = .ok target → newpc = if seen.b target ≠ 0 then arg1 else wrapcore (pc + 1)
  | .djn => ∀ counter, corecell (if (seen.optab op).bflg.imm then arg1 else arg2) = .ok counter →
      newpc = if cwborrow (seen.b counter - 1) ≠ 0 then arg1 else wrapcore (pc + 1)
  | .cmp => newpc = wrapcore (pc + 1) ∨ newpc = wrapcore (pc + 1 + 1)
  | .slt => newpc = wrapcore (pc + 1) ∨ newpc = wrapcore (pc + 1 + 1)
  | _ => newpc = wrapcore (pc + 1)

structure OthersKept (mars next : Mars) (pid : Fin 2) : Prop where
  runqtab : ∀ other, other ≠ pid → next.runqtab other = mars.runqtab other
  proccnt : ∀ other, other ≠ pid → next.proccnt other = mars.proccnt other
  curproc : ∀ other, other ≠ pid → next.curproc other = mars.curproc other

-- The running process goes to newpc and every other one stays where it is in
-- the queue; a split adds one process behind them.
structure Passes (mars next : Mars) (pid : Fin 2) (newpc : Int) (split : Option Int) : Prop where
  others : OthersKept mars next pid
  proccnt : next.proccnt pid = mars.proccnt pid + split.toList.length
  kept : ∀ proc : Fin cwnproc, (proc.val : Int) < mars.proccnt pid →
    next.runqtab pid proc = if (proc.val : Int) = mars.curproc pid then newpc else mars.runqtab pid proc
  added : ∀ target, split = some target → ∀ proc : Fin cwnproc, (proc.val : Int) = mars.proccnt pid → next.runqtab pid proc = target

-- The turn goes to the next entry of the queue, and from the last one to the first.
def PassesOn (mars next : Mars) (pid : Fin 2) : Prop :=
  next.curproc pid = if mars.curproc pid + 1 = next.proccnt pid then 0 else mars.curproc pid + 1

-- SPL stores the program counters of both halves itself, and cwexec leaves the turn where it is.
def Turns (mars next : Mars) (pid : Fin 2) (op : Opcode) : Prop :=
  if op = .spl then next.curproc pid = mars.curproc pid else PassesOn mars next pid

structure Removes (mars next : Mars) (pid : Fin 2) : Prop where
  others : OthersKept mars next pid
  proccnt : next.proccnt pid = mars.proccnt pid - 1
  before : ∀ proc : Fin cwnproc, (proc.val : Int) < mars.curproc pid → next.runqtab pid proc = mars.runqtab pid proc
  behind : ∀ proc after : Fin cwnproc, mars.curproc pid ≤ proc.val → (after.val : Int) = proc.val + 1 →
    (after.val : Int) < mars.proccnt pid → next.runqtab pid proc = mars.runqtab pid after
  turn : next.curproc pid = if mars.curproc pid = next.proccnt pid then 0 else mars.curproc pid

structure QueueStep (mars : Mars) (pid : Fin 2) : Prop where
  last : ∀ op pc, Executes mars pid op pc → (mars.optab op).op = .dat → mars.proccnt pid = 1 →
    ∃ diagnostic, cwexec mars pid = .error (.exit diagnostic)
  dies : ∀ op pc, Executes mars pid op pc → (mars.optab op).op = .dat → 1 < mars.proccnt pid →
    ∃ next, cwexec mars pid = .ok next ∧ Removes mars next pid
  runs : ∀ op pc, Executes mars pid op pc → (mars.optab op).op ≠ .dat →
    ∃ next seen arg1 arg2 newpc, cwexec mars pid = .ok next ∧ cwgetargs mars op pc = .ok (seen, arg1, arg2) ∧
      Goes seen op pc arg1 arg2 newpc ∧
      Passes mars next pid newpc (if (mars.optab op).op = .spl ∧ mars.proccnt pid < cwnproc then some arg2 else none) ∧
      Turns mars next pid (mars.optab op).op

-- The processes of a player run in turn, one instruction each.
def RoundRobin (mars : Mars) (pid : Fin 2) : Prop :=
  ∀ op pc, Executes mars pid op pc → (mars.optab op).op ≠ .dat → ∀ next, cwexec mars pid = .ok next → PassesOn mars next pid

def Unsplit (mars : Mars) (pid : Fin 2) : Prop := ∀ op pc, Executes mars pid op pc → (mars.optab op).op ≠ .spl

def GameQueue : Game → Fin 2 → Prop
  | .running mars, pid => QueueStep mars pid
  | .ended _, _ => True

def GameTurn : Game → Fin 2 → Prop
  | .running mars, pid => RoundRobin mars pid
  | .ended _, _ => True

def GameUnsplit : Game → Fin 2 → Prop
  | .running mars, pid => Unsplit mars pid
  | .ended _, _ => True

-- A taken jump also writes its target to the last entry of the queue.
def Lands (mars : Mars) (pid : Fin 2) (target : Int) : Prop :=
  mars.curproc pid = mars.proccnt pid - 1 ∨ ∀ last, runqcell (mars.proccnt pid - 1) = .ok last → mars.runqtab pid last = target

def Harmless (seen : Mars) (pid : Fin 2) (op : Fin cwcoresize) (pc arg1 arg2 : Int) : Prop :=
  match (seen.optab op).op with
  -- cwexec looks for SPL in the cell after the instruction has run
  | .mov => ((seen.optab op).aflg.imm = true ∧ (seen.optab op).bflg.imm = false) ∨ arg2 ≠ pc ∨
      ∀ source, corecell arg1 = .ok source → (seen.optab source).op ≠ .spl
  | .jmp => if seen.proccnt pid < cwnproc then Lands seen pid arg2 else arg2 = pc
  | .jmz => ∀ target, corecell arg2 = .ok target → seen.b target = 0 → Lands seen pid arg1
  | .jmn => ∀ target, corecell arg2 = .ok target → seen.b target ≠ 0 → Lands seen pid arg1
  | .djn => ∀ counter, corecell (if (seen.optab op).bflg.imm then arg1 else arg2) = .ok counter →
      cwborrow (seen.b counter - 1) ≠ 0 ∧ Lands seen pid arg1
  | _ => True

structure StepHarmless (mars : Mars) (pid : Fin 2) : Prop where
  dat : ∀ op pc, Executes mars pid op pc → (mars.optab op).op = .dat → mars.proccnt pid = 1
  origin : ∀ op, Executes mars pid op 0 → (mars.optab op).op ≠ .dat → PredecsNonzero mars op 0
  runs : ∀ op pc, Executes mars pid op pc → (mars.optab op).op ≠ .dat → ∀ seen arg1 arg2,
    cwgetargs mars op pc = .ok (seen, arg1, arg2) → Harmless seen pid op pc arg1 arg2

def GameHarmless : Game → Fin 2 → Prop
  | .running mars, pid => StepHarmless mars pid
  | .ended _, _ => True

structure Placed (mars : Mars) : Prop where
  procs : ∀ pid, 0 ≤ mars.curproc pid ∧ mars.curproc pid < mars.proccnt pid ∧ mars.proccnt pid ≤ cwnproc
  pcs : ∀ pid (proc : Fin cwnproc), (proc.val : Int) < mars.proccnt pid → InCore (mars.runqtab pid proc)

theorem cwgetargs_kept (mars : Mars) (op : Fin cwcoresize) (pc : Int) (inside : InCore pc)
    (origin : pc = 0 → PredecsNonzero mars op pc) :
    ∃ seen arg1 arg2, cwgetargs mars op pc = .ok (seen, arg1, arg2) ∧ InCore arg1 ∧ InCore arg2 ∧ Kept mars seen := by
  obtain ⟨middle, arg1, first, inside1, one, counted⟩ :=
    cwgetarg_kept mars _ _ pc (field_range mars op).1 inside fun zero => (origin zero).1
  have second : pc = 0 → Nonzero middle none (countdown (middle.optab op).bflg (middle.b op) pc) := by
    intro zero cell target
    have nonzero := origin zero
    rw [(one.flags op).2, counted nonzero.1 op] at target
    have distinct := nonzero.2 cell target
    rw [← counted nonzero.1 cell] at distinct
    simpa [countedB] using distinct
  obtain ⟨seen, arg2, read, inside2, two, -⟩ := cwgetarg_kept middle _ _ pc (field_range middle op).2.1 inside second
  refine ⟨seen, arg1, arg2, ?_, inside1, inside2, ?_⟩
  · unfold cwgetargs
    rw [first]
    simp only [bind, Except.bind]
    rw [read]
  · exact kept_trans mars middle seen one two

theorem corecell_at (index : Int) (cell : Fin cwcoresize) (found : corecell index = .ok cell) : (cell.val : Int) = index := by
  unfold corecell at found
  split at found
  · rename_i inside
    cases found
    exact Int.toNat_of_nonneg inside.1
  · cases found

-- What an instruction other than SPL may do to the queues before cwexec stores
-- the new program counter.
structure Frame (seen next : Mars) (pid : Fin 2) : Prop where
  proccnt : next.proccnt = seen.proccnt
  curproc : next.curproc = seen.curproc
  others : ∀ other, other ≠ pid → next.runqtab other = seen.runqtab other
  kept : ∀ entry : Fin cwnproc, (entry.val : Int) < seen.proccnt pid → (entry.val : Int) ≠ seen.curproc pid →
    next.runqtab pid entry = seen.runqtab pid entry

theorem frame_same (seen next : Mars) (pid : Fin 2) (proccnt : next.proccnt = seen.proccnt) (curproc : next.curproc = seen.curproc)
    (runqtab : next.runqtab = seen.runqtab) : Frame seen next pid :=
  ⟨proccnt, curproc, fun other _ => congrFun runqtab other, fun entry _ _ => congrFun (congrFun runqtab pid) entry⟩

theorem op_set_cell (mars : Mars) (cell other : Fin cwcoresize) (instr : Instr) (same : instr.op = (mars.optab cell).op) :
    ((mars.setCell cell instr).optab other).op = (mars.optab other).op := by
  by_cases here : other = cell
  · subst here
    simpa [Mars.setCell] using same
  · simp [Mars.setCell, here]

@[simp] theorem op_set_a (mars : Mars) (cell other : Fin cwcoresize) (value : Int) :
    ((mars.setA cell value).optab other).op = (mars.optab other).op := op_set_cell mars cell other _ rfl

@[simp] theorem op_set_b (mars : Mars) (cell other : Fin cwcoresize) (value : Int) :
    ((mars.setB cell value).optab other).op = (mars.optab other).op := op_set_cell mars cell other _ rfl

@[simp] theorem op_clear_sign (mars : Mars) (cell other : Fin cwcoresize) :
    ((mars.clearBSign cell).optab other).op = (mars.optab other).op := op_set_cell mars cell other _ rfl

theorem setproc_entry (mars : Mars) (pid : Fin 2) (proc entry : Fin cwnproc) (pc : Int) :
    (mars.setProc pid proc pc).runqtab pid entry = if entry = proc then pc else mars.runqtab pid entry := by
  by_cases here : entry = proc <;> simp [Mars.setProc, here]

theorem setproc_other (mars : Mars) (pid other : Fin 2) (proc : Fin cwnproc) (pc : Int) (different : other ≠ pid) :
    (mars.setProc pid proc pc).runqtab other = mars.runqtab other := by simp [Mars.setProc, different]

theorem entry_at (entry proc : Fin cwnproc) (index : Int) (place : (proc.val : Int) = index) :
    (entry.val : Int) = index ↔ entry = proc := by
  rw [Fin.ext_iff]
  omega

def Moves (seen : Mars) (pid : Fin 2) (op : Fin cwcoresize) (pc arg1 arg2 : Int) (result : Except Stop (Mars × Int)) : Prop :=
  ∃ next newpc, result = .ok (next, newpc) ∧ InCore newpc ∧ Goes seen op pc arg1 arg2 newpc ∧ Frame seen next pid ∧
    (next.optab op).op ≠ .spl

section Operations

variable (seen : Mars) (pid : Fin 2) (op : Fin cwcoresize) (pc arg1 arg2 : Int)

theorem moves_cell (index : Int) (rest : Fin cwcoresize → Except Stop (Mars × Int)) (inside : InCore index)
    (each : ∀ cell, corecell index = .ok cell → (cell.val : Int) = index → Moves seen pid op pc arg1 arg2 (rest cell)) :
    Moves seen pid op pc arg1 arg2 (corecell index >>= rest) := by
  obtain ⟨cell, found, same⟩ := corecell_in_core index inside
  rw [found]
  exact each cell found same

theorem moves_jump (next : Mars) (target : Int) (placed : Placed seen) (inside : InCore target) (lands : Lands seen pid target)
    (goes : Goes seen op pc arg1 arg2 target) (frame : Frame seen next pid) (runqtab : next.runqtab = seen.runqtab)
    (notSplit : (next.optab op).op ≠ .spl) : Moves seen pid op pc arg1 arg2 (cwjump next pid target) := by
  obtain ⟨low, below, bound⟩ := placed.procs pid
  obtain ⟨last, found, atEnd⟩ := runqcell_in_queue (seen.proccnt pid - 1) (by omega) (by omega)
  refine ⟨next.setProc pid last target, target, ?_, inside, goes, ⟨frame.proccnt, frame.curproc, ?_, ?_⟩, notSplit⟩
  · unfold cwjump
    rw [frame.proccnt, found]
    rfl
  · intro other different
    rw [setproc_other next pid other last target different, frame.others other different]
  · intro entry alive away
    rw [setproc_entry, runqtab]
    split
    · rename_i here
      subst here
      obtain same | written := lands
      · omega
      · exact (written entry found).symm
    · rfl

theorem moves_ok (next : Mars) (newpc : Int) (inside : InCore newpc) (goes : Goes seen op pc arg1 arg2 newpc)
    (proccnt : next.proccnt = seen.proccnt) (curproc : next.curproc = seen.curproc) (runqtab : next.runqtab = seen.runqtab)
    (notSplit : (next.optab op).op ≠ .spl) : Moves seen pid op pc arg1 arg2 (.ok (next, newpc)) :=
  ⟨next, _, rfl, inside, goes, frame_same seen next pid proccnt curproc runqtab, notSplit⟩

variable (mars : Mars) (found : corecell pc = .ok op) (args : cwgetargs mars op pc = .ok (seen, arg1, arg2)) (inside : InCore pc)
  (first : InCore arg1) (second : InCore arg2) (placed : Placed seen)

include found args

theorem moves_args (rest : Fin cwcoresize → Mars × Int × Int → Except Stop (Mars × Int))
    (moves : Moves seen pid op pc arg1 arg2 (rest op (seen, arg1, arg2))) :
    Moves seen pid op pc arg1 arg2 (corecell pc >>= fun op => cwgetargs mars op pc >>= rest op) := by
  rw [found]
  simp only [bind, Except.bind]
  rw [args]
  exact moves

include inside first second

theorem cwmovop_moves (code : (seen.optab op).op = .mov) (harmless : Harmless seen pid op pc arg1 arg2) :
    Moves seen pid op pc arg1 arg2 (cwmovop mars pid pc) := by
  have goes : Goes seen op pc arg1 arg2 (wrapcore (pc + 1)) := by simp [Goes, code]
  have ok := fun next => moves_ok seen pid op pc arg1 arg2 next _ (next_in_core pc inside) goes
  have atOp : (op.val : Int) = pc := corecell_at pc op found
  simp only [Harmless, code] at harmless
  refine moves_args seen pid op pc arg1 arg2 mars found args _ ?_
  refine moves_cell seen pid op pc arg1 arg2 arg2 _ second fun target _ atTarget => ?_
  split
  · exact ok _ rfl rfl rfl (by simp [code])
  · rename_i copies
    refine moves_cell seen pid op pc arg1 arg2 arg1 _ first fun source isSource _ => ?_
    apply ok (seen.setCell target (seen.optab source)) rfl rfl rfl
    by_cases same : op = target
    · subst same
      obtain kind | elsewhere | other := harmless
      · exact absurd ⟨kind.1, by simp [kind.2]⟩ copies
      · exact absurd (atTarget.symm.trans atOp) elsewhere
      · simpa [Mars.setCell] using other source isSource
    · simp [Mars.setCell, same, code]

theorem cwaddop_moves (code : (seen.optab op).op = .add) : Moves seen pid op pc arg1 arg2 (cwaddop mars pid pc) := by
  have goes : Goes seen op pc arg1 arg2 (wrapcore (pc + 1)) := by simp [Goes, code]
  have ok := fun next => moves_ok seen pid op pc arg1 arg2 next _ (next_in_core pc inside) goes
  refine moves_args seen pid op pc arg1 arg2 mars found args _ ?_
  dsimp only
  split
  · split
    · exact ok _ rfl rfl rfl (by simp [code])
    · refine moves_cell seen pid op pc arg1 arg2 arg2 _ second fun target _ _ => ?_
      exact ok _ rfl rfl rfl (by simp [code])
  · split
    · exact ok _ rfl rfl rfl (by simp [code])
    · refine moves_cell seen pid op pc arg1 arg2 arg1 _ first fun source _ _ => ?_
      refine moves_cell seen pid op pc arg1 arg2 arg2 _ second fun target _ _ => ?_
      exact ok _ rfl rfl rfl (by simp [code])

theorem cwsubop_moves (code : (seen.optab op).op = .sub) : Moves seen pid op pc arg1 arg2 (cwsubop mars pid pc) := by
  have goes : Goes seen op pc arg1 arg2 (wrapcore (pc + 1)) := by simp [Goes, code]
  have ok := fun next => moves_ok seen pid op pc arg1 arg2 next _ (next_in_core pc inside) goes
  refine moves_args seen pid op pc arg1 arg2 mars found args _ ?_
  dsimp only
  split
  · refine moves_cell seen pid op pc arg1 arg2 arg2 _ second fun target _ _ => ?_
    exact ok _ rfl rfl rfl (by simp [code])
  · refine moves_cell seen pid op pc arg1 arg2 arg1 _ first fun source _ _ => ?_
    refine moves_cell seen pid op pc arg1 arg2 arg2 _ second fun target _ _ => ?_
    exact ok _ rfl rfl rfl (by simp [code])

omit found args first second in
theorem skip_moves (skip : Prop) [Decidable skip] (code : (seen.optab op).op = .cmp ∨ (seen.optab op).op = .slt) :
    Moves seen pid op pc arg1 arg2 (.ok (seen, cwskip skip pc)) := by
  apply moves_ok seen pid op pc arg1 arg2 seen _ (skip_in_core skip pc inside) ?_ rfl rfl rfl ?_
  · unfold cwskip
    obtain code | code := code <;> simp only [Goes, code] <;> split <;> simp
  · obtain code | code := code <;> simp [code]

theorem cwcmpop_moves (code : (seen.optab op).op = .cmp) : Moves seen pid op pc arg1 arg2 (cwcmpop mars pid pc) := by
  refine moves_args seen pid op pc arg1 arg2 mars found args _ ?_
  dsimp only
  split
  · refine moves_cell seen pid op pc arg1 arg2 arg2 _ second fun target _ _ => ?_
    exact skip_moves seen pid op pc arg1 arg2 inside _ (.inl code)
  · refine moves_cell seen pid op pc arg1 arg2 arg1 _ first fun source _ _ => ?_
    refine moves_cell seen pid op pc arg1 arg2 arg2 _ second fun target _ _ => ?_
    exact skip_moves seen pid op pc arg1 arg2 inside _ (.inl code)

omit first in
theorem cwsltop_moves (code : (seen.optab op).op = .slt) : Moves seen pid op pc arg1 arg2 (cwsltop mars pid pc) := by
  refine moves_args seen pid op pc arg1 arg2 mars found args _ ?_
  refine moves_cell seen pid op pc arg1 arg2 arg2 _ second fun target _ _ => ?_
  dsimp only
  split <;> exact skip_moves seen pid op pc arg1 arg2 inside _ (.inr code)

include placed

omit first in
theorem cwjmpop_moves (code : (seen.optab op).op = .jmp) (harmless : Harmless seen pid op pc arg1 arg2) :
    Moves seen pid op pc arg1 arg2 (cwjmpop mars pid pc) := by
  have goes : Goes seen op pc arg1 arg2 arg2 := by simp [Goes, code]
  simp only [Harmless, code] at harmless
  refine moves_args seen pid op pc arg1 arg2 mars found args _ ?_
  dsimp only
  split
  · rename_i room
    rw [if_pos room] at harmless
    exact moves_jump seen pid op pc arg1 arg2 seen arg2 placed second harmless goes (frame_same seen seen pid rfl rfl rfl) rfl
      (by simp [code])
  · rename_i full
    rw [if_neg full] at harmless
    exact moves_ok seen pid op pc arg1 arg2 seen pc inside (harmless ▸ goes) rfl rfl rfl (by simp [code])

omit found args in
-- A jump that a test of the target's B-field decides.
theorem branch_moves (taken : Int → Prop) [DecidablePred taken] (notSplit : (seen.optab op).op ≠ .spl)
    (goes : ∀ newpc, Goes seen op pc arg1 arg2 newpc ↔
      ∀ target, corecell arg2 = .ok target → newpc = if taken (seen.b target) then arg1 else wrapcore (pc + 1))
    (lands : ∀ target, corecell arg2 = .ok target → taken (seen.b target) → Lands seen pid arg1) :
    Moves seen pid op pc arg1 arg2
      (corecell arg2 >>= fun target => if taken (seen.b target) then cwjump seen pid arg1 else .ok (seen, wrapcore (pc + 1))) := by
  refine moves_cell seen pid op pc arg1 arg2 arg2 _ second fun target isTarget _ => ?_
  have only : ∀ other, corecell arg2 = .ok other → other = target := fun other same => Except.ok.inj (same.symm.trans isTarget)
  split
  · next jumps =>
    refine moves_jump seen pid op pc arg1 arg2 seen arg1 placed first (lands target isTarget jumps) ((goes arg1).mpr fun other same => ?_)
      (frame_same seen seen pid rfl rfl rfl) rfl notSplit
    rw [only other same, if_pos jumps]
  · next stays =>
    refine moves_ok seen pid op pc arg1 arg2 seen _ (next_in_core pc inside) ((goes _).mpr fun other same => ?_) rfl rfl rfl notSplit
    rw [only other same, if_neg stays]

theorem cwjmzop_moves (code : (seen.optab op).op = .jmz) (harmless : Harmless seen pid op pc arg1 arg2) :
    Moves seen pid op pc arg1 arg2 (cwjmzop mars pid pc) := by
  simp only [Harmless, code] at harmless
  refine moves_args seen pid op pc arg1 arg2 mars found args _ ?_
  exact branch_moves seen pid op pc arg1 arg2 inside first second placed (· = 0) (by simp [code]) (fun _ => by simp only [Goes, code]) harmless

theorem cwjmnop_moves (code : (seen.optab op).op = .jmn) (harmless : Harmless seen pid op pc arg1 arg2) :
    Moves seen pid op pc arg1 arg2 (cwjmnop mars pid pc) := by
  simp only [Harmless, code] at harmless
  refine moves_args seen pid op pc arg1 arg2 mars found args _ ?_
  exact branch_moves seen pid op pc arg1 arg2 inside first second placed (· ≠ 0) (by simp [code]) (fun _ => by simp only [Goes, code]) harmless

omit inside in
theorem cwdjnop_moves (code : (seen.optab op).op = .djn) (harmless : Harmless seen pid op pc arg1 arg2) :
    Moves seen pid op pc arg1 arg2 (cwdjnop mars pid pc) := by
  simp only [Harmless, code] at harmless
  have addressed : InCore (if (seen.optab op).bflg.imm then arg1 else arg2) := by
    split
    · exact first
    · exact second
  refine moves_args seen pid op pc arg1 arg2 mars found args _ ?_
  refine moves_cell seen pid op pc arg1 arg2 _ _ addressed fun counter isCounter _ => ?_
  obtain ⟨nonzero, lands⟩ := harmless counter isCounter
  dsimp only
  rw [if_pos nonzero]
  apply moves_jump seen pid op pc arg1 arg2 (seen.setB counter (cwborrow (seen.b counter - 1))) arg1 placed first lands ?_
    (frame_same seen _ pid rfl rfl rfl) rfl (by simp [code])
  simp [Goes, code, isCounter, nonzero]

theorem cwfunctab_moves (notDat : (seen.optab op).op ≠ .dat) (notSplit : (seen.optab op).op ≠ .spl)
    (harmless : Harmless seen pid op pc arg1 arg2) : Moves seen pid op pc arg1 arg2 (cwfunctab (seen.optab op).op mars pid pc) := by
  cases code : (seen.optab op).op with
  | dat => exact absurd code notDat
  | mov => exact cwmovop_moves seen pid op pc arg1 arg2 mars found args inside first second code harmless
  | add => exact cwaddop_moves seen pid op pc arg1 arg2 mars found args inside first second code
  | sub => exact cwsubop_moves seen pid op pc arg1 arg2 mars found args inside first second code
  | jmp => exact cwjmpop_moves seen pid op pc arg1 arg2 mars found args inside second placed code harmless
  | jmz => exact cwjmzop_moves seen pid op pc arg1 arg2 mars found args inside first second placed code harmless
  | jmn => exact cwjmnop_moves seen pid op pc arg1 arg2 mars found args inside first second placed code harmless
  | cmp => exact cwcmpop_moves seen pid op pc arg1 arg2 mars found args inside first second code
  | slt => exact cwsltop_moves seen pid op pc arg1 arg2 mars found args inside second code
  | djn => exact cwdjnop_moves seen pid op pc arg1 arg2 mars found args first second placed code harmless
  | spl => exact absurd code notSplit

omit inside first second in
-- SPL stores the program counters of both halves itself.
theorem cwsplop_passes :
    ∃ next, cwsplop mars pid pc = .ok (next, wrapcore (pc + 1)) ∧ next.optab = seen.optab ∧ next.curproc = seen.curproc ∧
      Passes seen next pid (wrapcore (pc + 1)) (if seen.proccnt pid < cwnproc then some arg2 else none) := by
  obtain ⟨low, below, bound⟩ := placed.procs pid
  obtain ⟨cur, isCur, atCur⟩ := runqcell_in_queue (seen.curproc pid) low (by omega)
  unfold cwsplop
  rw [found]
  simp only [bind, Except.bind]
  rw [args]
  simp only [isCur]
  by_cases room : seen.proccnt pid < cwnproc
  · obtain ⟨last, isLast, atLast⟩ := runqcell_in_queue (seen.proccnt pid) (by omega) room
    rw [if_pos room, if_pos room]
    let split := (seen.setProc pid cur (wrapcore (pc + 1))).setProc pid last arg2
    refine ⟨{ split with proccnt := Function.update seen.proccnt pid (seen.proccnt pid + 1) }, by simp only [isLast]; rfl, rfl, rfl,
      ⟨?_, ?_, fun _ _ => rfl⟩, ?_, ?_, ?_⟩
    · intro other different
      exact (setproc_other _ pid other last arg2 different).trans (setproc_other seen pid other cur _ different)
    · intro other different
      simp [different]
    · simp
    · intro proc alive
      have apart : proc ≠ last := by
        intro same
        subst same
        omega
      simp only [entry_at proc cur _ atCur]
      exact (setproc_entry _ pid last proc arg2).trans ((if_neg apart).trans (setproc_entry seen pid cur proc _))
    · intro target same proc atEnd
      cases same
      exact (setproc_entry _ pid last proc arg2).trans (if_pos ((entry_at proc last _ atLast).mp atEnd))
  · rw [if_neg room, if_neg room]
    refine ⟨seen.setProc pid cur (wrapcore (pc + 1)), rfl, rfl, rfl, ⟨?_, fun _ _ => rfl, fun _ _ => rfl⟩, ?_, ?_, ?_⟩
    · exact fun other different => setproc_other seen pid other cur _ different
    · simp [Mars.setProc]
    · intro proc alive
      simp only [entry_at proc cur _ atCur]
      exact setproc_entry seen pid cur proc _
    · intro target same
      cases same

end Operations

theorem passes_placed (mars next : Mars) (pid : Fin 2) (newpc : Int) (split : Option Int) (placed : Placed mars)
    (passes : Passes mars next pid newpc split) (turn : next.curproc pid = mars.curproc pid ∨ PassesOn mars next pid) (inside : InCore newpc)
    (added : ∀ target, split = some target → InCore target)
    (room : ∀ target, split = some target → mars.proccnt pid < cwnproc) : Placed next := by
  obtain ⟨low, below, bound⟩ := placed.procs pid
  have cnt := passes.proccnt
  have fits : next.proccnt pid ≤ cwnproc := by
    cases split with
    | none => simpa [cnt] using bound
    | some target =>
        have less := room target rfl
        simp at cnt
        omega
  have grown : mars.proccnt pid ≤ next.proccnt pid := by omega
  constructor
  · intro other
    by_cases same : other = pid
    · subst same
      rw [PassesOn] at turn
      split at turn <;> omega
    · rw [passes.others.proccnt other same, passes.others.curproc other same]
      exact placed.procs other
  · intro other proc alive
    by_cases same : other = pid
    · subst same
      by_cases old : (proc.val : Int) < mars.proccnt other
      · rw [passes.kept proc old]
        split
        · exact inside
        · exact placed.pcs other proc old
      · cases split with
        | none =>
            simp at cnt
            omega
        | some target =>
            simp at cnt
            rw [passes.added target rfl proc (by omega)]
            exact added target rfl
    · rw [passes.others.proccnt other same] at alive
      rw [passes.others.runqtab other same]
      exact placed.pcs other proc alive

theorem cwexec_ends (mars next : Mars) (pid : Fin 2) (proc : Fin cwnproc) (op : Fin cwcoresize) (newpc : Int)
    (found : runqcell (mars.curproc pid) = .ok proc) (cell : corecell (mars.runqtab pid proc) = .ok op)
    (notDat : (mars.optab op).op ≠ .dat) (inside : InCore newpc)
    (result : cwfunctab (mars.optab op).op mars pid (mars.runqtab pid proc) = .ok (next, newpc)) :
    ((next.optab op).op ≠ .spl → cwexec mars pid = .ok { next.setProc pid proc newpc with
      curproc := Function.update next.curproc pid (if mars.curproc pid + 1 = next.proccnt pid then 0 else mars.curproc pid + 1) }) ∧
      ((next.optab op).op = .spl → cwexec mars pid = .ok { next with
        curproc := Function.update next.curproc pid (if mars.curproc pid = next.proccnt pid then 0 else mars.curproc pid) }) := by
  have filled : mars.optab op ≠ emptyCell := by
    intro empty
    exact notDat (by rw [empty]; rfl)
  have running : newpc ≠ cwnone := by
    unfold InCore at inside
    unfold cwnone
    omega
  unfold cwexec
  simp only [found, cell, bind, Except.bind, filled, if_false, result, running]
  constructor
  · intro notSplit
    rw [if_pos notSplit]
    rfl
  · intro isSplit
    rw [if_neg (by simp [isSplit])]

theorem frame_passes (mars seen next : Mars) (pid : Fin 2) (proc : Fin cwnproc) (newpc : Int) (kept : Kept mars seen)
    (frame : Frame seen next pid) (atCur : (proc.val : Int) = mars.curproc pid) :
    Passes mars { next.setProc pid proc newpc with
      curproc := Function.update next.curproc pid (if mars.curproc pid + 1 = next.proccnt pid then 0 else mars.curproc pid + 1) }
      pid newpc none := by
  obtain ⟨cnt, cur, runq⟩ := kept.queue
  refine ⟨⟨?_, ?_, ?_⟩, ?_, ?_, ?_⟩
  · intro other different
    exact (setproc_other next pid other proc newpc different).trans ((frame.others other different).trans (congrFun runq other))
  · intro other _
    exact (congrFun frame.proccnt other).trans (congrFun cnt other)
  · intro other different
    simp [different, frame.curproc, cur]
  · simp [Mars.setProc, frame.proccnt, cnt]
  · intro entry alive
    refine (setproc_entry next pid proc entry newpc).trans ?_
    simp only [entry_at entry proc _ atCur]
    split
    · rfl
    · rename_i away
      have stays := frame.kept entry (by rw [cnt]; exact alive) (by rw [cur, Ne, entry_at entry proc _ atCur]; exact away)
      rw [stays, runq]
  · intro target same
    cases same

theorem passes_seen (mars seen next : Mars) (pid : Fin 2) (newpc : Int) (split : Option Int) (kept : Kept mars seen)
    (passes : Passes seen next pid newpc split) : Passes mars next pid newpc split := by
  obtain ⟨cnt, cur, runq⟩ := kept.queue
  obtain ⟨⟨runqtab, proccnt, curproc⟩, count, entries, added⟩ := passes
  rw [cnt] at proccnt count entries added
  rw [cur] at curproc entries
  rw [runq] at runqtab entries
  exact ⟨⟨runqtab, proccnt, curproc⟩, count, entries, added⟩

structure Reads (mars : Mars) (pid : Fin 2) (op : Fin cwcoresize) (proc : Fin cwnproc) (seen : Mars) (arg1 arg2 : Int) : Prop where
  found : runqcell (mars.curproc pid) = .ok proc
  atCur : (proc.val : Int) = mars.curproc pid
  cell : corecell (mars.runqtab pid proc) = .ok op
  inside : InCore (mars.runqtab pid proc)
  args : cwgetargs mars op (mars.runqtab pid proc) = .ok (seen, arg1, arg2)
  first : InCore arg1
  second : InCore arg2
  kept : Kept mars seen
  placed : Placed seen

theorem step_reads (mars : Mars) (pid : Fin 2) (placed : Placed mars) (op : Fin cwcoresize) (pc : Int)
    (executes : Executes mars pid op pc) (notDat : (mars.optab op).op ≠ .dat) (harmless : StepHarmless mars pid) :
    ∃ proc seen arg1 arg2, mars.runqtab pid proc = pc ∧ Reads mars pid op proc seen arg1 arg2 := by
  obtain ⟨low, below, bound⟩ := placed.procs pid
  obtain ⟨proc, found, rfl, cell⟩ := id executes
  have atCur : (proc.val : Int) = mars.curproc pid := by
    obtain ⟨same, again, place⟩ := runqcell_in_queue (mars.curproc pid) low (by omega)
    cases found.symm.trans again
    exact place
  have inside := placed.pcs pid proc (by omega)
  have origin : mars.runqtab pid proc = 0 → PredecsNonzero mars op (mars.runqtab pid proc) := by
    intro zero
    rw [zero] at executes ⊢
    exact harmless.origin op executes notDat
  obtain ⟨seen, arg1, arg2, args, first, second, kept⟩ := cwgetargs_kept mars op _ inside origin
  obtain ⟨cnt, cur, runq⟩ := kept.queue
  have seenPlaced : Placed seen := ⟨by rw [cnt, cur]; exact placed.procs, by rw [cnt, runq]; exact placed.pcs⟩
  exact ⟨proc, seen, arg1, arg2, rfl, found, atCur, cell, inside, args, first, second, kept, seenPlaced⟩

theorem split_passes (mars seen : Mars) (pid : Fin 2) (op : Fin cwcoresize) (proc : Fin cwnproc) (arg1 arg2 : Int)
    (placed : Placed mars) (reads : Reads mars pid op proc seen arg1 arg2) (isSplit : (mars.optab op).op = .spl) :
    ∃ next, cwexec mars pid = .ok next ∧ Placed next ∧ next.curproc pid = mars.curproc pid ∧
      Passes mars next pid (wrapcore (mars.runqtab pid proc + 1)) (if mars.proccnt pid < cwnproc then some arg2 else none) := by
  obtain ⟨low, below, bound⟩ := placed.procs pid
  have onward := next_in_core _ reads.inside
  obtain ⟨next, result, optab, turn, passes⟩ := cwsplop_passes seen pid op _ arg1 arg2 mars reads.cell reads.args reads.placed
  have through := passes_seen mars seen next pid _ _ reads.kept passes
  rw [reads.kept.queue.1] at through
  have table : cwfunctab (mars.optab op).op mars pid (mars.runqtab pid proc) = .ok (next, wrapcore (mars.runqtab pid proc + 1)) := by
    rw [isSplit]
    exact result
  have ends := (cwexec_ends mars next pid proc op _ reads.found reads.cell (by simp [isSplit]) onward table).2
    (by rw [optab, reads.kept.op op, isSplit])
  have stays : Function.update next.curproc pid (if mars.curproc pid = next.proccnt pid then 0 else mars.curproc pid) =
      next.curproc := by
    have count := through.proccnt
    rw [if_neg (by omega), ← congrFun reads.kept.queue.2.1 pid, ← turn, Function.update_eq_self]
  rw [stays] at ends
  have same : next.curproc pid = mars.curproc pid := by rw [turn, reads.kept.queue.2.1]
  refine ⟨next, ends, passes_placed mars next pid _ _ placed through (.inl same) onward ?_ ?_, same, through⟩
  · intro target same
    split at same
    · cases same
      exact reads.second
    · cases same
  · intro target same
    split at same
    · assumption
    · cases same

theorem plain_passes (mars seen : Mars) (pid : Fin 2) (op : Fin cwcoresize) (proc : Fin cwnproc) (arg1 arg2 : Int)
    (placed : Placed mars) (reads : Reads mars pid op proc seen arg1 arg2) (notDat : (mars.optab op).op ≠ .dat)
    (notSplit : (mars.optab op).op ≠ .spl) (harmless : Harmless seen pid op (mars.runqtab pid proc) arg1 arg2) :
    ∃ next newpc, cwexec mars pid = .ok next ∧ Goes seen op (mars.runqtab pid proc) arg1 arg2 newpc ∧ Placed next ∧
      PassesOn mars next pid ∧ Passes mars next pid newpc none := by
  have code := reads.kept.op op
  obtain ⟨next, newpc, result, inside, goes, frame, still⟩ := cwfunctab_moves seen pid op _ arg1 arg2 mars reads.cell reads.args
    reads.inside reads.first reads.second reads.placed (by rw [code]; exact notDat) (by rw [code]; exact notSplit) harmless
  rw [code] at result
  have ends := (cwexec_ends mars next pid proc op newpc reads.found reads.cell notDat inside result).1 still
  have passes := frame_passes mars seen next pid proc newpc reads.kept frame reads.atCur
  have onward : PassesOn mars { next.setProc pid proc newpc with
      curproc := Function.update next.curproc pid (if mars.curproc pid + 1 = next.proccnt pid then 0 else mars.curproc pid + 1) } pid :=
    Function.update_self _ _ _
  refine ⟨_, newpc, ends, goes, ?_, onward, passes⟩
  exact passes_placed mars _ pid newpc none placed passes (.inr onward) inside (fun _ same => by cases same) fun _ same => by cases same

theorem runs_passes (mars : Mars) (pid : Fin 2) (placed : Placed mars) (op : Fin cwcoresize) (pc : Int)
    (executes : Executes mars pid op pc) (notDat : (mars.optab op).op ≠ .dat) (harmless : StepHarmless mars pid) :
    ∃ next seen arg1 arg2 newpc, cwexec mars pid = .ok next ∧ cwgetargs mars op pc = .ok (seen, arg1, arg2) ∧
      Goes seen op pc arg1 arg2 newpc ∧ Placed next ∧
      Passes mars next pid newpc (if (mars.optab op).op = .spl ∧ mars.proccnt pid < cwnproc then some arg2 else none) ∧
      Turns mars next pid (mars.optab op).op := by
  obtain ⟨proc, seen, arg1, arg2, rfl, reads⟩ := step_reads mars pid placed op pc executes notDat harmless
  by_cases isSplit : (mars.optab op).op = .spl
  · obtain ⟨next, result, nextPlaced, stays, passes⟩ := split_passes mars seen pid op proc arg1 arg2 placed reads isSplit
    refine ⟨next, seen, arg1, arg2, _, result, reads.args, ?_, nextPlaced, by simpa [isSplit] using passes, ?_⟩
    · simp [Goes, reads.kept.op op, isSplit]
    · rw [Turns, if_pos isSplit]
      exact stays
  · have safe := harmless.runs op _ executes notDat seen arg1 arg2 reads.args
    obtain ⟨next, newpc, result, goes, nextPlaced, onward, passes⟩ :=
      plain_passes mars seen pid op proc arg1 arg2 placed reads notDat isSplit safe
    refine ⟨next, seen, arg1, arg2, newpc, result, reads.args, goes, nextPlaced, by simpa [isSplit] using passes, ?_⟩
    rw [Turns, if_neg isSplit]
    exact onward

theorem dat_ends (mars : Mars) (pid : Fin 2) (op : Fin cwcoresize) (pc : Int) (executes : Executes mars pid op pc)
    (dat : (mars.optab op).op = .dat) : ∃ diagnostic, cwexec mars pid = .error (.exit diagnostic) := by
  obtain ⟨proc, found, rfl, cell⟩ := executes
  unfold cwexec
  simp only [found, cell, bind, Except.bind]
  split
  · exact ⟨_, rfl⟩
  · rw [dat]
    exact ⟨_, rfl⟩

theorem queue_step (mars : Mars) (pid : Fin 2) (placed : Placed mars) (harmless : StepHarmless mars pid) : QueueStep mars pid := by
  refine ⟨fun op pc executes dat _ => dat_ends mars pid op pc executes dat, ?_, ?_⟩
  · intro op pc executes dat many
    have one := harmless.dat op pc executes dat
    omega
  · intro op pc executes notDat
    obtain ⟨next, seen, arg1, arg2, newpc, result, args, goes, -, passes, turns⟩ :=
      runs_passes mars pid placed op pc executes notDat harmless
    exact ⟨next, seen, arg1, arg2, newpc, result, args, goes, passes, turns⟩

-- A split leaves two processes or a full queue, so the turn that it keeps is not the next one.
theorem round_robin_iff (mars : Mars) (pid : Fin 2) (placed : Placed mars) (step : QueueStep mars pid) :
    RoundRobin mars pid ↔ Unsplit mars pid := by
  obtain ⟨low, below, bound⟩ := placed.procs pid
  constructor
  · intro robin op pc executes isSplit
    have notDat : (mars.optab op).op ≠ .dat := by simp [isSplit]
    obtain ⟨next, seen, arg1, arg2, newpc, result, -, -, passes, turns⟩ := step.runs op pc executes notDat
    have onward := robin op pc executes notDat next result
    have count := passes.proccnt
    rw [Turns, if_pos isSplit] at turns
    rw [PassesOn, turns] at onward
    split at onward
    · rename_i last
      by_cases room : mars.proccnt pid < cwnproc
      · rw [if_pos ⟨isSplit, room⟩] at count
        simp only [Option.toList_some, List.length_singleton] at count
        omega
      · have many : 1024 ≤ mars.proccnt pid := Int.not_lt.mp room
        omega
    · omega
  · intro unsplit op pc executes notDat next ran
    obtain ⟨other, seen, arg1, arg2, newpc, result, -, -, -, turns⟩ := step.runs op pc executes notDat
    cases ran.symm.trans result
    rw [Turns, if_neg (unsplit op pc executes)] at turns
    exact turns

def GamePlaced : Game → Prop
  | .running mars => Placed mars
  | .ended _ => True

theorem cwstep_placed (game : Game) (pid : Fin 2) (placed : GamePlaced game) (harmless : GameHarmless game pid) :
    GameQueue game pid ∧ ∃ next, cwstep game pid = some next ∧ GamePlaced next := by
  cases game with
  | ended diagnostic => exact ⟨trivial, _, rfl, trivial⟩
  | running mars =>
      refine ⟨queue_step mars pid placed harmless, ?_⟩
      obtain ⟨op, pc, executes, -⟩ := executes_somewhere mars pid (placed.procs pid) (placed.pcs pid)
      by_cases dat : (mars.optab op).op = .dat
      · obtain ⟨diagnostic, ended⟩ := dat_ends mars pid op pc executes dat
        exact ⟨.ended diagnostic, by simp [cwstep, ended], trivial⟩
      · obtain ⟨next, seen, arg1, arg2, newpc, result, -, -, nextPlaced, -, -⟩ :=
          runs_passes mars pid placed op pc executes dat harmless
        exact ⟨.running next, by simp [cwstep, result], nextPlaced⟩

def XlatePlaced (state : Xlate) : Prop := InCore state.pc ∧ (state.ret < 0 ∨ InCore state.ret)

theorem rcxlate_placed (program : List (List Char)) (pid : Fin 2) (base : Fin cwcoresize) (optab : Fin cwcoresize → Instr)
    (next : Xlate) (translated : rcxlate program pid base optab = .ok next) : XlatePlaced next := by
  apply rcloop_invariant pid program XlatePlaced ?_ ?_ ⟨optab, base, -1, false⟩ next ?_ translated
  · exact fun state wrap placed => placed
  · intro buffer _ wrap wrapped cp instr state next _ _ placed stored
    obtain ⟨cell, found, -⟩ := corecell_in_core _ placed.1
    unfold rcstore at stored
    simp only [found, bind, Except.bind] at stored
    split at stored
    · cases stored
    · cases stored
      refine ⟨next_in_core _ placed.1, ?_⟩
      dsimp only
      split
      · exact .inr placed.1
      · exact placed.2
  · exact ⟨base_in_core base, .inl (show (-1 : Int) < 0 by decide)⟩

theorem cwstart_placed (program1 program2 : List (List Char)) (base1 base2 : Fin cwcoresize) (mars : Mars)
    (accepted : cwstart program1 program2 base1 base2 = .ok mars) : Placed mars := by
  obtain ⟨first, second, one, firstRuns, two, secondRuns, rfl⟩ := cwstart_cases program1 program2 base1 base2 mars accepted
  have firstIn := (rcxlate_placed program1 pid0 base1 _ first one).2.resolve_left firstRuns
  have secondIn := (rcxlate_placed program2 pid1 base2 _ second two).2.resolve_left secondRuns
  exact ⟨fun _ => one_process, start_pcs first.ret second.ret firstIn secondIn⟩

theorem game_turn_iff (game : Game) (pid : Fin 2) (placed : GamePlaced game) (queue : GameQueue game pid) :
    GameTurn game pid ↔ GameUnsplit game pid := by
  cases game with
  | ended diagnostic => exact Iff.rfl
  | running mars => exact round_robin_iff mars pid placed queue

-- Each step changes the queues as it should, but SPL keeps the turn.
theorem cwexec_run_queues (file1 file2 : List Char) (garbage1 garbage2 : Nat → List Char) (base1 base2 : Fin cwcoresize)
    (mars : Mars) (pids : List (Fin 2))
    (accepted : cwstart (rcbuffers file1 garbage1) (rcbuffers file2 garbage2) base1 base2 = .ok mars)
    (harmless : Meets cwstep GameHarmless (.running mars) pids) :
    Holds cwstep GamePlaced GameQueue (.running mars) pids ∧
      (Holds cwstep GamePlaced (fun game pid => GameQueue game pid ∧ GameTurn game pid) (.running mars) pids ↔
        Meets cwstep GameUnsplit (.running mars) pids) := by
  have start := cwstart_placed _ _ base1 base2 mars accepted
  refine ⟨invariant_holds cwstep GamePlaced GameQueue GameHarmless cwstep_placed (.running mars) pids start harmless, ?_⟩
  refine holds_iff_invariant cwstep GamePlaced GamePlaced _ GameUnsplit GameHarmless (fun _ placed => placed) ?_ ?_ (.running mars) pids start harmless
  · intro game pid placed safe unsplit
    obtain ⟨queue, next⟩ := cwstep_placed game pid placed safe
    exact ⟨⟨queue, (game_turn_iff game pid placed queue).mpr unsplit⟩, next⟩
  · intro game pid next placed _ each _ _
    exact (game_turn_iff game pid placed each.1).mp each.2

-- SPL 2 leaves player 1 with the processes 1 and 2.
def workersText : List Char :=
  ['S', 'P', 'L', ' ', '2', '\n', 'A', 'D', 'D', ' ', '5', ',', ' ', '7', '\n', 'A', 'D', 'D', ' ', '5', ',', ' ', '7', '\n']

theorem cwexec_run_queues_workers :
    ∃ mars, cwstart (rcbuffers workersText noGarbage) (rcbuffers loopText noGarbage) ⟨0, by decide⟩ ⟨4000, by decide⟩ = .ok mars ∧
      Holds cwstep GamePlaced GameQueue (.running mars) [0, 0, 1] ∧
      ¬ Holds cwstep GamePlaced (fun game pid => GameQueue game pid ∧ GameTurn game pid) (.running mars) [0, 0, 1] := by
  obtain ⟨mars, accepted, harmless, splits⟩ : ∃ mars, cwstart (rcbuffers workersText noGarbage) (rcbuffers loopText noGarbage)
      ⟨0, by decide⟩ ⟨4000, by decide⟩ = .ok mars ∧ Meets cwstep GameHarmless (.running mars) [0, 0, 1] ∧ ¬ Unsplit mars 0 := by
    refine ⟨_, rfl, ⟨⟨?_, ?_, ?_⟩, ?_⟩, fun unsplit => unsplit ⟨0, by decide⟩ 0 ⟨⟨0, by decide⟩, rfl, rfl, rfl⟩ rfl⟩
    · rintro op pc ⟨proc, found, rfl, cell⟩ dat
      cases found
      cases cell
      cases dat
    · rintro op ⟨proc, found, here, cell⟩ -
      cases cell
      exact predecs_nonzero_without _ _ _ rfl rfl
    · rintro op pc ⟨proc, found, rfl, cell⟩ - seen arg1 arg2 args
      cases found
      cases cell
      cases args
      exact trivial
    · intro next taken
      cases taken
      refine ⟨⟨?_, ?_, ?_⟩, ?_⟩
      · rintro op pc ⟨proc, found, rfl, cell⟩ dat
        cases found
        cases cell
        cases dat
      · rintro op ⟨proc, found, here, cell⟩ -
        cases found
        cases here
      · rintro op pc ⟨proc, found, rfl, cell⟩ - seen arg1 arg2 args
        cases found
        cases cell
        cases args
        exact trivial
      · intro next taken
        cases taken
        refine ⟨⟨fun _ _ _ _ => rfl, ?_, ?_⟩, fun _ _ => trivial⟩
        · rintro op ⟨proc, found, here, cell⟩ -
          cases found
          cases here
        · rintro op pc ⟨proc, found, rfl, cell⟩ - seen arg1 arg2 args
          cases found
          cases cell
          cases args
          exact .inl rfl
  have queues := cwexec_run_queues workersText loopText noGarbage noGarbage _ _ mars _ accepted harmless
  exact ⟨mars, accepted, queues.1, fun turns => splits (queues.2.mp turns).1⟩

-- A jump that another process than the last one takes redirects that last one.
theorem jump_redirects (mars seen : Mars) (pid : Fin 2) (proc last : Fin cwnproc) (op : Fin cwcoresize) (arg1 arg2 : Int)
    (found : runqcell (mars.curproc pid) = .ok proc) (cell : corecell (mars.runqtab pid proc) = .ok op)
    (jmp : (mars.optab op).op = .jmp) (args : cwgetargs mars op (mars.runqtab pid proc) = .ok (seen, arg1, arg2))
    (still : (seen.optab op).op = .jmp) (room : seen.proccnt pid < cwnproc) (isLast : runqcell (seen.proccnt pid - 1) = .ok last)
    (alive : (last.val : Int) < mars.proccnt pid) (away : (last.val : Int) ≠ mars.curproc pid) (inside : InCore arg2)
    (differs : mars.runqtab pid last ≠ arg2) : ¬ QueueStep mars pid := by
  intro step
  obtain ⟨next, _, _, _, newpc, result, _, _, passes, -⟩ := step.runs op _ ⟨proc, found, rfl, cell⟩ (by simp [jmp])
  have jumped : cwfunctab (mars.optab op).op mars pid (mars.runqtab pid proc) = .ok (seen.setProc pid last arg2, arg2) := by
    rw [jmp]
    unfold cwfunctab cwjmpop
    simp only [cell, args, bind, Except.bind, if_pos room]
    unfold cwjump
    simp only [isLast, bind, Except.bind]
  have ends := (cwexec_ends mars _ pid proc op arg2 found cell (by simp [jmp]) inside jumped).1 (by simp [Mars.setProc, still])
  cases result.symm.trans ends
  have second := passes.kept last alive
  rw [if_neg away] at second
  apply differs
  rw [← second]
  by_cases same : last = proc <;> simp [Mars.setProc, same]

def splitText : List Char :=
  ['S', 'P', 'L', ' ', '2', '\n', 'J', 'M', 'P', ' ', '0', '\n', 'J', 'M', 'P', ' ', '0', '\n']

-- SPL 2 leaves one process on each JMP 0, and the turn with the first one, whose
-- jump moves the second one from address 2 to address 1.
theorem jump_moves_another :
    ∃ mars, cwstart (rcbuffers splitText noGarbage) (rcbuffers loopText noGarbage) ⟨0, by decide⟩ ⟨4000, by decide⟩ = .ok mars ∧
      ¬ Holds cwstep GamePlaced GameQueue (.running mars) [0, 0] ∧
      ¬ Holds cwstep GamePlaced (fun game pid => GameQueue game pid ∧ GameTurn game pid) (.running mars) [0] := by
  refine ⟨_, rfl, ?_, ?_⟩
  · rintro ⟨-, -, next, taken, -, step, -⟩
    cases taken
    refine jump_redirects _ _ _ ⟨0, by decide⟩ ⟨1, by decide⟩ ⟨1, by decide⟩ _ _ rfl rfl rfl rfl rfl ?_ rfl ?_ ?_ ⟨?_, ?_⟩ ?_ step
    all_goals decide
  · rintro ⟨-, ⟨-, turn⟩, -⟩
    cases turn ⟨0, by decide⟩ 0 ⟨⟨0, by decide⟩, rfl, rfl, rfl⟩ (by decide) _ rfl

end OsZero.CoreWar

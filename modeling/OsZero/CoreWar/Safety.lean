import OsZero.CoreWar.Redcode
import OsZero.Lib.Runs

set_option autoImplicit false

namespace OsZero.CoreWar

open Runs

def InCore (index : Int) : Prop := 0 ≤ index ∧ index < cwcoresize

structure Safe (mars : Mars) : Prop where
  fields : ∀ cell, InCore (mars.a cell) ∧ InCore (mars.b cell)
  procs : ∀ pid, 0 ≤ mars.curproc pid ∧ mars.curproc pid < mars.proccnt pid ∧ mars.proccnt pid ≤ cwnproc
  pcs : ∀ pid (proc : Fin cwnproc), (proc.val : Int) < mars.proccnt pid → InCore (mars.runqtab pid proc)

theorem corecell_in_core (index : Int) (inside : InCore index) : ∃ cell, corecell index = .ok cell ∧ (cell.val : Int) = index := by
  refine ⟨_, dif_pos inside, ?_⟩
  exact Int.toNat_of_nonneg inside.1

theorem runqcell_in_queue (index : Int) (low : 0 ≤ index) (high : index < cwnproc) :
    ∃ proc, runqcell index = .ok proc ∧ (proc.val : Int) = index := by
  refine ⟨_, dif_pos ⟨low, high⟩, ?_⟩
  exact Int.toNat_of_nonneg low

theorem wrapcore_in_core (value : Int) (nonneg : 0 ≤ value) : InCore (wrapcore value) := by
  unfold InCore wrapcore cwcoresize
  rw [Int.tmod_eq_emod_of_nonneg nonneg]
  omega

theorem cwborrow_in_core (a b : Int) (left : InCore a) (right : InCore b) : InCore (cwborrow (a - b)) := by
  unfold InCore cwborrow cwcoresize at *
  split <;> omega

theorem field_in_core (value : Int) (inside : InCore value) : ((BitVec.ofInt 16 value).toNat : Int) = value := by
  unfold InCore cwcoresize at inside
  rw [BitVec.toNat_ofInt]
  omega

theorem skip_in_core (skip : Prop) [Decidable skip] (pc : Int) (inside : InCore pc) : InCore (cwskip skip pc) := by
  unfold cwskip
  apply wrapcore_in_core
  unfold InCore at inside
  split <;> omega

theorem safe_set_cell (mars : Mars) (cell : Fin cwcoresize) (instr : Instr) (safe : Safe mars)
    (a : InCore instr.a.toNat) (b : InCore instr.b.toNat) : Safe (mars.setCell cell instr) := by
  refine ⟨?_, safe.procs, safe.pcs⟩
  intro other
  by_cases same : other = cell
  · subst same
    simpa [Mars.setCell, Mars.a, Mars.b] using ⟨a, b⟩
  · simpa [Mars.setCell, Mars.a, Mars.b, same] using safe.fields other

theorem safe_set_a (mars : Mars) (cell : Fin cwcoresize) (value : Int) (safe : Safe mars) (inside : InCore value) :
    Safe (mars.setA cell value) := by
  apply safe_set_cell mars cell _ safe
  · simpa only [field_in_core value inside] using inside
  · exact (safe.fields cell).2

theorem safe_set_b (mars : Mars) (cell : Fin cwcoresize) (value : Int) (safe : Safe mars) (inside : InCore value) :
    Safe (mars.setB cell value) := by
  apply safe_set_cell mars cell _ safe
  · exact (safe.fields cell).1
  · simpa only [field_in_core value inside] using inside

theorem safe_clear_sign (mars : Mars) (cell : Fin cwcoresize) (safe : Safe mars) : Safe (mars.clearBSign cell) :=
  safe_set_cell mars cell _ safe (safe.fields cell).1 (safe.fields cell).2

theorem safe_set_proc (mars : Mars) (pid : Fin 2) (proc : Fin cwnproc) (pc : Int) (safe : Safe mars)
    (inside : InCore pc) : Safe (mars.setProc pid proc pc) := by
  refine ⟨safe.fields, safe.procs, ?_⟩
  intro other entry alive
  by_cases same : other = pid
  · subst same
    by_cases here : entry = proc
    · subst here
      simpa [Mars.setProc] using inside
    · simpa [Mars.setProc, here] using safe.pcs other entry alive
  · simpa [Mars.setProc, same] using safe.pcs other entry alive

def countdown (flg : Flags) (field pc : Int) : Option Int :=
  if flg.imm = false ∧ flg.predec = true then some (wrapcore (pc + field)) else none

def countedB (mars : Mars) (down : Option Int) (cell : Fin cwcoresize) : Int :=
  if down = some (cell.val : Int) then mars.b cell - 1 else mars.b cell

def Nonzero (mars : Mars) (down : Option Int) (target : Option Int) : Prop :=
  ∀ cell : Fin cwcoresize, target = some (cell.val : Int) → countedB mars down cell ≠ 0

-- The two operands are checked in the order in which the source reads them:
-- the second one sees the field that the first one counted down.
def PredecsNonzero (mars : Mars) (op : Fin cwcoresize) (pc : Int) : Prop :=
  let down := countdown (mars.optab op).aflg (mars.a op) pc
  Nonzero mars none down ∧ Nonzero mars down (countdown (mars.optab op).bflg (countedB mars down op) pc)

structure ArgRead (mars next : Mars) (down : Option Int) (arg : Int) : Prop where
  safe : Safe next
  inside : InCore arg
  flags : ∀ cell, (next.optab cell).aflg = (mars.optab cell).aflg ∧ (next.optab cell).bflg = (mars.optab cell).bflg
  counted : ∀ cell, next.b cell = countedB mars down cell
  queue : next.proccnt = mars.proccnt ∧ next.curproc = mars.curproc ∧ next.runqtab = mars.runqtab

-- What reading an operand leaves as it is, whatever the fields hold.
structure Kept (mars next : Mars) : Prop where
  op : ∀ cell, (next.optab cell).op = (mars.optab cell).op
  flags : ∀ cell, (next.optab cell).aflg = (mars.optab cell).aflg ∧ (next.optab cell).bflg = (mars.optab cell).bflg
  a : ∀ cell, next.a cell = mars.a cell
  queue : next.proccnt = mars.proccnt ∧ next.curproc = mars.curproc ∧ next.runqtab = mars.runqtab

theorem kept_refl (mars : Mars) : Kept mars mars := ⟨fun _ => rfl, fun _ => ⟨rfl, rfl⟩, fun _ => rfl, rfl, rfl, rfl⟩

theorem kept_set_b (mars : Mars) (cell : Fin cwcoresize) (value : Int) : Kept mars (mars.setB cell value) := by
  refine ⟨?_, ?_, ?_, rfl, rfl, rfl⟩ <;> intro other <;> by_cases same : other = cell <;> simp [Mars.setB, Mars.setCell, Mars.a, same]

theorem kept_trans (mars middle next : Mars) (one : Kept mars middle) (two : Kept middle next) : Kept mars next :=
  ⟨fun cell => (two.op cell).trans (one.op cell), fun cell => ⟨(two.flags cell).1.trans (one.flags cell).1, (two.flags cell).2.trans (one.flags cell).2⟩,
    fun cell => (two.a cell).trans (one.a cell), two.queue.1.trans one.queue.1, two.queue.2.1.trans one.queue.2.1, two.queue.2.2.trans one.queue.2.2⟩

theorem field_range (mars : Mars) (cell : Fin cwcoresize) : 0 ≤ mars.a cell ∧ 0 ≤ mars.b cell ∧ mars.b cell < 65536 := by
  have small := (mars.optab cell).b.isLt
  unfold Mars.a Mars.b
  omega

theorem set_b_counted (mars : Mars) (ptr cell : Fin cwcoresize) (positive : mars.b ptr ≠ 0) :
    (mars.setB ptr (mars.b ptr - 1)).b cell = countedB mars (some (ptr.val : Int)) cell := by
  by_cases same : cell = ptr
  · subst same
    have range := (field_range mars cell).2
    simp only [countedB, Mars.setB, Mars.setCell, Mars.b, Function.update_self, if_true, BitVec.toNat_ofInt]
    unfold Mars.b at range positive
    omega
  · have different : (ptr.val : Int) ≠ cell.val := by
      intro equal
      exact same (Fin.ext (by omega))
    simp [countedB, Mars.setB, Mars.setCell, Mars.b, same, different]

-- An operand lies in the core unless a zero B-field is counted down at address 0.
theorem cwgetarg_kept (mars : Mars) (flg : Flags) (field pc : Int) (nonneg : 0 ≤ field) (pcInside : InCore pc)
    (nonzero : pc = 0 → Nonzero mars none (countdown flg field pc)) :
    ∃ next arg, cwgetarg mars flg field pc = .ok (next, arg) ∧ InCore arg ∧ Kept mars next ∧
      (Nonzero mars none (countdown flg field pc) → ∀ cell, next.b cell = countedB mars (countdown flg field pc) cell) := by
  have uncounted : ∀ cell, mars.b cell = countedB mars none cell := fun _ => rfl
  unfold cwgetarg
  by_cases imm : flg.imm = true
  · refine ⟨mars, wrapcore field, by simp [imm], wrapcore_in_core field nonneg, kept_refl mars, fun _ => ?_⟩
    simpa [countdown, imm] using uncounted
  · have addressed : InCore (wrapcore (pc + field)) := wrapcore_in_core _ (Int.add_nonneg pcInside.1 nonneg)
    obtain ⟨ptr, found, atPtr⟩ := corecell_in_core _ addressed
    have range := field_range mars ptr
    by_cases predec : flg.predec = true
    · have down : countdown flg field pc = some (ptr.val : Int) := by simp [countdown, imm, predec, atPtr]
      have positive : Nonzero mars none (countdown flg field pc) → mars.b ptr ≠ 0 := by
        intro checked
        simpa [countedB] using checked ptr down
      have sum : 0 ≤ mars.b ptr - 1 + pc := by
        have low := pcInside.1
        by_cases origin : pc = 0
        · have one := positive (nonzero origin)
          omega
        · omega
      refine ⟨mars.setB ptr (mars.b ptr - 1), wrapcore (mars.b ptr - 1 + pc), ?_, wrapcore_in_core _ sum, kept_set_b mars ptr _, ?_⟩
      · simp [imm, predec, found, bind, Except.bind]
      · intro checked cell
        rw [down]
        exact set_b_counted mars ptr cell (positive checked)
    · have none : countdown flg field pc = none := by simp [countdown, predec]
      rw [none]
      by_cases indir : flg.indir = true
      · refine ⟨mars, wrapcore (mars.b ptr + pc), ?_, wrapcore_in_core _ ?_, kept_refl mars, fun _ => uncounted⟩
        · simp [imm, predec, indir, found, bind, Except.bind]
        · exact Int.add_nonneg range.2.1 pcInside.1
      · exact ⟨mars, wrapcore (wrapcore (pc + field)), by simp [imm, predec, indir], wrapcore_in_core _ addressed.1, kept_refl mars,
          fun _ => uncounted⟩

theorem cwgetarg_read (mars : Mars) (flg : Flags) (field pc : Int) (safe : Safe mars) (inside : InCore field)
    (pcInside : InCore pc) (nonzero : Nonzero mars none (countdown flg field pc)) :
    ∃ next arg, cwgetarg mars flg field pc = .ok (next, arg) ∧ ArgRead mars next (countdown flg field pc) arg := by
  obtain ⟨next, arg, result, argInside, kept, counted⟩ := cwgetarg_kept mars flg field pc inside.1 pcInside fun _ => nonzero
  refine ⟨next, arg, result, ⟨?_, ?_, ?_⟩, argInside, kept.flags, counted nonzero, kept.queue⟩
  · intro cell
    rw [kept.a cell, counted nonzero cell]
    refine ⟨(safe.fields cell).1, ?_⟩
    have range := (safe.fields cell).2
    unfold countedB
    split
    · rename_i down
      have positive : mars.b cell ≠ 0 := by simpa [countedB] using nonzero cell down
      unfold InCore at range ⊢
      omega
    · exact range
  · rw [kept.queue.1, kept.queue.2.1]
    exact safe.procs
  · rw [kept.queue.1, kept.queue.2.2]
    exact safe.pcs

structure ArgsRead (mars next : Mars) (arg1 arg2 : Int) : Prop where
  safe : Safe next
  first : InCore arg1
  second : InCore arg2
  queue : next.proccnt = mars.proccnt ∧ next.curproc = mars.curproc ∧ next.runqtab = mars.runqtab

theorem cwgetargs_read (mars : Mars) (op : Fin cwcoresize) (pc : Int) (safe : Safe mars) (pcInside : InCore pc)
    (nonzero : PredecsNonzero mars op pc) :
    ∃ next arg1 arg2, cwgetargs mars op pc = .ok (next, arg1, arg2) ∧ ArgsRead mars next arg1 arg2 := by
  obtain ⟨middle, arg1, first, one⟩ := cwgetarg_read mars _ _ pc safe (safe.fields op).1 pcInside nonzero.1
  have middleNonzero : Nonzero middle none (countdown (middle.optab op).bflg (middle.b op) pc) := by
    intro cell target
    rw [(one.flags op).2, one.counted op] at target
    have distinct := nonzero.2 cell target
    rw [← one.counted cell] at distinct
    simpa [countedB] using distinct
  obtain ⟨next, arg2, second, two⟩ := cwgetarg_read middle _ _ pc one.safe (one.safe.fields op).2 pcInside middleNonzero
  refine ⟨next, arg1, arg2, ?_, two.safe, one.inside, two.inside, ?_⟩
  · unfold cwgetargs
    rw [first]
    simp only [bind, Except.bind]
    rw [second]
  · obtain ⟨cnt, cur, runq⟩ := one.queue
    rw [← cnt, ← cur, ← runq]
    exact two.queue

def Advances (mars : Mars) (result : Except Stop (Mars × Int)) : Prop :=
  ∃ next pc, result = .ok (next, pc) ∧ InCore pc ∧ Safe next ∧ next.curproc = mars.curproc

theorem advances_ok (mars next : Mars) (pc : Int) (safe : Safe next) (inside : InCore pc)
    (turn : next.curproc = mars.curproc) : Advances mars (.ok (next, pc)) :=
  ⟨next, pc, rfl, inside, safe, turn⟩

theorem advances_cell (mars : Mars) (index : Int) (rest : Fin cwcoresize → Except Stop (Mars × Int))
    (inside : InCore index) (each : ∀ cell, Advances mars (rest cell)) : Advances mars (corecell index >>= rest) := by
  obtain ⟨cell, found, -⟩ := corecell_in_core index inside
  rw [found]
  exact each cell

theorem advances_proc (mars : Mars) (index : Int) (rest : Fin cwnproc → Except Stop (Mars × Int))
    (low : 0 ≤ index) (high : index < cwnproc) (each : ∀ proc, (proc.val : Int) = index → Advances mars (rest proc)) :
    Advances mars (runqcell index >>= rest) := by
  obtain ⟨proc, found, same⟩ := runqcell_in_queue index low high
  rw [found]
  exact each proc same

theorem next_in_core (pc : Int) (inside : InCore pc) : InCore (wrapcore (pc + 1)) :=
  wrapcore_in_core _ (Int.add_nonneg inside.1 (by decide))

theorem sum_in_core (a b : Int) (left : InCore a) (right : InCore b) : InCore (wrapcore (a + b)) :=
  wrapcore_in_core _ (Int.add_nonneg left.1 right.1)

theorem jump_advances (start mars : Mars) (pid : Fin 2) (pc : Int) (safe : Safe mars) (inside : InCore pc)
    (turn : mars.curproc = start.curproc) : Advances start (cwjump mars pid pc) := by
  obtain ⟨low, below, bound⟩ := safe.procs pid
  refine advances_proc start _ _ (by omega) (by omega) ?_
  intro last _
  exact advances_ok start _ pc (safe_set_proc mars pid last pc safe inside) inside turn

section Operations

variable (mars : Mars) (pid : Fin 2) (pc : Int)

theorem advances_args (rest : Fin cwcoresize → Mars × Int × Int → Except Stop (Mars × Int)) (safe : Safe mars)
    (inside : InCore pc) (nonzero : ∀ op, corecell pc = .ok op → PredecsNonzero mars op pc)
    (each : ∀ op next arg1 arg2, ArgsRead mars next arg1 arg2 → Advances mars (rest op (next, arg1, arg2))) :
    Advances mars (corecell pc >>= fun op => cwgetargs mars op pc >>= rest op) := by
  obtain ⟨op, found, -⟩ := corecell_in_core pc inside
  obtain ⟨next, arg1, arg2, args, read⟩ := cwgetargs_read mars op pc safe inside (nonzero op found)
  rw [found]
  simp only [bind, Except.bind]
  rw [args]
  exact each op next arg1 arg2 read

-- JMZ and JMN look at the cell of the second operand.
theorem branch_advances (next : Mars) (arg1 arg2 : Int) (inside : InCore pc) (read : ArgsRead mars next arg1 arg2) (taken : Int → Prop)
    [DecidablePred taken] :
    Advances mars (corecell arg2 >>= fun target => if taken (next.b target) then cwjump next pid arg1 else .ok (next, wrapcore (pc + 1))) := by
  refine advances_cell mars arg2 _ read.second fun target => ?_
  split
  · exact jump_advances mars next pid arg1 read.safe read.first read.queue.2.1
  · exact advances_ok mars next _ read.safe (next_in_core pc inside) read.queue.2.1

variable (safe : Safe mars) (inside : InCore pc) (nonzero : ∀ op, corecell pc = .ok op → PredecsNonzero mars op pc)

include safe inside nonzero

theorem cwmovop_advances : Advances mars (cwmovop mars pid pc) := by
  refine advances_args mars pc _ safe inside nonzero fun op next arg1 arg2 read => ?_
  refine advances_cell mars arg2 _ read.second fun target => ?_
  split
  · exact advances_ok mars _ _ (safe_set_b next target arg1 read.safe read.first) (next_in_core pc inside) read.queue.2.1
  · refine advances_cell mars arg1 _ read.first fun source => ?_
    have copied := safe_set_cell next target (next.optab source) read.safe (read.safe.fields source).1 (read.safe.fields source).2
    exact advances_ok mars _ _ copied (next_in_core pc inside) read.queue.2.1

theorem cwaddop_advances : Advances mars (cwaddop mars pid pc) := by
  refine advances_args mars pc _ safe inside nonzero fun op next arg1 arg2 read => ?_
  have sum := sum_in_core arg2 arg1 read.second read.first
  have nextPc := next_in_core pc inside
  dsimp only
  split
  · split
    · exact advances_ok mars _ _ (safe_set_b _ op _ (safe_clear_sign next op read.safe) sum) nextPc read.queue.2.1
    · refine advances_cell mars arg2 _ read.second fun target => ?_
      have targetSum := sum_in_core _ arg1 (read.safe.fields target).2 read.first
      exact advances_ok mars _ _ (safe_set_b _ target _ (safe_clear_sign next target read.safe) targetSum) nextPc read.queue.2.1
  · split
    · exact advances_ok mars _ _ (safe_set_b next op _ read.safe sum) nextPc read.queue.2.1
    · refine advances_cell mars arg1 _ read.first fun source => ?_
      refine advances_cell mars arg2 _ read.second fun target => ?_
      have a := sum_in_core _ _ (read.safe.fields source).1 (read.safe.fields target).1
      have b := sum_in_core _ _ (read.safe.fields source).2 (read.safe.fields target).2
      exact advances_ok mars _ _ (safe_set_b _ target _ (safe_set_a next target _ read.safe a) b) nextPc read.queue.2.1

theorem cwsubop_advances : Advances mars (cwsubop mars pid pc) := by
  refine advances_args mars pc _ safe inside nonzero fun op next arg1 arg2 read => ?_
  have nextPc := next_in_core pc inside
  dsimp only
  split
  · refine advances_cell mars arg2 _ read.second fun target => ?_
    have b := cwborrow_in_core _ arg1 (read.safe.fields target).2 read.first
    exact advances_ok mars _ _ (safe_set_b next target _ read.safe b) nextPc read.queue.2.1
  · refine advances_cell mars arg1 _ read.first fun source => ?_
    refine advances_cell mars arg2 _ read.second fun target => ?_
    have a := cwborrow_in_core _ _ (read.safe.fields source).1 (read.safe.fields target).1
    have b := cwborrow_in_core _ _ (read.safe.fields source).2 (read.safe.fields target).2
    exact advances_ok mars _ _ (safe_set_b _ target _ (safe_set_a next target _ read.safe a) b) nextPc read.queue.2.1

theorem cwjmpop_advances : Advances mars (cwjmpop mars pid pc) := by
  refine advances_args mars pc _ safe inside nonzero fun op next arg1 arg2 read => ?_
  dsimp only
  split
  · exact jump_advances mars next pid arg2 read.safe read.second read.queue.2.1
  · exact advances_ok mars next pc read.safe inside read.queue.2.1

theorem cwjmzop_advances : Advances mars (cwjmzop mars pid pc) := by
  refine advances_args mars pc _ safe inside nonzero fun op next arg1 arg2 read => ?_
  exact branch_advances mars pid pc next arg1 arg2 inside read (· = 0)

theorem cwjmnop_advances : Advances mars (cwjmnop mars pid pc) := by
  refine advances_args mars pc _ safe inside nonzero fun op next arg1 arg2 read => ?_
  exact branch_advances mars pid pc next arg1 arg2 inside read (· ≠ 0)

theorem cwcmpop_advances : Advances mars (cwcmpop mars pid pc) := by
  refine advances_args mars pc _ safe inside nonzero fun op next arg1 arg2 read => ?_
  dsimp only
  split
  · refine advances_cell mars arg2 _ read.second fun target => ?_
    exact advances_ok mars next _ read.safe (skip_in_core _ pc inside) read.queue.2.1
  · refine advances_cell mars arg1 _ read.first fun source => ?_
    refine advances_cell mars arg2 _ read.second fun target => ?_
    exact advances_ok mars next _ read.safe (skip_in_core _ pc inside) read.queue.2.1

theorem cwsltop_advances : Advances mars (cwsltop mars pid pc) := by
  refine advances_args mars pc _ safe inside nonzero fun op next arg1 arg2 read => ?_
  refine advances_cell mars arg2 _ read.second fun target => ?_
  dsimp only
  split <;> exact advances_ok mars next _ read.safe (skip_in_core _ pc inside) read.queue.2.1

theorem cwdjnop_advances : Advances mars (cwdjnop mars pid pc) := by
  refine advances_args mars pc _ safe inside nonzero fun op next arg1 arg2 read => ?_
  have addressed : InCore (if (next.optab op).bflg.imm then arg1 else arg2) := by
    split
    · exact read.first
    · exact read.second
  refine advances_cell mars _ _ addressed fun counter => ?_
  have one : InCore 1 := ⟨by decide, by decide⟩
  have counted := safe_set_b next counter _ read.safe (cwborrow_in_core _ 1 (read.safe.fields counter).2 one)
  dsimp only
  split
  · exact jump_advances mars _ pid arg1 counted read.first read.queue.2.1
  · exact advances_ok mars _ pc counted inside read.queue.2.1

theorem cwsplop_advances : Advances mars (cwsplop mars pid pc) := by
  refine advances_args mars pc _ safe inside nonzero fun op next arg1 arg2 read => ?_
  obtain ⟨low, below, bound⟩ := read.safe.procs pid
  have nextPc := next_in_core pc inside
  refine advances_proc mars _ _ low (by omega) fun cur _ => ?_
  have kept := safe_set_proc next pid cur (wrapcore (pc + 1)) read.safe nextPc
  dsimp only
  split
  · rename_i room
    refine advances_proc mars _ _ (by omega) room fun last atEnd => ?_
    have added := safe_set_proc _ pid last arg2 kept read.second
    refine advances_ok mars _ _ ⟨added.fields, ?_, ?_⟩ nextPc read.queue.2.1
    · intro other
      have range := added.procs other
      by_cases same : other = pid
      · subst same
        simp only [Function.update_self]
        exact ⟨low, by change next.curproc other < _; omega, by omega⟩
      · simpa [same] using range
    · intro other entry alive
      by_cases same : other = pid
      · subst same
        simp only [Function.update_self] at alive
        by_cases here : entry = last
        · subst here
          simpa [Mars.setProc] using read.second
        · have inner : (entry.val : Int) < next.proccnt other := by
            have apart : entry.val ≠ last.val := fun equal => here (Fin.ext equal)
            omega
          exact added.pcs other entry inner
      · simp only [Function.update_of_ne same] at alive
        exact added.pcs other entry alive
  · exact advances_ok mars _ _ kept nextPc read.queue.2.1

theorem cwfunctab_advances (op : Opcode) (notDat : op ≠ .dat) : Advances mars (cwfunctab op mars pid pc) := by
  cases op with
  | dat => exact absurd rfl notDat
  | mov => exact cwmovop_advances mars pid pc safe inside nonzero
  | add => exact cwaddop_advances mars pid pc safe inside nonzero
  | sub => exact cwsubop_advances mars pid pc safe inside nonzero
  | jmp => exact cwjmpop_advances mars pid pc safe inside nonzero
  | jmz => exact cwjmzop_advances mars pid pc safe inside nonzero
  | jmn => exact cwjmnop_advances mars pid pc safe inside nonzero
  | cmp => exact cwcmpop_advances mars pid pc safe inside nonzero
  | slt => exact cwsltop_advances mars pid pc safe inside nonzero
  | djn => exact cwdjnop_advances mars pid pc safe inside nonzero
  | spl => exact cwsplop_advances mars pid pc safe inside nonzero

end Operations

def Executes (mars : Mars) (pid : Fin 2) (op : Fin cwcoresize) (pc : Int) : Prop :=
  ∃ proc, runqcell (mars.curproc pid) = .ok proc ∧ mars.runqtab pid proc = pc ∧ corecell pc = .ok op

theorem executes_somewhere (mars : Mars) (pid : Fin 2)
    (procs : 0 ≤ mars.curproc pid ∧ mars.curproc pid < mars.proccnt pid ∧ mars.proccnt pid ≤ cwnproc)
    (pcs : ∀ proc : Fin cwnproc, (proc.val : Int) < mars.proccnt pid → InCore (mars.runqtab pid proc)) :
    ∃ op pc, Executes mars pid op pc ∧ InCore pc := by
  obtain ⟨low, below, bound⟩ := procs
  obtain ⟨proc, found, same⟩ := runqcell_in_queue _ low (by omega)
  have inside := pcs proc (by omega)
  obtain ⟨op, cell, -⟩ := corecell_in_core _ inside
  exact ⟨op, _, ⟨proc, found, rfl, cell⟩, inside⟩

-- A step checks its operands unless the cell it executes is a DAT, which ends
-- the game before any operand is read.
def StepNonzero (mars : Mars) (pid : Fin 2) : Prop :=
  ∀ op pc, Executes mars pid op pc → (mars.optab op).op ≠ .dat → PredecsNonzero mars op pc

def IndexesInCore (mars : Mars) (pid : Fin 2) : Prop :=
  ∃ op pc, Executes mars pid op pc ∧ InCore pc ∧ ((mars.optab op).op ≠ .dat →
    ∃ next arg1 arg2, cwgetargs mars op pc = .ok (next, arg1, arg2) ∧ InCore arg1 ∧ InCore arg2)

theorem indexes_in_core (mars : Mars) (pid : Fin 2) (safe : Safe mars) (nonzero : StepNonzero mars pid) :
    IndexesInCore mars pid := by
  obtain ⟨op, pc, executes, inside⟩ := executes_somewhere mars pid (safe.procs pid) (safe.pcs pid)
  refine ⟨op, pc, executes, inside, fun notDat => ?_⟩
  obtain ⟨next, arg1, arg2, args, read⟩ := cwgetargs_read mars op pc safe inside (nonzero op pc executes notDat)
  exact ⟨next, arg1, arg2, args, read.first, read.second⟩

theorem turn_passes (mars : Mars) (pid : Fin 2) (cur : Int) (safe : Safe mars) (low : 0 ≤ cur)
    (high : cur ≤ mars.proccnt pid) :
    Safe { mars with curproc := Function.update mars.curproc pid (if cur = mars.proccnt pid then 0 else cur) } := by
  refine ⟨safe.fields, ?_, safe.pcs⟩
  intro other
  have range := safe.procs other
  by_cases same : other = pid
  · subst same
    simp only [Function.update_self]
    split <;> omega
  · simpa [same] using range

theorem cwexec_safe (mars : Mars) (pid : Fin 2) (safe : Safe mars) (nonzero : StepNonzero mars pid) :
    (∃ diagnostic, cwexec mars pid = .error (.exit diagnostic)) ∨ ∃ next, cwexec mars pid = .ok next ∧ Safe next := by
  obtain ⟨op, pc, ⟨proc, found, rfl, cell⟩, inside⟩ := executes_somewhere mars pid (safe.procs pid) (safe.pcs pid)
  obtain ⟨low, below, bound⟩ := safe.procs pid
  unfold cwexec
  simp only [found, cell, bind, Except.bind]
  split
  · exact .inl ⟨_, rfl⟩
  · by_cases dat : (mars.optab op).op = .dat
    · rw [dat]
      exact .inl ⟨_, rfl⟩
    · have checked : ∀ other, corecell (mars.runqtab pid proc) = .ok other → PredecsNonzero mars other (mars.runqtab pid proc) := by
        intro other same
        cases cell.symm.trans same
        exact nonzero op _ ⟨proc, found, rfl, cell⟩ dat
      obtain ⟨next, pc, result, pcInside, nextSafe, turn⟩ :=
        cwfunctab_advances mars pid _ safe inside checked (mars.optab op).op dat
      obtain ⟨-, nextBelow, -⟩ := nextSafe.procs pid
      have running : pc ≠ cwnone := by
        unfold InCore at pcInside
        unfold cwnone
        omega
      rw [turn] at nextBelow
      rw [result]
      simp only [running, if_false]
      split
      · exact .inr ⟨_, rfl, turn_passes _ pid _ (safe_set_proc next pid proc pc nextSafe pcInside)
          (by omega) (by change _ ≤ next.proccnt pid; omega)⟩
      · exact .inr ⟨_, rfl, turn_passes next pid _ nextSafe low (by omega)⟩

end OsZero.CoreWar

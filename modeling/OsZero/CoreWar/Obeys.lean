import OsZero.CoreWar.Standard

set_option autoImplicit false

namespace OsZero.CoreWar

-- What the turn of a process leaves behind: the core of the outcome, the
-- address the process goes on at, and the process it has split off when the
-- queue has an entry left for it.
def Leaves (mars : Mars) (pid : Fin 2) (outcome : Outcome) : Prop :=
  ∃ next, cwexec mars pid = .ok next ∧ Represents next outcome.core ∧
    (∃ target, outcome.next = some target ∧
      ∀ proc : Fin cwnproc, (proc.val : Int) = mars.curproc pid → next.runqtab pid proc = target.val) ∧
    ∀ start, outcome.spawned = some start → ∀ free : Fin cwnproc, (free.val : Int) = mars.proccnt pid →
      next.runqtab pid free = start.val ∧ next.proccnt pid = mars.proccnt pid + 1

def Yields (result : Except Stop (Mars × Int)) (after : Core) (newpc : Place) : Prop :=
  ∃ next, result = .ok (next, (newpc.val : Int)) ∧ Represents next after

structure Begun (mars : Mars) (core : Core) (pid : Fin 2) (op : Place) (proc : Fin cwnproc) (seen : Mars) : Prop where
  procs : 0 ≤ mars.curproc pid ∧ mars.curproc pid < mars.proccnt pid ∧ mars.proccnt pid ≤ cwnproc
  found : runqcell (mars.curproc pid) = .ok proc
  atCur : (proc.val : Int) = mars.curproc pid
  place : mars.runqtab pid proc = op.val
  code : (mars.optab op).op = (core op).op
  args : cwgetargs mars op op.val = .ok (seen, ((fetch core op).a.val : Int), ((fetch core op).b.val : Int))
  held : Represents seen (fetch core op).core
  kept : Kept mars seen

section Yield

theorem yields_ok (next : Mars) (after : Core) (newpc : Place) (pc : Int) (same : pc = newpc.val) (holds : Represents next after) :
    Yields (.ok (next, pc)) after newpc := by
  subst same
  exact ⟨next, rfl, holds⟩

theorem place_rest (x : Place) (rest : Place → Except Stop (Mars × Int)) : (corecell x.val >>= rest) = rest x := by
  rw [corecell_place]
  rfl

theorem yields_cell (x : Place) (rest : Place → Except Stop (Mars × Int)) (after : Core) (newpc : Place)
    (yields : Yields (rest x) after newpc) : Yields (corecell x.val >>= rest) after newpc := by
  rw [place_rest]
  exact yields

theorem yields_jump (mars : Mars) (pid : Fin 2) (after : Core) (newpc : Place) (low : 1 ≤ mars.proccnt pid)
    (high : mars.proccnt pid ≤ cwnproc) (holds : Represents mars after) : Yields (cwjump mars pid newpc.val) after newpc := by
  obtain ⟨last, found, -⟩ := runqcell_in_queue (mars.proccnt pid - 1) (by omega) (by omega)
  refine ⟨mars.setProc pid last newpc.val, ?_, holds⟩
  unfold cwjump
  rw [found]
  rfl

theorem place_zero (x : Place) : (x.val : Int) = 0 ↔ x = origin := by
  rw [Fin.ext_iff, origin_val]
  omega

variable (mars : Mars) (core : Core) (pid : Fin 2) (op : Place) (proc : Fin cwnproc) (seen : Mars)
  (begun : Begun mars core pid op proc seen)

include begun

theorem args_rest (rest : Place → Mars × Int × Int → Except Stop (Mars × Int)) :
    (corecell op.val >>= fun cell => cwgetargs mars cell op.val >>= rest cell) =
      rest op (seen, ((fetch core op).a.val : Int), ((fetch core op).b.val : Int)) := by
  rw [corecell_place]
  simp only [bind, Except.bind]
  rw [begun.args]

theorem yields_args (rest : Place → Mars × Int × Int → Except Stop (Mars × Int)) (after : Core) (newpc : Place)
    (yields : Yields (rest op (seen, ((fetch core op).a.val : Int), ((fetch core op).b.val : Int))) after newpc) :
    Yields (corecell op.val >>= fun cell => cwgetargs mars cell op.val >>= rest cell) after newpc := by
  rw [args_rest mars core pid op proc seen begun]
  exact yields

theorem aflg_imm : (seen.optab op).aflg.imm = decide ((core op).amode = .immediate) := by
  rw [(begun.held op).aflg.1, (fetch_keeps core op op).2.1]

theorem bflg_imm : (seen.optab op).bflg.imm = decide ((core op).bmode = .immediate) := by
  rw [(begun.held op).bflg.1, (fetch_keeps core op op).2.2]

theorem seen_procs : 1 ≤ seen.proccnt pid ∧ seen.proccnt pid ≤ cwnproc := by
  have range := begun.procs
  rw [begun.kept.queue.1]
  omega

theorem cwmovop_copies (copies : (core op).amode ≠ .immediate) : cwmovop mars pid op.val =
    .ok (seen.setCell (fetch core op).b (seen.optab (fetch core op).a), wrapcore (op.val + 1)) := by
  have direct : (seen.optab op).aflg.imm = false := by simp [aflg_imm mars core pid op proc seen begun, copies]
  refine (args_rest mars core pid op proc seen begun _).trans ((place_rest _ _).trans ?_)
  rw [if_neg (by simp [direct])]
  exact place_rest _ _

theorem cwmovop_yields (target : (core op).bmode ≠ .immediate) : Yields (cwmovop mars pid op.val)
    (if (core op).amode = .immediate then (fetch core op).core.putB (fetch core op).b (fetch core op).a
      else (fetch core op).core.put (fetch core op).b ((fetch core op).core (fetch core op).a)) (ahead op one) := by
  by_cases imm : (core op).amode = .immediate
  · refine yields_args mars core pid op proc seen begun _ _ _ (yields_cell _ _ _ _ ?_)
    simp only [aflg_imm mars core pid op proc seen begun, bflg_imm mars core pid op proc seen begun, decide_eq_true_eq]
    rw [if_pos ⟨imm, target⟩, if_pos imm]
    exact yields_ok _ _ _ _ (wrapcore_next op) (holds_setB seen _ begun.held _ _)
  · rw [cwmovop_copies mars core pid op proc seen begun imm, if_neg imm]
    exact yields_ok _ _ _ _ (wrapcore_next op) (holds_put seen _ begun.held _ _ _ (begun.held _))

theorem cwaddop_yields (target : (core op).bmode ≠ .immediate) : Yields (cwaddop mars pid op.val)
    (if (core op).amode = .immediate then
      (fetch core op).core.putB (fetch core op).b (ahead ((fetch core op).core (fetch core op).b).b (fetch core op).a)
      else (fetch core op).core.put (fetch core op).b { (fetch core op).core (fetch core op).b with
        a := ahead ((fetch core op).core (fetch core op).b).a ((fetch core op).core (fetch core op).a).a
        b := ahead ((fetch core op).core (fetch core op).b).b ((fetch core op).core (fetch core op).a).b }) (ahead op one) := by
  refine yields_args mars core pid op proc seen begun _ _ _ ?_
  simp only [aflg_imm mars core pid op proc seen begun, bflg_imm mars core pid op proc seen begun, decide_eq_true_eq, if_neg target]
  by_cases imm : (core op).amode = .immediate
  · rw [if_pos imm, if_pos imm]
    refine yields_cell _ _ _ _ (yields_ok _ _ _ _ (wrapcore_next op) ?_)
    rw [holds_b seen _ begun.held, wrapcore_ahead]
    exact holds_setB _ _ (holds_clear_sign seen _ begun.held _) _ _
  · rw [if_neg imm, if_neg imm]
    refine yields_cell _ _ _ _ (yields_cell _ _ _ _ (yields_ok _ _ _ _ (wrapcore_next op) ?_))
    simp only [holds_a seen _ begun.held, holds_b seen _ begun.held, wrapcore_ahead]
    rw [ahead_comm, ahead_comm ((fetch core op).core (fetch core op).b).b]
    exact holds_set_both seen _ begun.held _ _ _

-- The fields of the target are taken from those of the source.
theorem cwsubop_yields : Yields (cwsubop mars pid op.val)
    (if (core op).amode = .immediate then
      (fetch core op).core.putB (fetch core op).b (behind ((fetch core op).core (fetch core op).b).b (fetch core op).a)
      else (fetch core op).core.put (fetch core op).b { (fetch core op).core (fetch core op).b with
        a := behind ((fetch core op).core (fetch core op).a).a ((fetch core op).core (fetch core op).b).a
        b := behind ((fetch core op).core (fetch core op).a).b ((fetch core op).core (fetch core op).b).b }) (ahead op one) := by
  refine yields_args mars core pid op proc seen begun _ _ _ ?_
  simp only [aflg_imm mars core pid op proc seen begun, decide_eq_true_eq]
  by_cases imm : (core op).amode = .immediate
  · rw [if_pos imm, if_pos imm]
    refine yields_cell _ _ _ _ (yields_ok _ _ _ _ (wrapcore_next op) ?_)
    rw [holds_b seen _ begun.held, cwborrow_behind]
    exact holds_setB seen _ begun.held _ _
  · rw [if_neg imm, if_neg imm]
    refine yields_cell _ _ _ _ (yields_cell _ _ _ _ (yields_ok _ _ _ _ (wrapcore_next op) ?_))
    simp only [holds_a seen _ begun.held, holds_b seen _ begun.held, cwborrow_behind]
    exact holds_set_both seen _ begun.held _ _ _

theorem cwjmpop_yields : Yields (cwjmpop mars pid op.val) (fetch core op).core
    (if mars.proccnt pid < cwnproc then (fetch core op).b else op) := by
  have range := seen_procs mars core pid op proc seen begun
  refine yields_args mars core pid op proc seen begun _ _ _ ?_
  dsimp only
  rw [begun.kept.queue.1] at range ⊢
  by_cases room : mars.proccnt pid < cwnproc
  · rw [if_pos room, if_pos room]
    exact yields_jump seen pid _ _ (by rw [begun.kept.queue.1]; exact range.1) (by rw [begun.kept.queue.1]; exact range.2) begun.held
  · rw [if_neg room, if_neg room]
    exact yields_ok _ _ _ _ rfl begun.held

-- JMZ and JMN look at the cell the B operand names, immediate or not.
theorem branch_yields (jumps : Int → Prop) [DecidablePred jumps] (jump : Place → Prop) [DecidablePred jump]
    (same : ∀ x : Place, jumps x.val ↔ jump x) : Yields
    (corecell (fetch core op).b.val >>= fun target =>
      if jumps (seen.b target) then cwjump seen pid (fetch core op).a.val else .ok (seen, wrapcore (op.val + 1))) (fetch core op).core
    (if jump ((fetch core op).core (fetch core op).b).b then (fetch core op).a else ahead op one) := by
  have range := seen_procs mars core pid op proc seen begun
  refine yields_cell _ _ _ _ ?_
  rw [holds_b seen _ begun.held]
  by_cases taken : jump ((fetch core op).core (fetch core op).b).b
  · rw [if_pos ((same _).mpr taken), if_pos taken]
    exact yields_jump seen pid _ _ range.1 range.2 begun.held
  · rw [if_neg (mt (same _).mp taken), if_neg taken]
    exact yields_ok _ _ _ _ (wrapcore_next op) begun.held

theorem cwjmzop_yields : Yields (cwjmzop mars pid op.val) (fetch core op).core
    (if ((fetch core op).core (fetch core op).b).b = origin then (fetch core op).a else ahead op one) := by
  refine yields_args mars core pid op proc seen begun _ _ _ ?_
  exact branch_yields mars core pid op proc seen begun (· = 0) (· = origin) place_zero

theorem cwjmnop_yields : Yields (cwjmnop mars pid op.val) (fetch core op).core
    (if ((fetch core op).core (fetch core op).b).b ≠ origin then (fetch core op).a else ahead op one) := by
  refine yields_args mars core pid op proc seen begun _ _ _ ?_
  exact branch_yields mars core pid op proc seen begun (· ≠ 0) (· ≠ origin) fun x => not_congr (place_zero x)

theorem skip_yields (skips : Prop) [Decidable skips] (skip : Prop) [Decidable skip] (same : skips ↔ skip) :
    Yields (.ok (seen, cwskip skips op.val)) (fetch core op).core (if skip then ahead (ahead op one) one else ahead op one) := by
  refine yields_ok _ _ _ _ ?_ begun.held
  unfold cwskip
  by_cases skipping : skip
  · rw [if_pos (same.mpr skipping), if_pos skipping]
    have bound := place_lt op
    unfold wrapcore cwcoresize
    rw [Int.tmod_eq_emod_of_nonneg (by omega), ahead_val, ahead_val, one_val]
    omega
  · rw [if_neg (mt same.mp skipping), if_neg skipping]
    exact wrapcore_next op

-- Two cells are alike to the source when their fields are, whatever their
-- opcodes and modes.
theorem cwcmpop_yields : Yields (cwcmpop mars pid op.val) (fetch core op).core
    (if (if (core op).amode = .immediate then (fetch core op).a = ((fetch core op).core (fetch core op).b).b
      else ((fetch core op).core (fetch core op).a).a = ((fetch core op).core (fetch core op).b).a ∧
        ((fetch core op).core (fetch core op).a).b = ((fetch core op).core (fetch core op).b).b)
      then ahead (ahead op one) one else ahead op one) := by
  refine yields_args mars core pid op proc seen begun _ _ _ ?_
  simp only [aflg_imm mars core pid op proc seen begun, decide_eq_true_eq]
  by_cases imm : (core op).amode = .immediate
  · simp only [if_pos imm]
    refine yields_cell _ _ _ _ (skip_yields mars core pid op proc seen begun _ _ ?_)
    rw [holds_b seen _ begun.held, Fin.ext_iff]
    omega
  · simp only [if_neg imm]
    refine yields_cell _ _ _ _ (yields_cell _ _ _ _ (skip_yields mars core pid op proc seen begun _ _ ?_))
    rw [holds_a seen _ begun.held, holds_a seen _ begun.held, holds_b seen _ begun.held, holds_b seen _ begun.held, Fin.ext_iff, Fin.ext_iff]
    omega

-- The target's B-field is compared with itself.
theorem cwsltop_yields : Yields (cwsltop mars pid op.val) (fetch core op).core
    (if (core op).amode = .immediate ∧ (fetch core op).a.val < ((fetch core op).core (fetch core op).b).b.val
      then ahead (ahead op one) one else ahead op one) := by
  refine yields_args mars core pid op proc seen begun _ _ _ ?_
  simp only [aflg_imm mars core pid op proc seen begun, decide_eq_true_eq]
  refine yields_cell _ _ _ _ ?_
  by_cases imm : (core op).amode = .immediate
  · rw [if_pos imm]
    refine skip_yields mars core pid op proc seen begun _ _ ?_
    rw [holds_b seen _ begun.held]
    exact Int.ofNat_lt.trans (and_iff_right imm).symm
  · rw [if_neg imm]
    refine skip_yields mars core pid op proc seen begun _ _ ?_
    exact iff_of_false (Int.lt_irrefl _) fun both => imm both.1

-- With an immediate B operand it is the cell jumped to that is counted down.
theorem cwdjnop_yields : Yields (cwdjnop mars pid op.val)
    ((fetch core op).core.putB (if (core op).bmode = .immediate then (fetch core op).a else (fetch core op).b)
      (behind ((fetch core op).core (if (core op).bmode = .immediate then (fetch core op).a else (fetch core op).b)).b one))
    (if behind ((fetch core op).core (if (core op).bmode = .immediate then (fetch core op).a else (fetch core op).b)).b one ≠ origin
      then (fetch core op).a else op) := by
  have range := seen_procs mars core pid op proc seen begun
  refine yields_args mars core pid op proc seen begun _ _ _ ?_
  simp only [bflg_imm mars core pid op proc seen begun, decide_eq_true_eq]
  have counter : (if (core op).bmode = .immediate then ((fetch core op).a.val : Int) else (fetch core op).b.val) =
      (if (core op).bmode = .immediate then (fetch core op).a else (fetch core op).b).val := by split <;> rfl
  rw [counter]
  refine yields_cell _ _ _ _ ?_
  generalize (if (core op).bmode = .immediate then (fetch core op).a else (fetch core op).b) = cell
  have less : cwborrow (seen.b cell - 1) = (behind ((fetch core op).core cell).b one).val := by
    rw [holds_b seen _ begun.held]
    exact cwborrow_behind _ one
  rw [less]
  have counted := holds_setB seen _ begun.held cell (behind ((fetch core op).core cell).b one)
  by_cases last : behind ((fetch core op).core cell).b one = origin
  · rw [if_neg (fun above => above ((place_zero _).mpr last)), if_neg (fun above => above last)]
    exact yields_ok _ _ _ _ rfl counted
  · rw [if_pos (mt (place_zero _).mp last), if_pos last]
    exact yields_jump _ pid _ _ range.1 range.2 counted

end Yield

theorem setproc_self (mars : Mars) (pid : Fin 2) (proc : Fin cwnproc) (pc : Int) : (mars.setProc pid proc pc).runqtab pid proc = pc := by
  rw [setproc_entry, if_pos rfl]

theorem leaves_iff (mars : Mars) (core : Core) (pid : Fin 2) (op : Place) (proc : Fin cwnproc) (seen : Mars)
    (begun : Begun mars core pid op proc seen) (after : Core) (newpc : Place) (outcome : Outcome) (notDat : (core op).op ≠ .dat)
    (yields : Yields (cwfunctab (core op).op mars pid op.val) after newpc) (stays : (after op).op ≠ .spl)
    (alone : outcome.spawned = none) : Leaves mars pid outcome ↔ after = outcome.core ∧ some newpc = outcome.next := by
  obtain ⟨next, result, holds⟩ := yields
  rw [← begun.code, ← begun.place] at result
  have cell : corecell (mars.runqtab pid proc) = .ok op := by rw [begun.place, corecell_place]
  have inside : InCore (newpc.val : Int) := ⟨Int.natCast_nonneg _, Int.ofNat_lt.mpr newpc.isLt⟩
  have ends := (cwexec_ends mars next pid proc op newpc.val begun.found cell (by rwa [begun.code]) inside result).1
    (by rwa [(holds op).op])
  constructor
  · rintro ⟨last, same, held, ⟨target, goes, entries⟩, -⟩
    rw [ends] at same
    cases same
    have entry := entries proc begun.atCur
    have landed : (newpc.val : Int) = target.val := (setproc_self next pid proc newpc.val).symm.trans entry
    exact ⟨holds_unique next after outcome.core holds held, by rw [goes, Fin.ext (Int.ofNat_inj.mp landed)]⟩
  · rintro ⟨rfl, goes⟩
    refine ⟨_, ends, holds, ⟨newpc, goes.symm, fun entry atCur => ?_⟩, fun start split => ?_⟩
    · rw [(entry_at entry proc _ begun.atCur).mp atCur]
      exact setproc_self next pid proc newpc.val
    · rw [alone] at split
      cases split

-- The steps on which the source and the standard agree once the operands are right.
def Carried (instr : Cell) (pc : Place) (args : Operands) (procs : Int) : Prop :=
  let source := args.core args.a
  let target := args.core args.b
  match instr.op with
  -- cwexec looks for SPL in the cell after the instruction has run
  | .mov => instr.amode = .immediate ∨ args.b ≠ pc ∨ source.op ≠ .spl
  | .sub => instr.amode = .immediate ∨ (source.a.val % 4000 = target.a.val % 4000 ∧ source.b.val % 4000 = target.b.val % 4000)
  | .jmp => procs < cwnproc ∨ args.b = pc
  | .jmz => instr.bmode = .immediate → args.a ≠ ahead pc one → (target.b = origin ↔ args.b = origin)
  | .jmn => instr.bmode = .immediate → args.a ≠ ahead pc one → (target.b = origin ↔ args.b = origin)
  | .cmp => instr.amode = .immediate ∨ (source.a = target.a → source.b = target.b → source = target)
  | .slt => instr.amode = .immediate ∨ target.b.val ≤ source.b.val
  | .djn => (instr.bmode = .immediate → args.a = pc) ∧ (if instr.bmode = .immediate then args.core pc else target).b ≠ one
  | _ => True

theorem fetched_op (core : Core) (op : Place) : ((fetch core op).core op).op = (core op).op := (fetch_keeps core op op).1

section Opcodes

variable (mars : Mars) (core : Core) (pid : Fin 2) (op : Place) (proc : Fin cwnproc) (seen : Mars)
  (begun : Begun mars core pid op proc seen) (permitted : Permitted (core op))

include begun

-- After MOV has copied an SPL over itself cwexec takes it for one that has
-- already stored its program counter.
theorem mov_split_stays (code : (core op).op = .mov) (copies : (core op).amode ≠ .immediate) (here : (fetch core op).b = op)
    (splits : ((fetch core op).core (fetch core op).a).op = .spl) (outcome : Outcome) (goes : outcome.next = some (ahead op one)) :
    ¬ Leaves mars pid outcome := by
  rintro ⟨last, same, -, ⟨target, next, entries⟩, -⟩
  have cell : corecell (mars.runqtab pid proc) = .ok op := by rw [begun.place, corecell_place]
  have notDat : (mars.optab op).op ≠ .dat := by simp [begun.code, code]
  have moved := cwmovop_copies mars core pid op proc seen begun copies
  rw [wrapcore_next, ← begun.place] at moved
  have inside : InCore ((ahead op one).val : Int) := ⟨Int.natCast_nonneg _, Int.ofNat_lt.mpr (ahead op one).isLt⟩
  have result : cwfunctab (mars.optab op).op mars pid (mars.runqtab pid proc) =
      .ok (seen.setCell (fetch core op).b (seen.optab (fetch core op).a), ((ahead op one).val : Int)) := by
    rw [begun.code, code]
    exact moved
  have ends := (cwexec_ends mars _ pid proc op _ begun.found cell notDat inside result).2 (by
    rw [here]
    simpa [Mars.setCell] using (begun.held _).op.trans splits)
  rw [ends] at same
  cases same
  have entry : seen.runqtab pid proc = target.val := entries proc begun.atCur
  rw [begun.kept.queue.2.2, begun.place] at entry
  rw [goes] at next
  cases next
  exact ahead_one op (Fin.ext (Int.ofNat_inj.mp entry)).symm

include permitted

theorem mov_leaves (code : (core op).op = .mov) :
    Leaves mars pid (icwsstep core op) ↔ Carried (core op) op (fetch core op) (mars.proccnt pid) := by
  simp only [Permitted, code] at permitted
  have yields := cwmovop_yields mars core pid op proc seen begun permitted
  have kept := fetched_op core op
  have step : icwsstep core op = goOn (if (core op).amode = .immediate then (fetch core op).core.putB (fetch core op).b (fetch core op).a
      else (fetch core op).core.put (fetch core op).b ((fetch core op).core (fetch core op).a)) op := by simp only [icwsstep, perform, code]
  have agrees : ∀ after, Yields (cwmovop mars pid op.val) after (ahead op one) → (after op).op ≠ .spl →
      Leaves mars pid (goOn after op) := fun after yields stays =>
    (leaves_iff mars core pid op proc seen begun after _ (goOn after op) (by simp [code]) (by rwa [code]) stays rfl).mpr ⟨rfl, rfl⟩
  simp only [Carried, code]
  rw [step]
  by_cases imm : (core op).amode = .immediate
  · rw [if_pos imm] at yields ⊢
    exact iff_of_true (agrees _ yields (by simp [putB_op, kept, code])) (.inl imm)
  · rw [if_neg imm] at yields ⊢
    by_cases here : (fetch core op).b = op
    · by_cases splits : ((fetch core op).core (fetch core op).a).op = .spl
      · refine iff_of_false (mov_split_stays mars core pid op proc seen begun code imm here splits _ rfl) ?_
        rintro (immediate | elsewhere | other)
        · exact imm immediate
        · exact elsewhere here
        · exact other splits
      · exact iff_of_true (agrees _ yields (by simpa [Core.put, here] using splits)) (.inr (.inr splits))
    · exact iff_of_true (agrees _ yields (by simp [Core.put, Ne.symm here, kept, code])) (.inr (.inl here))

theorem add_leaves (code : (core op).op = .add) :
    Leaves mars pid (icwsstep core op) ↔ Carried (core op) op (fetch core op) (mars.proccnt pid) := by
  simp only [Permitted, code] at permitted
  have yields := cwaddop_yields mars core pid op proc seen begun permitted
  have kept := fetched_op core op
  have leaves := leaves_iff mars core pid op proc seen begun _ _ (icwsstep core op) (by simp [code]) (by rw [code]; exact yields)
  refine iff_of_true ((leaves ?_ ?_).mpr ⟨?_, ?_⟩) (by simp [Carried, code])
  · split
    · simp [putB_op, kept, code]
    · rw [put_op _ _ _ _ (by rfl), kept, code]
      decide
  · simp [icwsstep, perform, code, goOn]
  · simp only [icwsstep, perform, code, goOn]
  · simp only [icwsstep, perform, code, goOn]

omit permitted

theorem sub_leaves (code : (core op).op = .sub) :
    Leaves mars pid (icwsstep core op) ↔ Carried (core op) op (fetch core op) (mars.proccnt pid) := by
  have yields := cwsubop_yields mars core pid op proc seen begun
  have kept := fetched_op core op
  rw [leaves_iff mars core pid op proc seen begun _ _ (icwsstep core op) (by simp [code]) (by rw [code]; exact yields)]
  · simp only [icwsstep, perform, code, goOn, Carried]
    by_cases imm : (core op).amode = .immediate
    · simp [imm]
    · simp only [imm, if_false, false_or, and_true, put_same_iff, Cell.mk.injEq, true_and, behind_swap]
  · split
    · simp [putB_op, kept, code]
    · rw [put_op _ _ _ _ (by rfl), kept, code]
      decide
  · simp [icwsstep, perform, code, goOn]

theorem jmp_leaves (code : (core op).op = .jmp) :
    Leaves mars pid (icwsstep core op) ↔ Carried (core op) op (fetch core op) (mars.proccnt pid) := by
  have yields := cwjmpop_yields mars core pid op proc seen begun
  have kept := fetched_op core op
  rw [leaves_iff mars core pid op proc seen begun _ _ (icwsstep core op) (by simp [code]) (by rw [code]; exact yields)]
  · simp only [icwsstep, perform, code, Carried, true_and, Option.some.injEq]
    by_cases room : mars.proccnt pid < cwnproc
    · simp [room]
    · simp [room, eq_comm]
  · simp [kept, code]
  · simp [icwsstep, perform, code]

omit begun in
theorem branch_agrees (taken meant : Prop) [Decidable taken] [Decidable meant] (target other : Place) :
    (if taken then target else other) = (if meant then target else other) ↔ (target ≠ other → (taken ↔ meant)) := by
  by_cases one : taken <;> by_cases two : meant <;> simp [one, two, eq_comm]

theorem jmz_leaves (code : (core op).op = .jmz) :
    Leaves mars pid (icwsstep core op) ↔ Carried (core op) op (fetch core op) (mars.proccnt pid) := by
  have yields := cwjmzop_yields mars core pid op proc seen begun
  have kept := fetched_op core op
  rw [leaves_iff mars core pid op proc seen begun _ _ (icwsstep core op) (by simp [code]) (by rw [code]; exact yields)]
  · simp only [icwsstep, perform, code, jumpIf, Carried, true_and, Option.some.injEq, branch_agrees]
    by_cases imm : (core op).bmode = .immediate <;> simp [imm]
  · simp [kept, code]
  · simp [icwsstep, perform, code, jumpIf]

theorem jmn_leaves (code : (core op).op = .jmn) :
    Leaves mars pid (icwsstep core op) ↔ Carried (core op) op (fetch core op) (mars.proccnt pid) := by
  have yields := cwjmnop_yields mars core pid op proc seen begun
  have kept := fetched_op core op
  rw [leaves_iff mars core pid op proc seen begun _ _ (icwsstep core op) (by simp [code]) (by rw [code]; exact yields)]
  · simp only [icwsstep, perform, code, jumpIf, Carried, true_and, Option.some.injEq, branch_agrees]
    by_cases imm : (core op).bmode = .immediate <;> simp [imm, not_iff_not]
  · simp [kept, code]
  · simp [icwsstep, perform, code, jumpIf]

theorem cmp_leaves (code : (core op).op = .cmp) :
    Leaves mars pid (icwsstep core op) ↔ Carried (core op) op (fetch core op) (mars.proccnt pid) := by
  have yields := cwcmpop_yields mars core pid op proc seen begun
  have kept := fetched_op core op
  have apart : ahead (ahead op one) one ≠ ahead op one := ahead_one _
  rw [leaves_iff mars core pid op proc seen begun _ _ (icwsstep core op) (by simp [code]) (by rw [code]; exact yields)]
  · simp only [icwsstep, perform, code, skipIf, Carried, true_and, Option.some.injEq, branch_agrees]
    by_cases imm : (core op).amode = .immediate
    · simp [imm]
    · simp only [imm, if_false, false_or]
      constructor
      · exact fun agrees a b => (agrees apart).mp ⟨a, b⟩
      · exact fun alike _ => ⟨fun fields => alike fields.1 fields.2, fun same => by simp [same]⟩
  · simp [kept, code]
  · simp [icwsstep, perform, code, skipIf]

theorem slt_leaves (code : (core op).op = .slt) :
    Leaves mars pid (icwsstep core op) ↔ Carried (core op) op (fetch core op) (mars.proccnt pid) := by
  have yields := cwsltop_yields mars core pid op proc seen begun
  have kept := fetched_op core op
  have apart : ahead (ahead op one) one ≠ ahead op one := ahead_one _
  rw [leaves_iff mars core pid op proc seen begun _ _ (icwsstep core op) (by simp [code]) (by rw [code]; exact yields)]
  · simp only [icwsstep, perform, code, skipIf, Carried, true_and, Option.some.injEq, branch_agrees]
    by_cases imm : (core op).amode = .immediate
    · simp [imm]
    · simp [imm, apart]
  · simp [kept, code]
  · simp [icwsstep, perform, code, skipIf]

omit begun in
theorem counts_agree (less target : Place) : (if less ≠ origin then target else op) = (if less ≠ origin then target else ahead op one) ↔
    less ≠ origin := by
  by_cases last : less = origin
  · simp [last, Ne.symm (ahead_one op)]
  · simp [last]

theorem djn_leaves (code : (core op).op = .djn) :
    Leaves mars pid (icwsstep core op) ↔ Carried (core op) op (fetch core op) (mars.proccnt pid) := by
  have yields := cwdjnop_yields mars core pid op proc seen begun
  have kept := fetched_op core op
  rw [leaves_iff mars core pid op proc seen begun _ _ (icwsstep core op) (by simp [code]) (by rw [code]; exact yields)]
  · simp only [icwsstep, perform, code, jumpIf, Carried, Option.some.injEq]
    by_cases imm : (core op).bmode = .immediate
    · simp only [imm, if_true, true_implies, counted_same]
      constructor
      · rintro ⟨here, agrees⟩
        rw [here, counts_agree, Ne, behind_one_origin] at agrees
        exact ⟨here, agrees⟩
      · rintro ⟨here, above⟩
        rw [here, counts_agree, Ne, behind_one_origin]
        exact ⟨rfl, above⟩
    · simp only [imm, if_false, true_and, false_implies]
      rw [counts_agree, Ne, behind_one_origin]
  · simp [putB_op, kept, code]
  · simp [icwsstep, perform, code, jumpIf]

theorem spl_leaves (placed : Placed mars) (code : (core op).op = .spl) :
    Leaves mars pid (icwsstep core op) ↔ Carried (core op) op (fetch core op) (mars.proccnt pid) := by
  obtain ⟨low, below, bound⟩ := begun.procs
  obtain ⟨cnt, cur, runq⟩ := begun.kept.queue
  have seenPlaced : Placed seen := ⟨by rw [cnt, cur]; exact placed.procs, by rw [cnt, runq]; exact placed.pcs⟩
  obtain ⟨next, result, optab, -, passes⟩ := cwsplop_passes seen pid op op.val _ _ mars (corecell_place op) begun.args seenPlaced
  rw [wrapcore_next] at result passes
  have cell : corecell (mars.runqtab pid proc) = .ok op := by rw [begun.place, corecell_place]
  have inside : InCore ((ahead op one).val : Int) := ⟨Int.natCast_nonneg _, Int.ofNat_lt.mpr (ahead op one).isLt⟩
  have step : cwfunctab (mars.optab op).op mars pid (mars.runqtab pid proc) = .ok (next, ((ahead op one).val : Int)) := by
    rw [begun.code, code, begun.place]
    exact result
  have splits : (next.optab op).op = .spl := by rw [optab, (begun.held op).op, fetched_op core op, code]
  have ends := (cwexec_ends mars next pid proc op _ begun.found cell (by simp [begun.code, code]) inside step).2 splits
  refine iff_of_true ⟨_, ends, ?_, ⟨ahead op one, by simp [icwsstep, perform, code], fun entry atCur => ?_⟩, ?_⟩ (by simp [Carried, code])
  · simp only [icwsstep, perform, code]
    intro other
    rw [optab]
    exact begun.held other
  · have entered := passes.kept entry (by rw [cnt, atCur]; exact below)
    rw [cur, if_pos atCur] at entered
    exact entered
  · intro start split free atEnd
    simp only [icwsstep, perform, code, Option.some.injEq] at split
    subst split
    have room : seen.proccnt pid < cwnproc := by
      rw [cnt, ← atEnd]
      exact Int.ofNat_lt.mpr free.isLt
    have grown := passes.proccnt
    rw [if_pos room] at passes grown
    refine ⟨passes.added _ rfl free (by rw [cnt, atEnd]), ?_⟩
    rw [cnt] at grown
    simpa using grown

include permitted

theorem carried_iff (placed : Placed mars) :
    Leaves mars pid (icwsstep core op) ↔ Carried (core op) op (fetch core op) (mars.proccnt pid) := by
  cases code : (core op).op with
  | dat => simp [Permitted, code] at permitted
  | mov => exact mov_leaves mars core pid op proc seen begun permitted code
  | add => exact add_leaves mars core pid op proc seen begun permitted code
  | sub => exact sub_leaves mars core pid op proc seen begun code
  | jmp => exact jmp_leaves mars core pid op proc seen begun code
  | jmz => exact jmz_leaves mars core pid op proc seen begun code
  | jmn => exact jmn_leaves mars core pid op proc seen begun code
  | cmp => exact cmp_leaves mars core pid op proc seen begun code
  | slt => exact slt_leaves mars core pid op proc seen begun code
  | djn => exact djn_leaves mars core pid op proc seen begun code
  | spl => exact spl_leaves mars core pid op proc seen begun placed code

end Opcodes

theorem decoded_begins (mars : Mars) (core : Core) (pid : Fin 2) (op : Place) (holds : Represents mars core) (placed : Placed mars)
    (executes : Executes mars pid op op.val) (decodes : Decodes mars core op) : ∃ proc seen, Begun mars core pid op proc seen := by
  obtain ⟨proc, found, place, -⟩ := executes
  obtain ⟨seen, _, _, args, held, rfl, rfl⟩ := decodes
  obtain ⟨low, below, bound⟩ := placed.procs pid
  obtain ⟨same, again, atCur⟩ := runqcell_in_queue (mars.curproc pid) low (by omega)
  rw [found] at again
  cases again
  obtain ⟨middle, first, second⟩ := (cwgetargs_iff mars op op.val seen _ _).mp args
  have one := cwgetarg_keeps mars _ _ _ middle _ first
  have two := cwgetarg_keeps middle _ _ _ seen _ second
  refine ⟨proc, seen, ⟨low, below, bound⟩, found, atCur, place, (holds op).op, args, held, ?_⟩
  exact kept_trans mars middle seen one two

def Addressing.flags (mode : Addressing) : Flags := ⟨false, false, mode = .immediate, mode = .indirect, mode = .predecrement⟩

def Cell.encode (cell : Cell) : Instr :=
  ⟨cell.op, cell.amode.flags, cell.bmode.flags, pid0, BitVec.ofNat 16 cell.a.val, BitVec.ofNat 16 cell.b.val⟩

-- A core with one process of each player at address 0.
def started (core : Core) : Mars := ⟨fun cell => (core cell).encode, fun _ _ => 0, fun _ => 1, fun _ => 0⟩

theorem started_represents (core : Core) : Represents (started core) core := by
  intro cell
  have bounds := And.intro (place_lt (core cell).a) (place_lt (core cell).b)
  refine ⟨rfl, ⟨rfl, rfl, rfl⟩, ⟨rfl, rfl, rfl⟩, ?_, ?_⟩
  · exact (BitVec.toNat_ofNat _ _).trans (Nat.mod_eq_of_lt (by omega))
  · exact (BitVec.toNat_ofNat _ _).trans (Nat.mod_eq_of_lt (by omega))

theorem started_placed (core : Core) : Placed (started core) :=
  ⟨fun _ => one_process, fun _ _ _ => base_in_core origin⟩

theorem started_executes (core : Core) (pid : Fin 2) : Executes (started core) pid origin 0 := ⟨⟨0, by decide⟩, rfl, rfl, rfl⟩

-- One turn of a process: its operands and what it leaves are those of the standard.
def Obeys (mars : Mars) (core : Core) (pid : Fin 2) (op : Place) : Prop :=
  Decodes mars core op ∧ Leaves mars pid (icwsstep core op)

theorem cwexec_obeys_iff (mars : Mars) (core : Core) (pid : Fin 2) (op : Place) (holds : Represents mars core) (placed : Placed mars)
    (executes : Executes mars pid op op.val) (permitted : Permitted (core op)) : Obeys mars core pid op ↔
      Addressed core op ∧ Carried (core op) op (fetch core op) (mars.proccnt pid) := by
  rw [Obeys, ← addressed_iff, ← decodes_iff mars core holds]
  refine and_congr_right fun decodes => ?_
  obtain ⟨proc, seen, begun⟩ := decoded_begins mars core pid op holds placed executes decodes
  exact carried_iff mars core pid op proc seen begun permitted placed

def stillCore : Core := fun _ => ⟨.dat, .direct, .direct, origin, origin⟩

-- DJN 0, 1 with 5 in the cell behind it
def countingCore : Core :=
  (stillCore.put origin ⟨.djn, .direct, .direct, origin, one⟩).put one ⟨.dat, .immediate, .immediate, origin, ⟨5, by decide⟩⟩

theorem cwexec_obeys_iff_counting : Obeys (started countingCore) countingCore pid0 origin :=
  (cwexec_obeys_iff (started countingCore) countingCore pid0 origin (started_represents _) (started_placed _) (started_executes _ _)
    (show (countingCore origin).amode ≠ .immediate by decide)).mpr ⟨⟨by decide, by decide, fun counted => absurd counted (by decide), by decide⟩,
      (show ((countingCore origin).bmode = .immediate → _) ∧ _ ≠ one from ⟨fun imm => absurd imm (by decide), by decide⟩)⟩

-- SUB 1, 2 with 1 and 3 in the two cells behind it
def takingCore : Core :=
  ((stillCore.put origin ⟨.sub, .direct, .direct, one, ⟨2, by decide⟩⟩).put one ⟨.dat, .immediate, .immediate, origin, one⟩).put
    ⟨2, by decide⟩ ⟨.dat, .immediate, .immediate, origin, ⟨3, by decide⟩⟩

theorem sub_takes_target : Represents (started takingCore) takingCore ∧ Placed (started takingCore) ∧
    Executes (started takingCore) pid0 origin 0 ∧ Permitted (takingCore origin) ∧ ¬ Obeys (started takingCore) takingCore pid0 origin := by
  refine ⟨started_represents _, started_placed _, started_executes _ _, (show (takingCore origin).bmode ≠ .immediate by decide), ?_⟩
  rintro ⟨-, next, same, held, -⟩
  have stored : (cwexec (started takingCore) pid0).toOption.map (fun after => after.b ⟨2, by decide⟩) = some 7998 := by decide +kernel
  have meant : ((icwsstep takingCore origin).core ⟨2, by decide⟩).b.val = 2 := by decide +kernel
  rw [same] at stored
  have found : next.b ⟨2, by decide⟩ = 7998 := Option.some.inj stored
  rw [holds_b next _ held, meant] at found
  exact absurd found (by decide)

end OsZero.CoreWar

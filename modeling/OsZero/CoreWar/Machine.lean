import Mathlib.Logic.Function.Basic
import Mathlib.Data.BitVec

set_option autoImplicit false

namespace OsZero.CoreWar

def cwcoresize : Nat := 8000
def cwnproc : Nat := 1024
def cwnone : Int := -1

inductive Opcode where
  | dat | mov | add | sub | jmp | jmz | jmn | cmp | slt | djn | spl
deriving DecidableEq, Repr

-- The flag byte of an operand, one field for each bit the source names.
structure Flags where
  sign : Bool
  rel : Bool
  imm : Bool
  indir : Bool
  predec : Bool
deriving DecidableEq, Repr

-- Only 0 and 1 are ever stored in the pid byte.
structure Instr where
  op : Opcode
  aflg : Flags
  bflg : Flags
  pid : Fin 2
  a : BitVec 16
  b : BitVec 16
deriving DecidableEq, Repr

def pid0 : Fin 2 := 0
def pid1 : Fin 2 := 1

def noFlags : Flags := ⟨false, false, false, false, false⟩

def emptyCell : Instr := ⟨.dat, noFlags, noFlags, pid0, 0, 0⟩

-- What cwexec reads and writes; the turn counters belong to cwloop and the
-- pid map to the display.
structure Mars where
  optab : Fin cwcoresize → Instr
  runqtab : Fin 2 → Fin cwnproc → Int
  proccnt : Fin 2 → Int
  curproc : Fin 2 → Int

-- The line printed when a player has won: its number and the program name the
-- source puts behind it.
structure Report where
  winner : Fin 2
  progname : Fin 2
  pc : Int
deriving DecidableEq, Repr

inductive Diagnostic where
  | won (report : Report)
  | invalidMnemonic
  | invalidAField
  | invalidBField
  | programsOverlap
  | failedToTranslate
deriving DecidableEq, Repr

-- A call that does not return either exits the process with a diagnostic or
-- touches memory outside the array it indexes.
inductive Stop where
  | exit (diagnostic : Diagnostic)
  | fault
deriving DecidableEq, Repr

def corecell (index : Int) : Except Stop (Fin cwcoresize) :=
  if inside : 0 ≤ index ∧ index < cwcoresize then .ok ⟨index.toNat, by omega⟩ else .error .fault

def runqcell (index : Int) : Except Stop (Fin cwnproc) :=
  if inside : 0 ≤ index ∧ index < cwnproc then .ok ⟨index.toNat, by omega⟩ else .error .fault

def Mars.setCell (mars : Mars) (cell : Fin cwcoresize) (instr : Instr) : Mars :=
  { mars with optab := Function.update mars.optab cell instr }

-- Stores into the 16-bit fields keep the low bits of the long.
def Mars.setA (mars : Mars) (cell : Fin cwcoresize) (value : Int) : Mars :=
  mars.setCell cell { mars.optab cell with a := BitVec.ofInt 16 value }

def Mars.setB (mars : Mars) (cell : Fin cwcoresize) (value : Int) : Mars :=
  mars.setCell cell { mars.optab cell with b := BitVec.ofInt 16 value }

def Mars.clearBSign (mars : Mars) (cell : Fin cwcoresize) : Mars :=
  mars.setCell cell { mars.optab cell with bflg := { (mars.optab cell).bflg with sign := false } }

def Mars.setProc (mars : Mars) (pid : Fin 2) (proc : Fin cwnproc) (pc : Int) : Mars :=
  { mars with runqtab := Function.update mars.runqtab pid (Function.update (mars.runqtab pid) proc pc) }

def Mars.a (mars : Mars) (cell : Fin cwcoresize) : Int := (mars.optab cell).a.toNat

def Mars.b (mars : Mars) (cell : Fin cwcoresize) : Int := (mars.optab cell).b.toNat

-- The % of the source keeps the sign of its left operand.
def wrapcore (value : Int) : Int := value.tmod cwcoresize

-- cwgetargs treats its two operands alike; the second one is read after the
-- first one's decrement has been stored.
def cwgetarg (mars : Mars) (flg : Flags) (field pc : Int) : Except Stop (Mars × Int) :=
  if flg.imm then .ok (mars, wrapcore field)
  else
    let tmp := wrapcore (pc + field)
    if flg.indir ∨ flg.predec then do
      let ptr ← corecell tmp
      if flg.predec then
        let tmp := mars.b ptr - 1
        .ok (mars.setB ptr tmp, wrapcore (tmp + pc))
      else .ok (mars, wrapcore (mars.b ptr + pc))
    else .ok (mars, wrapcore tmp)

def cwgetargs (mars : Mars) (op : Fin cwcoresize) (pc : Int) : Except Stop (Mars × Int × Int) := do
  let (mars, arg1) ← cwgetarg mars (mars.optab op).aflg (mars.a op) pc
  let (mars, arg2) ← cwgetarg mars (mars.optab op).bflg (mars.b op) pc
  .ok (mars, arg1, arg2)

def won (pid progname : Fin 2) (pc : Int) : Stop := .exit (.won ⟨if pid = pid0 then pid1 else pid0, progname, pc⟩)

def cwdatop (_ : Mars) (pid : Fin 2) (pc : Int) : Except Stop (Mars × Int) :=
  .error (won pid (if pid = pid0 then pid1 else pid0) pc)

def cwmovop (mars : Mars) (_ : Fin 2) (pc : Int) : Except Stop (Mars × Int) := do
  let op ← corecell pc
  let (mars, arg1, arg2) ← cwgetargs mars op pc
  let target ← corecell arg2
  if (mars.optab op).aflg.imm ∧ ¬ (mars.optab op).bflg.imm then
    .ok (mars.setB target arg1, wrapcore (pc + 1))
  else
    let source ← corecell arg1
    .ok (mars.setCell target (mars.optab source), wrapcore (pc + 1))

def cwaddop (mars : Mars) (_ : Fin 2) (pc : Int) : Except Stop (Mars × Int) := do
  let op ← corecell pc
  let (mars, arg1, arg2) ← cwgetargs mars op pc
  if (mars.optab op).aflg.imm then
    if (mars.optab op).bflg.imm then
      let mars := mars.clearBSign op
      .ok (mars.setB op (wrapcore (arg2 + arg1)), wrapcore (pc + 1))
    else
      let target ← corecell arg2
      let b := wrapcore (mars.b target + arg1)
      let mars := mars.clearBSign target
      .ok (mars.setB target b, wrapcore (pc + 1))
  else if (mars.optab op).bflg.imm then
    .ok (mars.setB op (wrapcore (arg2 + arg1)), wrapcore (pc + 1))
  else
    let source ← corecell arg1
    let target ← corecell arg2
    let a := wrapcore (mars.a source + mars.a target)
    let b := wrapcore (mars.b source + mars.b target)
    .ok ((mars.setA target a).setB target b, wrapcore (pc + 1))

-- The source brings a negative difference back with one addition.
def cwborrow (value : Int) : Int := if value < 0 then value + cwcoresize else value

def cwsubop (mars : Mars) (_ : Fin 2) (pc : Int) : Except Stop (Mars × Int) := do
  let op ← corecell pc
  let (mars, arg1, arg2) ← cwgetargs mars op pc
  if (mars.optab op).aflg.imm then
    let target ← corecell arg2
    .ok (mars.setB target (cwborrow (mars.b target - arg1)), wrapcore (pc + 1))
  else
    let source ← corecell arg1
    let target ← corecell arg2
    let a := cwborrow (mars.a source - mars.a target)
    let b := cwborrow (mars.b source - mars.b target)
    .ok ((mars.setA target a).setB target b, wrapcore (pc + 1))

-- The four jumps store their target in the last entry of the run queue, then
-- cwexec stores it again in the entry of the running process.
def cwjump (mars : Mars) (pid : Fin 2) (pc : Int) : Except Stop (Mars × Int) := do
  let last ← runqcell (mars.proccnt pid - 1)
  .ok (mars.setProc pid last pc, pc)

def cwjmpop (mars : Mars) (pid : Fin 2) (pc : Int) : Except Stop (Mars × Int) := do
  let op ← corecell pc
  let (mars, _, arg2) ← cwgetargs mars op pc
  if mars.proccnt pid < cwnproc then cwjump mars pid arg2 else .ok (mars, pc)

def cwjmzop (mars : Mars) (pid : Fin 2) (pc : Int) : Except Stop (Mars × Int) := do
  let op ← corecell pc
  let (mars, arg1, arg2) ← cwgetargs mars op pc
  let target ← corecell arg2
  if mars.b target = 0 then cwjump mars pid arg1 else .ok (mars, wrapcore (pc + 1))

def cwjmnop (mars : Mars) (pid : Fin 2) (pc : Int) : Except Stop (Mars × Int) := do
  let op ← corecell pc
  let (mars, arg1, arg2) ← cwgetargs mars op pc
  let target ← corecell arg2
  if mars.b target ≠ 0 then cwjump mars pid arg1 else .ok (mars, wrapcore (pc + 1))

-- CMP and SLT skip one instruction when their comparison holds.
def cwskip (skip : Prop) [Decidable skip] (pc : Int) : Int := wrapcore (if skip then pc + 1 + 1 else pc + 1)

def cwcmpop (mars : Mars) (_ : Fin 2) (pc : Int) : Except Stop (Mars × Int) := do
  let op ← corecell pc
  let (mars, arg1, arg2) ← cwgetargs mars op pc
  if (mars.optab op).aflg.imm then
    let target ← corecell arg2
    .ok (mars, cwskip (arg1 = mars.b target) pc)
  else
    let source ← corecell arg1
    let target ← corecell arg2
    .ok (mars, cwskip (mars.a source = mars.a target ∧ mars.b source = mars.b target) pc)

-- Without an immediate operand the source compares the B-field of its target
-- with itself.
def cwsltop (mars : Mars) (_ : Fin 2) (pc : Int) : Except Stop (Mars × Int) := do
  let op ← corecell pc
  let (mars, arg1, arg2) ← cwgetargs mars op pc
  let target ← corecell arg2
  let b := mars.b target
  if (mars.optab op).aflg.imm then .ok (mars, cwskip (arg1 < b) pc)
  else .ok (mars, cwskip (mars.b target < b) pc)

def cwdjnop (mars : Mars) (pid : Fin 2) (pc : Int) : Except Stop (Mars × Int) := do
  let op ← corecell pc
  let (mars, arg1, arg2) ← cwgetargs mars op pc
  let counter ← corecell (if (mars.optab op).bflg.imm then arg1 else arg2)
  let b := cwborrow (mars.b counter - 1)
  let mars := mars.setB counter b
  if b ≠ 0 then cwjump mars pid arg1 else .ok (mars, pc)

def cwsplop (mars : Mars) (pid : Fin 2) (pc : Int) : Except Stop (Mars × Int) := do
  let op ← corecell pc
  let (mars, _, arg2) ← cwgetargs mars op pc
  let pc := wrapcore (pc + 1)
  let cnt := mars.proccnt pid
  let cur ← runqcell (mars.curproc pid)
  let mars := mars.setProc pid cur pc
  if cnt < cwnproc then
    let last ← runqcell cnt
    let mars := mars.setProc pid last arg2
    .ok ({ mars with proccnt := Function.update mars.proccnt pid (cnt + 1) }, pc)
  else .ok (mars, pc)

def cwfunctab : Opcode → Mars → Fin 2 → Int → Except Stop (Mars × Int)
  | .dat => cwdatop
  | .mov => cwmovop
  | .add => cwaddop
  | .sub => cwsubop
  | .jmp => cwjmpop
  | .jmz => cwjmzop
  | .jmn => cwjmnop
  | .cmp => cwcmpop
  | .slt => cwsltop
  | .djn => cwdjnop
  | .spl => cwsplop

-- for (l = cur ; l < cnt - 1 ; l++): count is the number of iterations left.
def runqshift (runq : Fin cwnproc → Int) (l : Int) : Nat → Except Stop (Fin cwnproc → Int)
  | 0 => .ok runq
  | count + 1 => do
      let here ← runqcell l
      let after ← runqcell (l + 1)
      runqshift (Function.update runq here (runq after)) (l + 1) count

-- The queue entry is written and the turn passed on according to the opcode
-- the executed cell holds after the instruction has run.
def cwexec (mars : Mars) (pid : Fin 2) : Except Stop Mars := do
  let cur := mars.curproc pid
  let proc ← runqcell cur
  let pc := mars.runqtab pid proc
  let op ← corecell pc
  if mars.optab op = emptyCell then .error (won pid pid1 pc)
  else
    let (mars, pc) ← cwfunctab (mars.optab op).op mars pid pc
    let cnt := mars.proccnt pid
    let (mars, cur) ←
      if pc = cwnone then
        if cnt > 1 then do
          let runq ← runqshift (mars.runqtab pid) cur (cnt - 1 - cur).toNat
          .ok ({ mars with runqtab := Function.update mars.runqtab pid runq
                           proccnt := Function.update mars.proccnt pid (cnt - 1) }, cur)
        else .error (won pid pid1 pc)
      else if (mars.optab op).op ≠ .spl then .ok (mars.setProc pid proc pc, cur + 1)
      else .ok (mars, cur)
    let cur := if cur = mars.proccnt pid then 0 else cur
    .ok { mars with curproc := Function.update mars.curproc pid cur }

-- A game is over once a call has exited; cwloop makes no further call then.
inductive Game where
  | running (mars : Mars)
  | ended (diagnostic : Diagnostic)

def cwstep : Game → Fin 2 → Option Game
  | .running mars, pid =>
      match cwexec mars pid with
      | .ok next => some (.running next)
      | .error (.exit diagnostic) => some (.ended diagnostic)
      | .error .fault => none
  | .ended diagnostic, _ => some (.ended diagnostic)

end OsZero.CoreWar

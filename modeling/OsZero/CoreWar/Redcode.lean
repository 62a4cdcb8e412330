import OsZero.CoreWar.Machine

set_option autoImplicit false

namespace OsZero.CoreWar

-- Source text is a list of bytes, each written as the character of its code;
-- the ctype predicates are those of the C locale.
def isspace (c : Char) : Bool := c = ' ' ∨ (9 ≤ c.toNat ∧ c.toNat ≤ 13)

def isdigit (c : Char) : Bool := 48 ≤ c.toNat ∧ c.toNat ≤ 57

def isalpha (c : Char) : Bool := (65 ≤ c.toNat ∧ c.toNat ≤ 90) ∨ (97 ≤ c.toNat ∧ c.toNat ≤ 122)

def toupper (c : Char) : Char := if 97 ≤ c.toNat ∧ c.toNat ≤ 122 then Char.ofNat (c.toNat - 32) else c

def rcoptab : List (List Char × Opcode) :=
  [(['D', 'A', 'T'], .dat), (['M', 'O', 'V'], .mov), (['A', 'D', 'D'], .add), (['S', 'U', 'B'], .sub),
    (['J', 'M', 'P'], .jmp), (['J', 'M', 'Z'], .jmz), (['J', 'M', 'N'], .jmn), (['C', 'M', 'P'], .cmp),
    (['S', 'L', 'T'], .slt), (['D', 'J', 'N'], .djn), (['S', 'P', 'L'], .spl)]

def rcnarg : Opcode → Nat
  | .dat => 1
  | .jmp => 1
  | .spl => 1
  | _ => 2

-- The parse tables form a trie over the registered names: a pointer to the
-- next table is NULL exactly when no name starts with the letters read so far.
def rctable (letters : List Char) : Bool := rcoptab.any fun entry => letters.isPrefixOf entry.1

-- *cp: the buffer of a line ends somewhere, and reading past it is a fault.
def rcpeek : List Char → Except Stop Char
  | [] => .error .fault
  | c :: _ => .ok c

-- The third table is read without a test of its pointer.
def rcfindop (cp : List Char) : Except Stop (Option Opcode) := do
  let c0 ← rcpeek cp
  if rctable [toupper c0] then
    let c1 ← rcpeek (cp.drop 1)
    if isalpha c1 ∧ rctable [toupper c0, toupper c1] then
      let c2 ← rcpeek (cp.drop 2)
      if isalpha c2 then
        let c3 ← rcpeek (cp.drop 3)
        if isspace c3 then
          match rcoptab.lookup [toupper c0, toupper c1, toupper c2] with
          | some op => .ok (some op)
          | none => .error .fault
        else .ok none
      else .ok none
    else .ok none
  else .ok none

def rcskipwhile (skip : Char → Bool) : List Char → Except Stop (List Char)
  | [] => .error .fault
  | c :: cs => if skip c then rcskipwhile skip cs else .ok (c :: cs)

inductive Mode where
  | immediate | indirect | predecrement | dollar | plain
deriving DecidableEq, Repr

def rcmode (cp : List Char) : Except Stop (Mode × List Char) := do
  let c ← rcpeek cp
  .ok (if c = '#' then (.immediate, cp.drop 1)
    else if c = '@' then (.indirect, cp.drop 1)
    else if c = '<' then (.predecrement, cp.drop 1)
    else if c = '$' then (.dollar, cp.drop 1)
    else (.plain, cp))

-- The magnitude is accumulated in a long that wraps.
def rcdigits (val : Nat) : List Char → Except Stop (Nat × List Char)
  | [] => .error .fault
  | c :: cs => if isdigit c then rcdigits ((val * 10 + (c.toNat - 48)) % 2 ^ 64) cs else .ok (val, c :: cs)

structure Operand where
  mode : Mode
  sign : Bool
  val : Nat
deriving DecidableEq, Repr

def rcoperand (invalid : Diagnostic) (cp : List Char) : Except Stop (Operand × List Char) := do
  let (mode, cp) ← rcmode cp
  let c ← rcpeek cp
  let sign := c = '-'
  let cp := if sign then cp.drop 1 else cp
  let c ← rcpeek cp
  if isdigit c then
    let (val, cp) ← rcdigits 0 cp
    .ok (⟨mode, sign, val⟩, cp)
  else .error (.exit invalid)

-- What a line says, before it is packed into the fields of a cell.
structure Line where
  op : Opcode
  aoperand : Option Operand
  boperand : Option Operand
deriving DecidableEq, Repr

def rcparse (cp : List Char) : Except Stop Line := do
  let cp ← rcskipwhile isspace cp
  let c ← rcpeek cp
  let found ← if isalpha c then rcfindop cp else .ok none
  match found with
  | none => .error (.exit .invalidMnemonic)
  | some op =>
      let cp ← rcskipwhile isalpha cp
      let c ← rcpeek cp
      if c = '\x00' then .ok ⟨op, none, none⟩
      else
        let cp ← rcskipwhile isspace cp
        let c ← rcpeek cp
        if c = '\x00' then .ok ⟨op, none, none⟩
        else
          let (aoperand, cp) ←
            if rcnarg op = 2 then do
              let (operand, cp) ← rcoperand .invalidAField cp
              .ok (some operand, cp)
            else .ok (none, cp)
          let cp ← rcskipwhile isspace cp
          let c ← rcpeek cp
          let cp ← if c = ',' then rcskipwhile isspace (cp.drop 1) else .ok cp
          let (boperand, _) ← rcoperand .invalidBField cp
          .ok ⟨op, aoperand, some boperand⟩

def Operand.flags (operand : Operand) : Flags :=
  ⟨operand.sign, operand.mode = .plain, operand.mode = .immediate, operand.mode = .indirect,
    operand.mode = .predecrement⟩

def Operand.field (operand : Operand) : BitVec 16 :=
  BitVec.ofInt 16 (if operand.sign then cwcoresize - operand.val else operand.val)

def operandFlags (operand : Option Operand) : Flags := (operand.map Operand.flags).getD noFlags

def operandField (operand : Option Operand) : BitVec 16 := (operand.map Operand.field).getD 0

-- A B-operand without a mode sets the relative bit of the A-flags.
def Line.instr (line : Line) : Instr :=
  { op := line.op
    aflg := { operandFlags line.aoperand with
      rel := (operandFlags line.aoperand).rel || (operandFlags line.boperand).rel }
    bflg := { operandFlags line.boperand with rel := false }
    pid := pid0
    a := operandField line.aoperand
    b := operandField line.boperand }

def rcgetop (cp : List Char) : Except Stop Instr := do
  let line ← rcparse cp
  .ok line.instr

-- One call of rcgetline: the bytes up to the newline or the end of the file.
def rcgetline : List Char → Option (List Char × List Char)
  | [] => none
  | file => some (file.takeWhile (· ≠ '\n'), (file.dropWhile (· ≠ '\n')).drop 1)

-- The lines that repeated calls of rcgetline return.
def rclines : List Char → List (List Char)
  | [] => []
  | c :: file =>
      if c = '\n' then [] :: rclines file
      else
        match rclines file with
        | [] => [[c]]
        | line :: lines => (c :: line) :: lines

theorem rclines_cons (c : Char) (file : List Char) :
    rclines (c :: file) = (c :: file).takeWhile (· ≠ '\n') :: rclines (((c :: file).dropWhile (· ≠ '\n')).drop 1) := by
  induction file generalizing c with
  | nil => by_cases newline : c = '\n' <;> simp [rclines, newline]
  | cons d file ih =>
      by_cases newline : c = '\n'
      · simp [rclines, newline]
      · rw [rclines, if_neg newline, ih d]
        simp [newline]

theorem rclines_getline (file : List Char) :
    rclines file = match rcgetline file with
      | none => []
      | some (line, rest) => line :: rclines rest := by
  cases file with
  | nil => rfl
  | cons c file => exact rclines_cons c file

-- A line buffer holds the line, a newline and, up to the end of its
-- allocation, whatever the memory held before; garbage gives these last bytes.
def rcbuffers (file : List Char) (garbage : Nat → List Char) : List (List Char) :=
  (rclines file).mapIdx fun n line => line ++ '\n' :: garbage n

-- The blanks in front of a line; a newline among them is remembered for the
-- rest of the file.
def rcblank (wrap : Bool) : List Char → Except Stop (Bool × List Char)
  | [] => .error .fault
  | c :: cs => if isspace c then rcblank (wrap || c = '\n') cs else .ok (wrap, c :: cs)

structure Xlate where
  optab : Fin cwcoresize → Instr
  pc : Int
  ret : Int
  wrap : Bool

def rcstore (pid : Fin 2) (instr : Instr) (state : Xlate) : Except Stop Xlate := do
  let cell ← corecell state.pc
  if state.optab cell ≠ emptyCell then .error (.exit .programsOverlap)
  else
    .ok { optab := Function.update state.optab cell { instr with pid := pid }
          pc := wrapcore (state.pc + 1)
          ret := if state.ret < 0 ∧ instr.op ≠ .dat then state.pc else state.ret
          wrap := state.wrap }

def rcloop (pid : Fin 2) : List (List Char) → Xlate → Except Stop Xlate
  | [], state => .ok state
  | buffer :: buffers, state => do
      let (wrap, cp) ← rcblank state.wrap buffer
      let c ← rcpeek cp
      let state := { state with wrap := wrap }
      if c = ';' then rcloop pid buffers state
      else if isalpha c then do
        let instr ← rcgetop cp
        let state ← rcstore pid instr state
        rcloop pid buffers state
      else if wrap then rcloop pid buffers state
      else .ok state

def rcxlate (buffers : List (List Char)) (pid : Fin 2) (base : Int) (optab : Fin cwcoresize → Instr) :
    Except Stop Xlate :=
  rcloop pid buffers ⟨optab, base, -1, false⟩

def cwstart (program1 program2 : List (List Char)) (base1 base2 : Fin cwcoresize) : Except Stop Mars := do
  let first ← rcxlate program1 pid0 base1 fun _ => emptyCell
  if first.ret < 0 then .error (.exit .failedToTranslate)
  else
    let second ← rcxlate program2 pid1 base2 first.optab
    if second.ret < 0 then .error (.exit .failedToTranslate)
    else
      .ok { optab := second.optab
            runqtab := fun pid proc => if proc.val = 0 then (if pid = pid0 then first.ret else second.ret) else 0
            proccnt := fun _ => 1
            curproc := fun _ => 0 }

end OsZero.CoreWar

import OsZero.CoreWar.Redcode

set_option autoImplicit false

namespace OsZero.CoreWar

inductive Stream where
  | stderr
  | other (file : Nat)
deriving DecidableEq, Repr

def cwopname : Opcode → List Char
  | .dat => ['D', 'A', 'T']
  | .mov => ['M', 'O', 'V']
  | .add => ['A', 'D', 'D']
  | .sub => ['S', 'U', 'B']
  | .jmp => ['J', 'M', 'P']
  | .jmz => ['J', 'M', 'Z']
  | .jmn => ['J', 'M', 'N']
  | .cmp => ['C', 'M', 'P']
  | .slt => ['S', 'L', 'T']
  | .djn => ['D', 'J', 'N']
  | .spl => ['S', 'P', 'L']

def digitchar (n : Nat) : Char := Char.ofNat (48 + n)

def decimal (n : Nat) : List Char := if n < 10 then [digitchar n] else decimal (n / 10) ++ [digitchar (n % 10)]

-- What %d prints.
def printed (n : Int) : List Char := if n < 0 then '-' :: decimal n.natAbs else decimal n.natAbs

def modechar (imm indir predec : Bool) : List Char :=
  if imm then ['#'] else if indir then ['@'] else if predec then ['<'] else []

def fieldvalue (sign : Bool) (field : BitVec 16) : Int := if sign then (field.toNat : Int) - cwcoresize else field.toNat

-- The writes in order, each with the stream it goes to. The B-field is tested
-- for CWPREDECBIT in aflg, and without a sign it goes to stderr.
def cwdisasm (op : Instr) (fp : Stream) : List (Stream × List Char) :=
  (fp, '\t' :: cwopname op.op ++ ['\t']) ::
    (if rcnarg op.op = 2 then
      [(fp, modechar op.aflg.imm op.aflg.indir op.aflg.predec), (fp, printed (fieldvalue op.aflg.sign op.a))]
    else []) ++
    [(fp, '\t' :: modechar op.bflg.imm op.bflg.indir op.aflg.predec),
      (if op.bflg.sign then fp else .stderr, printed (fieldvalue op.bflg.sign op.b) ++ ['\n'])]

def written (stream : Stream) (writes : List (Stream × List Char)) : List Char :=
  (writes.filter fun write => write.1 = stream).flatMap Prod.snd

structure SameMode (left right : Flags) : Prop where
  imm : left.imm = right.imm
  indir : left.indir = right.indir
  predec : left.predec = right.predec

structure Agree (left right : Instr) : Prop where
  op : left.op = right.op
  amode : SameMode left.aflg right.aflg
  bmode : SameMode left.bflg right.bflg
  a : left.a = right.a
  b : left.b = right.b

def ReadsBack (fp : Stream) (instr : Instr) : Prop :=
  ∃ back, rcgetop (written fp (cwdisasm instr fp) ++ ['\x00']) = .ok back ∧ Agree back instr

theorem digit_of_digitchar (n : Nat) (low : n < 10) : isdigit (digitchar n) = true ∧ (digitchar n).toNat - 48 = n := by
  revert low
  revert n
  decide

theorem decimal_digits (n : Nat) : ∀ c ∈ decimal n, isdigit c = true := by
  induction n using Nat.strongRecOn with
  | ind n ih =>
    rw [decimal]
    split
    · rename_i low
      intro c here
      rw [List.mem_singleton.mp here]
      exact (digit_of_digitchar n low).1
    · rename_i high
      intro c here
      rcases List.mem_append.mp here with front | last
      · exact ih (n / 10) (by omega) c front
      · rw [List.mem_singleton.mp last]
        exact (digit_of_digitchar (n % 10) (Nat.mod_lt n (by decide))).1

theorem decimal_cons (n : Nat) : ∃ c cs, decimal n = c :: cs := by
  cases shape : decimal n with
  | nil =>
    rw [decimal] at shape
    split at shape <;> simp at shape
  | cons c cs => exact ⟨c, cs, rfl⟩

-- Reading digits goes on from the value read so far.
theorem rcdigits_append (front back : List Char) (val : Nat) (digits : ∀ c ∈ front, isdigit c = true) :
    rcdigits val (front ++ back) = rcdigits (front.foldl (fun val c => (val * 10 + (c.toNat - 48)) % 2 ^ 64) val) back := by
  induction front generalizing val with
  | nil => rfl
  | cons c front ih =>
    rw [List.cons_append, rcdigits, if_pos (digits c (by simp)), ih _ fun d inside => digits d (by simp [inside])]
    rfl

theorem decimal_value (n : Nat) (small : n < 2 ^ 64) :
    (decimal n).foldl (fun val c => (val * 10 + (c.toNat - 48)) % 2 ^ 64) 0 = n := by
  induction n using Nat.strongRecOn with
  | ind n ih =>
    rw [decimal]
    split
    · rename_i low
      simp only [List.foldl_cons, List.foldl_nil, (digit_of_digitchar n low).2]
      omega
    · rename_i high
      rw [List.foldl_append, ih (n / 10) (by omega) (by omega)]
      simp only [List.foldl_cons, List.foldl_nil, (digit_of_digitchar (n % 10) (Nat.mod_lt n (by decide))).2]
      omega

theorem rcdigits_decimal (n : Nat) (small : n < 2 ^ 64) (c : Char) (rest : List Char) (stop : isdigit c = false) :
    rcdigits 0 (decimal n ++ c :: rest) = .ok (n, c :: rest) := by
  rw [rcdigits_append (decimal n) (c :: rest) 0 (decimal_digits n), decimal_value n small, rcdigits, if_neg (by simp [stop])]

def modeof (imm indir predec : Bool) : Mode :=
  if imm then .immediate else if indir then .indirect else if predec then .predecrement else .plain

-- The first byte of an operand: neither a blank nor an end nor a comma.
def Leads (c : Char) : Prop := isspace c = false ∧ c ≠ '\x00' ∧ c ≠ ','

theorem digit_leads (c : Char) (digit : isdigit c = true) :
    Leads c ∧ c ≠ '#' ∧ c ≠ '@' ∧ c ≠ '<' ∧ c ≠ '$' ∧ c ≠ '-' := by
  have other : ∀ d, isdigit d = false → c ≠ d := by
    rintro d none rfl
    rw [digit] at none
    cases none
  have code : 48 ≤ c.toNat := by
    simp only [isdigit, decide_eq_true_eq] at digit
    exact digit.1
  refine ⟨⟨?_, other _ (by decide), other _ (by decide)⟩, other _ (by decide), other _ (by decide), other _ (by decide), other _ (by decide),
    other _ (by decide)⟩
  have space : c ≠ ' ' := other _ (by decide)
  simp only [isspace, space, false_or, decide_eq_false_iff_not]
  omega

theorem printed_leads (n : Int) (rest : List Char) :
    ∃ c cs, printed n ++ rest = c :: cs ∧ Leads c ∧ c ≠ '#' ∧ c ≠ '@' ∧ c ≠ '<' ∧ c ≠ '$' := by
  unfold printed
  split
  · exact ⟨'-', decimal n.natAbs ++ rest, rfl, ⟨by decide, by decide, by decide⟩, by decide, by decide, by decide, by decide⟩
  · obtain ⟨c, cs, shape⟩ := decimal_cons n.natAbs
    have lead := digit_leads c (decimal_digits n.natAbs c (by simp [shape]))
    exact ⟨c, cs ++ rest, by rw [shape]; rfl, lead.1, lead.2.1, lead.2.2.1, lead.2.2.2.1, lead.2.2.2.2.1⟩

section

variable (imm indir predec : Bool)

theorem rcmode_printed (n : Int) (rest : List Char) :
    rcmode (modechar imm indir predec ++ (printed n ++ rest)) = .ok (modeof imm indir predec, printed n ++ rest) := by
  obtain ⟨c, cs, shape, -, notImm, notIndir, notPredec, notDollar⟩ := printed_leads n rest
  rw [shape]
  cases imm <;> cases indir <;> cases predec <;>
    simp [modechar, modeof, rcmode, rcpeek, Bind.bind, Except.bind, notImm, notIndir, notPredec, notDollar]

theorem rcoperand_printed (invalid : Diagnostic) (n : Int) (small : n.natAbs < 2 ^ 64) (c : Char) (rest : List Char) (stop : isdigit c = false) :
    rcoperand invalid (modechar imm indir predec ++ (printed n ++ c :: rest)) =
      .ok (⟨modeof imm indir predec, n < 0, n.natAbs⟩, c :: rest) := by
  unfold rcoperand
  rw [rcmode_printed]
  obtain ⟨d, cs, shape⟩ := decimal_cons n.natAbs
  have digit := decimal_digits n.natAbs d (by simp [shape])
  have notMinus := (digit_leads d digit).2.2.2.2.2
  have read := rcdigits_decimal n.natAbs small c rest stop
  rw [shape] at read
  by_cases neg : n < 0
  · simp only [printed, neg, if_true, shape, List.cons_append, Bind.bind, Except.bind, rcpeek, List.drop_succ_cons, List.drop_zero, digit,
      decide_true]
    rw [List.cons_append] at read
    rw [read]
  · simp only [printed, neg, if_false, shape, List.cons_append, Bind.bind, Except.bind, rcpeek, digit, notMinus, decide_false, if_true]
    rw [List.cons_append] at read
    rw [read]

theorem rcoperand_missing (invalid : Diagnostic) : rcoperand invalid (modechar imm indir predec ++ ['\x00']) = .error (.exit invalid) := by
  cases imm <;> cases indir <;> cases predec <;> rfl

theorem modechar_leads : modechar imm indir predec = [] ∨ ∃ c, modechar imm indir predec = [c] ∧ Leads c := by
  cases imm <;> cases indir <;> cases predec <;>
    first
    | exact .inl rfl
    | exact .inr ⟨_, rfl, by decide, by decide, by decide⟩

theorem operand_leads (n : Int) (rest : List Char) :
    ∃ c cs, modechar imm indir predec ++ (printed n ++ rest) = c :: cs ∧ Leads c := by
  obtain ⟨c, cs, shape, leads, -⟩ := printed_leads n rest
  rw [shape]
  cases imm <;> cases indir <;> cases predec <;>
    first
    | exact ⟨c, cs, rfl, leads⟩
    | exact ⟨_, _, rfl, by decide, by decide, by decide⟩

end

-- What rcparse makes of the text behind a mnemonic and a blank.
def rctail (op : Opcode) (cp : List Char) : Except Stop Line := do
  let cp ← rcskipwhile isspace cp
  let c ← rcpeek cp
  if c = '\x00' then .ok ⟨op, none, none⟩
  else
    let (aoperand, cp) ←
      if rcnarg op = 2 then do
        let (operand, cp) ← rcoperand .invalidAField cp
        .ok (some operand, cp)
      else .ok (none, cp)
    let cp ← rcskipwhile isspace cp
    let c ← rcpeek cp
    let cp ← if c = ',' then rcskipwhile isspace (cp.drop 1) else .ok cp
    let (boperand, _) ← rcoperand .invalidBField cp
    .ok ⟨op, aoperand, some boperand⟩

theorem rcparse_mnemonic (op : Opcode) (cp : List Char) : rcparse ('\t' :: cwopname op ++ '\t' :: cp) = rctail op cp := by
  cases op <;> rfl

theorem skip_blank (cp : List Char) : rcskipwhile isspace ('\t' :: cp) = rcskipwhile isspace cp := rfl

theorem skip_leads (c : Char) (cs : List Char) (leads : Leads c) : rcskipwhile isspace (c :: cs) = .ok (c :: cs) := by
  rw [rcskipwhile, if_neg (by simp [leads.1])]

theorem rctail_end (op : Opcode) : rctail op ['\t', '\x00'] = .ok ⟨op, none, none⟩ := rfl

section

variable (op : Opcode) (c : Char) (cs : List Char) (leads : Leads c)

include leads

theorem rctail_one (one : rcnarg op ≠ 2) :
    rctail op ('\t' :: c :: cs) = (rcoperand .invalidBField (c :: cs)).map fun read => ⟨op, none, some read.1⟩ := by
  unfold rctail
  rw [skip_blank, skip_leads c cs leads]
  simp only [Bind.bind, Except.bind, rcpeek, leads.2.1, one, if_false, skip_leads c cs leads, leads.2.2]
  cases rcoperand .invalidBField (c :: cs) <;> rfl

theorem rctail_two (two : rcnarg op = 2) (operand : Operand) (d : Char) (ds : List Char) (other : Leads d)
    (read : rcoperand .invalidAField (c :: cs) = .ok (operand, '\t' :: d :: ds)) :
    rctail op (c :: cs) = (rcoperand .invalidBField (d :: ds)).map fun read => ⟨op, some operand, some read.1⟩ := by
  unfold rctail
  rw [skip_leads c cs leads]
  simp only [Bind.bind, Except.bind, rcpeek, leads.2.1, two, if_true, if_false, read, skip_blank, skip_leads d ds other, other.2.2]
  cases rcoperand .invalidBField (d :: ds) <;> rfl

theorem rctail_short (two : rcnarg op = 2) (operand : Operand)
    (read : rcoperand .invalidAField (c :: cs) = .ok (operand, ['\t', '\x00'])) :
    rctail op (c :: cs) = .error (.exit .invalidBField) := by
  unfold rctail
  rw [skip_leads c cs leads]
  simp only [Bind.bind, Except.bind, rcpeek, leads.2.1, two, if_true, if_false, read]
  rfl

end

theorem fieldvalue_small (sign : Bool) (field : BitVec 16) : (fieldvalue sign field).natAbs < 2 ^ 64 := by
  have size : field.toNat < 2 ^ 16 := field.isLt
  unfold fieldvalue cwcoresize
  split <;> omega

-- The operands that a line, or its lack of any, comes to.
def Line.aof (line : Line) : Operand := line.aoperand.getD ⟨.dollar, false, 0⟩

def Line.bof (line : Line) : Operand := line.boperand.getD ⟨.dollar, false, 0⟩

def reread (imm indir predec : Bool) (n : Int) : Operand := ⟨modeof imm indir predec, n < 0, n.natAbs⟩

theorem written_text (instr : Instr) (fp : Stream) :
    written fp (cwdisasm instr fp) ++ ['\x00'] =
      '\t' :: cwopname instr.op ++ '\t' ::
        ((if rcnarg instr.op = 2 then
            modechar instr.aflg.imm instr.aflg.indir instr.aflg.predec ++ printed (fieldvalue instr.aflg.sign instr.a)
          else []) ++
        '\t' :: (modechar instr.bflg.imm instr.bflg.indir instr.aflg.predec ++
          if fp = .stderr ∨ instr.bflg.sign then printed (fieldvalue instr.bflg.sign instr.b) ++ ['\n', '\x00'] else ['\x00'])) := by
  have back : (if instr.bflg.sign then fp else Stream.stderr) = fp ↔ fp = .stderr ∨ instr.bflg.sign := by
    cases instr.bflg.sign <;> simp [eq_comm]
  unfold written cwdisasm
  by_cases two : rcnarg instr.op = 2 <;> by_cases shown : fp = .stderr ∨ instr.bflg.sign <;>
    simp [two, shown, back]

theorem disasm_reads_two (instr : Instr) (fp : Stream) (two : rcnarg instr.op = 2) :
    rcgetop (written fp (cwdisasm instr fp) ++ ['\x00']) =
      if fp = .stderr ∨ instr.bflg.sign then
        .ok (Line.instr ⟨instr.op, some (reread instr.aflg.imm instr.aflg.indir instr.aflg.predec (fieldvalue instr.aflg.sign instr.a)),
          some (reread instr.bflg.imm instr.bflg.indir instr.aflg.predec (fieldvalue instr.bflg.sign instr.b))⟩)
      else .error (.exit .invalidBField) := by
  rw [rcgetop, written_text, rcparse_mnemonic, if_pos two, List.append_assoc]
  have read := fun rest => rcoperand_printed instr.aflg.imm instr.aflg.indir instr.aflg.predec .invalidAField
    (fieldvalue instr.aflg.sign instr.a) (fieldvalue_small _ _) '\t' rest (by decide)
  obtain ⟨c, cs, shape, leads⟩ := operand_leads instr.aflg.imm instr.aflg.indir instr.aflg.predec (fieldvalue instr.aflg.sign instr.a)
    ('\t' :: (modechar instr.bflg.imm instr.bflg.indir instr.aflg.predec ++
      if fp = .stderr ∨ instr.bflg.sign then printed (fieldvalue instr.bflg.sign instr.b) ++ ['\n', '\x00'] else ['\x00']))
  rw [shape]
  by_cases shown : fp = .stderr ∨ instr.bflg.sign
  · rw [if_pos shown] at shape ⊢
    obtain ⟨d, ds, behind, other⟩ := operand_leads instr.bflg.imm instr.bflg.indir instr.aflg.predec (fieldvalue instr.bflg.sign instr.b)
      ['\n', '\x00']
    rw [behind] at shape
    have first := read (d :: ds)
    rw [shape] at first
    rw [rctail_two instr.op c cs leads two _ d ds other first, ← behind,
      rcoperand_printed instr.bflg.imm instr.bflg.indir instr.aflg.predec .invalidBField _ (fieldvalue_small _ _) '\n' ['\x00'] (by decide)]
    rfl
  · rw [if_neg shown] at shape ⊢
    rcases modechar_leads instr.bflg.imm instr.bflg.indir instr.aflg.predec with none | ⟨d, one, other⟩
    · rw [none] at shape
      have first := read ['\x00']
      rw [List.nil_append] at shape
      rw [shape] at first
      exact congrArg (fun read => read.bind fun line => .ok line.instr) (rctail_short instr.op c cs leads two _ first)
    · have first := read [d, '\x00']
      rw [one] at shape
      rw [List.singleton_append] at shape
      rw [shape] at first
      have missing := rcoperand_missing instr.bflg.imm instr.bflg.indir instr.aflg.predec .invalidBField
      rw [one, List.singleton_append] at missing
      rw [rctail_two instr.op c cs leads two _ d ['\x00'] other first, missing]
      rfl

theorem disasm_reads_one (instr : Instr) (fp : Stream) (one : rcnarg instr.op ≠ 2) :
    rcgetop (written fp (cwdisasm instr fp) ++ ['\x00']) =
      if fp = .stderr ∨ instr.bflg.sign then
        .ok (Line.instr ⟨instr.op, none, some (reread instr.bflg.imm instr.bflg.indir instr.aflg.predec (fieldvalue instr.bflg.sign instr.b))⟩)
      else if modechar instr.bflg.imm instr.bflg.indir instr.aflg.predec = [] then .ok (Line.instr ⟨instr.op, none, none⟩)
      else .error (.exit .invalidBField) := by
  rw [rcgetop, written_text, rcparse_mnemonic, if_neg one, List.nil_append]
  by_cases shown : fp = .stderr ∨ instr.bflg.sign
  · rw [if_pos shown, if_pos shown]
    obtain ⟨d, ds, behind, other⟩ := operand_leads instr.bflg.imm instr.bflg.indir instr.aflg.predec (fieldvalue instr.bflg.sign instr.b)
      ['\n', '\x00']
    rw [behind, rctail_one instr.op d ds other one, ← behind,
      rcoperand_printed instr.bflg.imm instr.bflg.indir instr.aflg.predec .invalidBField _ (fieldvalue_small _ _) '\n' ['\x00'] (by decide)]
    rfl
  · rw [if_neg shown, if_neg shown]
    rcases modechar_leads instr.bflg.imm instr.bflg.indir instr.aflg.predec with none | ⟨d, mode, other⟩
    · rw [none, List.nil_append, if_pos rfl, rctail_end]
      rfl
    · have missing := rcoperand_missing instr.bflg.imm instr.bflg.indir instr.aflg.predec .invalidBField
      rw [mode, List.singleton_append] at missing
      rw [mode, List.singleton_append, rctail_one instr.op d ['\x00'] other one, missing, if_neg (List.cons_ne_nil d [])]
      rfl

theorem field_reread (operand : Operand) (small : operand.val < cwcoresize) (imm indir predec : Bool) :
    (reread imm indir predec (fieldvalue operand.sign operand.field)).field = operand.field ↔ ¬(operand.sign ∧ operand.val = 0) := by
  have size : operand.field.toNat = if operand.sign then cwcoresize - operand.val else operand.val := by
    unfold Operand.field
    unfold cwcoresize at *
    rw [BitVec.toNat_ofInt]
    split <;> omega
  have value : fieldvalue operand.sign operand.field = if operand.sign then -(operand.val : Int) else operand.val := by
    unfold fieldvalue
    rw [size]
    cases operand.sign
    · simp
    · simp only [if_true]
      omega
  rw [value, ← BitVec.toNat_inj, size]
  unfold reread Operand.field
  rw [BitVec.toNat_ofInt]
  unfold cwcoresize at *
  cases operand.sign
  · simp
    omega
  · simp
    split <;> omega

structure LineKept (fp : Stream) (line : Line) : Prop where
  a : ¬(line.aof.sign ∧ line.aof.val = 0)
  b : ¬(line.bof.sign ∧ line.bof.val = 0)
  predec : line.bof.mode = .immediate ∨ line.bof.mode = .indirect ∨ (line.bof.mode = .predecrement ↔ line.aof.mode = .predecrement)
  shown : fp = .stderr ∨ line.bof.sign ∨
    (rcnarg line.op ≠ 2 ∧ line.bof.mode ∉ [.immediate, .indirect, .predecrement] ∧ line.bof.val = 0)

instance (fp : Stream) (line : Line) : Decidable (LineKept fp line) :=
  decidable_of_iff (¬(line.aof.sign ∧ line.aof.val = 0) ∧ ¬(line.bof.sign ∧ line.bof.val = 0) ∧
      (line.bof.mode = .immediate ∨ line.bof.mode = .indirect ∨ (line.bof.mode = .predecrement ↔ line.aof.mode = .predecrement)) ∧
      (fp = .stderr ∨ line.bof.sign ∨
        (rcnarg line.op ≠ 2 ∧ line.bof.mode ∉ [.immediate, .indirect, .predecrement] ∧ line.bof.val = 0)))
    ⟨fun ⟨a, b, predec, shown⟩ => ⟨a, b, predec, shown⟩, fun ⟨a, b, predec, shown⟩ => ⟨a, b, predec, shown⟩⟩

theorem flags_aof (line : Line) : operandFlags line.aoperand = line.aof.flags ∧ operandField line.aoperand = line.aof.field := by
  unfold Line.aof operandFlags operandField
  cases line.aoperand <;> exact ⟨rfl, rfl⟩

theorem flags_bof (line : Line) : operandFlags line.boperand = line.bof.flags ∧ operandField line.boperand = line.bof.field := by
  unfold Line.bof operandFlags operandField
  cases line.boperand <;> exact ⟨rfl, rfl⟩

def Operand.SameMode (left right : Operand) : Prop := CoreWar.SameMode left.flags right.flags

theorem agree_lines (back line : Line) : Agree back.instr line.instr ↔
    back.op = line.op ∧ back.aof.SameMode line.aof ∧ back.bof.SameMode line.bof ∧ back.aof.field = line.aof.field ∧
      back.bof.field = line.bof.field := by
  have own := flags_aof back
  have other := flags_bof back
  have ownLine := flags_aof line
  have otherLine := flags_bof line
  unfold Line.instr
  rw [own.1, own.2, other.1, other.2, ownLine.1, ownLine.2, otherLine.1, otherLine.2]
  constructor
  · rintro ⟨op, amode, bmode, a, b⟩
    exact ⟨op, ⟨amode.imm, amode.indir, amode.predec⟩, ⟨bmode.imm, bmode.indir, bmode.predec⟩, a, b⟩
  · rintro ⟨op, amode, bmode, a, b⟩
    exact ⟨op, ⟨amode.imm, amode.indir, amode.predec⟩, ⟨bmode.imm, bmode.indir, bmode.predec⟩, a, b⟩

theorem amode_reread (operand : Operand) (n : Int) :
    (reread operand.flags.imm operand.flags.indir operand.flags.predec n).SameMode operand := by
  obtain ⟨mode, sign, val⟩ := operand
  cases mode <;> exact ⟨rfl, rfl, rfl⟩

theorem bmode_reread (operand other : Operand) (n : Int) :
    (reread operand.flags.imm operand.flags.indir other.flags.predec n).SameMode operand ↔
      operand.mode = .immediate ∨ operand.mode = .indirect ∨ (operand.mode = .predecrement ↔ other.mode = .predecrement) := by
  obtain ⟨mode, sign, val⟩ := operand
  obtain ⟨mode', sign', val'⟩ := other
  constructor
  · rintro ⟨imm, indir, predec⟩
    revert imm indir predec
    cases mode <;> cases mode' <;> simp [reread, Operand.flags, modeof]
  · intro agree
    revert agree
    cases mode <;> cases mode' <;> intro agree <;> first | exact ⟨rfl, rfl, rfl⟩ | simp at agree

theorem direct_iff (operand : Operand) : (modechar operand.flags.imm operand.flags.indir false = [] ∧
    (⟨.dollar, false, 0⟩ : Operand).SameMode operand) ↔ operand.mode ∉ [.immediate, .indirect, .predecrement] := by
  obtain ⟨mode, sign, val⟩ := operand
  constructor
  · rintro ⟨empty, -, -, predec⟩
    revert empty predec
    cases mode <;> simp [modechar, Operand.flags]
  · cases mode <;> intro direct <;> first | exact ⟨rfl, rfl, rfl, rfl⟩ | simp at direct

theorem zero_field (operand : Operand) (small : operand.val < cwcoresize) (unsigned : operand.sign = false) :
    (⟨.dollar, false, 0⟩ : Operand).field = operand.field ↔ operand.val = 0 := by
  unfold Operand.field
  rw [unsigned, ← BitVec.toNat_inj, BitVec.toNat_ofInt, BitVec.toNat_ofInt]
  unfold cwcoresize at small
  simp only [Bool.false_eq_true, if_false]
  omega

theorem reads_back_iff (fp : Stream) (line : Line) (smallA : line.aof.val < cwcoresize) (smallB : line.bof.val < cwcoresize)
    (shape : rcnarg line.op ≠ 2 → line.aoperand = none) : ReadsBack fp line.instr ↔ LineKept fp line := by
  have aflags : line.instr.aflg.imm = line.aof.flags.imm ∧ line.instr.aflg.indir = line.aof.flags.indir ∧
      line.instr.aflg.predec = line.aof.flags.predec ∧ line.instr.aflg.sign = line.aof.sign ∧ line.instr.a = line.aof.field := by
    unfold Line.instr
    rw [(flags_aof line).1, (flags_aof line).2]
    exact ⟨rfl, rfl, rfl, rfl, rfl⟩
  have bflags : line.instr.bflg.imm = line.bof.flags.imm ∧ line.instr.bflg.indir = line.bof.flags.indir ∧
      line.instr.bflg.sign = line.bof.sign ∧ line.instr.b = line.bof.field := by
    unfold Line.instr
    rw [(flags_bof line).1, (flags_bof line).2]
    exact ⟨rfl, rfl, rfl, rfl⟩
  obtain ⟨aimm, aindir, apredec, asign, afield⟩ := aflags
  obtain ⟨bimm, bindir, bsign, bfield⟩ := bflags
  have op : line.instr.op = line.op := rfl
  have akept := field_reread line.aof smallA line.aof.flags.imm line.aof.flags.indir line.aof.flags.predec
  have bkept := field_reread line.bof smallB line.bof.flags.imm line.bof.flags.indir line.aof.flags.predec
  unfold ReadsBack
  by_cases two : rcnarg line.op = 2
  · rw [disasm_reads_two line.instr fp two, aimm, aindir, apredec, asign, afield, bimm, bindir, bsign, bfield, op]
    by_cases shown : fp = .stderr ∨ line.bof.sign
    · rw [if_pos shown]
      constructor
      · rintro ⟨back, same, agree⟩
        cases same
        obtain ⟨-, -, bmode, a, b⟩ := (agree_lines _ line).mp agree
        exact ⟨akept.mp a, bkept.mp b, (bmode_reread line.bof line.aof _).mp bmode, shown.imp_right .inl⟩
      · rintro ⟨a, b, predec, -⟩
        exact ⟨_, rfl, (agree_lines _ line).mpr
          ⟨rfl, amode_reread line.aof _, (bmode_reread line.bof line.aof _).mpr predec, akept.mpr a, bkept.mpr b⟩⟩
    · rw [if_neg shown]
      constructor
      · rintro ⟨back, same, -⟩
        cases same
      · rintro ⟨-, -, -, other⟩
        rcases other with first | second | ⟨one, -⟩
        · exact absurd (.inl first) shown
        · exact absurd (.inr second) shown
        · exact absurd two one
  · have bare : line.aof = ⟨.dollar, false, 0⟩ := by
      rw [Line.aof, shape two]
      rfl
    have plain : line.aof.flags.predec = false := by
      rw [bare]
      rfl
    have amode : (⟨.dollar, false, 0⟩ : Operand).SameMode line.aof := by
      rw [bare]
      exact ⟨rfl, rfl, rfl⟩
    have afield : (⟨.dollar, false, 0⟩ : Operand).field = line.aof.field := by rw [bare]
    have noA : ¬(line.aof.sign ∧ line.aof.val = 0) := by simp [bare]
    rw [disasm_reads_one line.instr fp two, apredec, bimm, bindir, bsign, bfield, op]
    by_cases shown : fp = .stderr ∨ line.bof.sign
    · rw [if_pos shown]
      constructor
      · rintro ⟨back, same, agree⟩
        cases same
        obtain ⟨-, -, bmode, -, b⟩ := (agree_lines _ line).mp agree
        exact ⟨noA, bkept.mp b, (bmode_reread line.bof line.aof _).mp bmode, shown.imp_right .inl⟩
      · rintro ⟨-, b, predec, -⟩
        exact ⟨_, rfl, (agree_lines _ line).mpr ⟨rfl, amode, (bmode_reread line.bof line.aof _).mpr predec, afield, bkept.mpr b⟩⟩
    · have unsigned : line.bof.sign = false := by simpa using fun sign => shown (.inr sign)
      rw [if_neg shown, plain]
      constructor
      · rintro ⟨back, same, agree⟩
        split at same
        · rename_i empty
          cases same
          obtain ⟨-, -, bmode, -, b⟩ := (agree_lines _ line).mp agree
          have direct := (direct_iff line.bof).mp ⟨empty, bmode⟩
          refine ⟨noA, by simp [unsigned], .inr (.inr (iff_of_false ?_ ?_)), .inr (.inr ⟨two, direct, (zero_field line.bof smallB unsigned).mp b⟩)⟩
          · intro predec
            exact direct (by simp [predec])
          · simp [bare]
        · cases same
      · rintro ⟨-, -, -, other⟩
        rcases other with first | second | ⟨-, direct, zero⟩
        · exact absurd (.inl first) shown
        · exact absurd (.inr second) shown
        · obtain ⟨empty, bmode⟩ := (direct_iff line.bof).mpr direct
          rw [if_pos empty]
          exact ⟨_, rfl, (agree_lines _ line).mpr ⟨rfl, amode, bmode, afield, (zero_field line.bof smallB unsigned).mpr zero⟩⟩

theorem bound {α β : Type} {x : Except Stop α} {f : α → Except Stop β} {result : β} (ran : x >>= f = .ok result) :
    ∃ value, x = .ok value ∧ f value = .ok result := by
  cases x with
  | error stop => cases ran
  | ok value => exact ⟨value, rfl, ran⟩

theorem rcparse_shape (cp : List Char) (line : Line) (accepted : rcparse cp = .ok line) : rcnarg line.op ≠ 2 → line.aoperand = none := by
  intro one
  obtain ⟨cp, -, accepted⟩ := bound accepted
  obtain ⟨c, -, accepted⟩ := bound accepted
  dsimp only at accepted
  split at accepted
  · obtain ⟨found, -, accepted⟩ := bound accepted
    cases found with
    | none => cases accepted
    | some op =>
      obtain ⟨cp, -, accepted⟩ := bound accepted
      obtain ⟨c, -, accepted⟩ := bound accepted
      split at accepted
      · cases accepted
        rfl
      · obtain ⟨cp, -, accepted⟩ := bound accepted
        obtain ⟨c, -, accepted⟩ := bound accepted
        split at accepted
        · cases accepted
          rfl
        · split at accepted
          · rename_i two
            obtain ⟨operand, -, accepted⟩ := bound accepted
            obtain ⟨read, -, accepted⟩ := bound accepted
            obtain ⟨cp, -, accepted⟩ := bound accepted
            obtain ⟨c, -, accepted⟩ := bound accepted
            split at accepted
            · obtain ⟨cp, -, accepted⟩ := bound accepted
              obtain ⟨boperand, -, accepted⟩ := bound accepted
              cases accepted
              exact absurd two one
            · obtain ⟨cp, -, accepted⟩ := bound accepted
              obtain ⟨boperand, -, accepted⟩ := bound accepted
              cases accepted
              exact absurd two one
          · obtain ⟨read, bare, accepted⟩ := bound accepted
            obtain ⟨cp, -, accepted⟩ := bound accepted
            obtain ⟨c, -, accepted⟩ := bound accepted
            cases bare
            split at accepted
            · obtain ⟨cp, -, accepted⟩ := bound accepted
              obtain ⟨boperand, -, accepted⟩ := bound accepted
              cases accepted
              rfl
            · obtain ⟨cp, -, accepted⟩ := bound accepted
              obtain ⟨boperand, -, accepted⟩ := bound accepted
              cases accepted
              rfl
  · cases accepted

theorem redcode_reads_back (fp : Stream) (cp : List Char) (line : Line) (accepted : rcparse cp = .ok line)
    (smallA : ∀ operand, line.aoperand = some operand → operand.val < cwcoresize)
    (smallB : ∀ operand, line.boperand = some operand → operand.val < cwcoresize) :
    rcgetop cp = .ok line.instr ∧ (ReadsBack fp line.instr ↔ LineKept fp line) := by
  refine ⟨by rw [rcgetop, accepted]; rfl, reads_back_iff fp line ?_ ?_ (rcparse_shape cp line accepted)⟩
  · unfold Line.aof
    cases given : line.aoperand with
    | none => exact (by decide : 0 < cwcoresize)
    | some operand => exact smallA operand given
  · unfold Line.bof
    cases given : line.boperand with
    | none => exact (by decide : 0 < cwcoresize)
    | some operand => exact smallB operand given

theorem redcode_reads_back_jump : rcgetop ['J', 'M', 'P', ' ', '<', '-', '3', '\n', '\x00'] =
      .ok (Line.instr ⟨.jmp, none, some ⟨.predecrement, true, 3⟩⟩) ∧
    (ReadsBack .stderr (Line.instr ⟨.jmp, none, some ⟨.predecrement, true, 3⟩⟩) ↔ LineKept .stderr ⟨.jmp, none, some ⟨.predecrement, true, 3⟩⟩) :=
  redcode_reads_back .stderr ['J', 'M', 'P', ' ', '<', '-', '3', '\n', '\x00'] ⟨.jmp, none, some ⟨.predecrement, true, 3⟩⟩ rfl
    (by simp) (by simp [cwcoresize])

theorem redcode_lost : ¬∀ fp cp line, rcparse cp = .ok line → (∀ operand, line.aoperand = some operand → operand.val < cwcoresize) →
    (∀ operand, line.boperand = some operand → operand.val < cwcoresize) → ReadsBack fp line.instr := by
  intro all
  obtain ⟨back, same, -⟩ := all (.other 1) ['M', 'O', 'V', ' ', '0', ',', ' ', '1', '\x00'] ⟨.mov, some ⟨.plain, false, 0⟩, some ⟨.plain, false, 1⟩⟩
    rfl (by simp [cwcoresize]) (by simp [cwcoresize])
  rw [disasm_reads_two _ _ rfl, if_neg (by decide)] at same
  cases same

end OsZero.CoreWar

import OsZero.CoreWar.Icws
import OsZero.CoreWar.Queue

set_option autoImplicit false

namespace OsZero.CoreWar

def Marks (flg : Flags) (mode : Addressing) : Prop :=
  flg.imm = decide (mode = .immediate) ∧ flg.indir = decide (mode = .indirect) ∧ flg.predec = decide (mode = .predecrement)

-- The sign and relative bits and the player's number say nothing to the
-- standard; a field of a core is smaller than the core.
structure Encodes (instr : Instr) (cell : Cell) : Prop where
  op : instr.op = cell.op
  aflg : Marks instr.aflg cell.amode
  bflg : Marks instr.bflg cell.bmode
  a : instr.a.toNat = cell.a.val
  b : instr.b.toNat = cell.b.val

def Represents (mars : Mars) (core : Core) : Prop := ∀ cell, Encodes (mars.optab cell) (core cell)

theorem marks_unique (flg : Flags) (mode other : Addressing) (left : Marks flg mode) (right : Marks flg other) : mode = other := by
  obtain ⟨imm, indir, predec⟩ := left
  obtain ⟨imm', indir', predec'⟩ := right
  rw [imm] at imm'
  rw [indir] at indir'
  rw [predec] at predec'
  cases mode <;> cases other <;> simp at imm' indir' predec' ⊢

theorem encodes_unique (instr : Instr) (cell other : Cell) (left : Encodes instr cell) (right : Encodes instr other) : cell = other := by
  obtain ⟨op, amode, bmode, a, b⟩ := cell
  obtain ⟨op', amode', bmode', a', b'⟩ := other
  rw [Cell.mk.injEq]
  exact ⟨left.op.symm.trans right.op, marks_unique _ _ _ left.aflg right.aflg, marks_unique _ _ _ left.bflg right.bflg,
    Fin.ext (left.a.symm.trans right.a), Fin.ext (left.b.symm.trans right.b)⟩

theorem holds_unique (mars : Mars) (core other : Core) (left : Represents mars core) (right : Represents mars other) : core = other :=
  funext fun cell => encodes_unique _ _ _ (left cell) (right cell)

section Held

variable (mars : Mars) (core : Core) (holds : Represents mars core)

include holds

theorem holds_a (cell : Place) : mars.a cell = (core cell).a.val := congrArg Int.ofNat (holds cell).a

theorem holds_b (cell : Place) : mars.b cell = (core cell).b.val := congrArg Int.ofNat (holds cell).b

theorem holds_put (cell : Place) (instr : Instr) (content : Cell) (encodes : Encodes instr content) :
    Represents (mars.setCell cell instr) (core.put cell content) := by
  intro other
  by_cases here : other = cell
  · subst here
    simpa [Mars.setCell, Core.put] using encodes
  · simpa [Mars.setCell, Core.put, here] using holds other

omit holds in
theorem place_field (x : Place) : (BitVec.ofInt 16 (x.val : Int)).toNat = x.val := by
  have bound := place_lt x
  rw [BitVec.toNat_ofInt]
  omega

theorem holds_setB (cell b : Place) : Represents (mars.setB cell b.val) (core.putB cell b) :=
  holds_put mars core holds cell _ _ ⟨(holds cell).op, (holds cell).aflg, (holds cell).bflg, (holds cell).a, place_field b⟩

theorem holds_set_both (cell a b : Place) :
    Represents ((mars.setA cell a.val).setB cell b.val) (core.put cell { core cell with a := a, b := b }) := by
  have first : Represents (mars.setA cell a.val) (core.put cell { core cell with a := a }) :=
    holds_put mars core holds cell _ _ ⟨(holds cell).op, (holds cell).aflg, (holds cell).bflg, place_field a, (holds cell).b⟩
  have second := holds_setB _ _ first cell b
  simpa [Core.putB, Core.put] using second

theorem holds_clear_sign (cell : Place) : Represents (mars.clearBSign cell) core := by
  have same := holds_put mars core holds cell { mars.optab cell with bflg := { (mars.optab cell).bflg with sign := false } }
    (core cell) ⟨(holds cell).op, (holds cell).aflg, (holds cell).bflg, (holds cell).a, (holds cell).b⟩
  rwa [Core.put, Function.update_eq_self] at same

end Held

section Arithmetic

variable (x y : Place)

theorem corecell_place : corecell (x.val : Int) = .ok x := by
  obtain ⟨cell, found, same⟩ := corecell_in_core (x.val : Int) ⟨Int.natCast_nonneg _, Int.ofNat_lt.mpr x.isLt⟩
  rw [found, Fin.ext (Int.ofNat_inj.mp same)]

theorem wrapcore_small : wrapcore (x.val : Int) = x.val := by
  have bound := place_lt x
  unfold wrapcore cwcoresize
  rw [Int.tmod_eq_emod_of_nonneg (Int.natCast_nonneg _)]
  omega

theorem wrapcore_ahead : wrapcore ((x.val : Int) + y.val) = (ahead x y).val := by
  unfold wrapcore cwcoresize
  rw [Int.tmod_eq_emod_of_nonneg (by omega), ahead_val]
  omega

theorem wrapcore_next : wrapcore ((x.val : Int) + 1) = (ahead x one).val := wrapcore_ahead x one

theorem cwborrow_behind : cwborrow ((x.val : Int) - y.val) = (behind x y).val := by
  have bounds := And.intro (place_lt x) (place_lt y)
  unfold cwborrow cwcoresize
  rw [behind_val]
  split <;> omega

theorem ahead_comm : ahead x y = ahead y x := Fin.ext (by rw [ahead_val, ahead_val, Nat.add_comm])

end Arithmetic

theorem behind_less (x : Place) (above : x ≠ origin) : ((behind x one).val : Int) = x.val - 1 := by
  have bound := place_lt x
  have positive : x.val ≠ 0 := fun zero => above (Fin.ext zero)
  rw [behind_val, one_val]
  omega

section Operand

variable (mars : Mars) (core : Core) (holds : Represents mars core) (flg : Flags) (pc field : Place)

theorem cwgetarg_immediate (marks : Marks flg .immediate) : cwgetarg mars flg field.val pc.val = .ok (mars, (field.val : Int)) := by
  simp [cwgetarg, marks.1, wrapcore_small]

theorem cwgetarg_direct (marks : Marks flg .direct) : cwgetarg mars flg field.val pc.val = .ok (mars, ((ahead pc field).val : Int)) := by
  simp [cwgetarg, marks.1, marks.2.1, marks.2.2, wrapcore_ahead, wrapcore_small]

theorem cwgetarg_through (x start : Int) (ptr : Place) (found : corecell (wrapcore (start + x)) = .ok ptr) (marks : Marks flg .indirect) :
    cwgetarg mars flg x start = .ok (mars, wrapcore (mars.b ptr + start)) := by
  simp [cwgetarg, marks.1, marks.2.1, marks.2.2, found, bind, Except.bind]

theorem cwgetarg_down (x start : Int) (ptr : Place) (found : corecell (wrapcore (start + x)) = .ok ptr) (marks : Marks flg .predecrement) :
    cwgetarg mars flg x start = .ok (mars.setB ptr (mars.b ptr - 1), wrapcore (mars.b ptr - 1 + start)) := by
  simp [cwgetarg, marks.1, marks.2.2, found, bind, Except.bind]

theorem corecell_ahead : corecell (wrapcore ((pc.val : Int) + field.val)) = .ok (ahead pc field) := by rw [wrapcore_ahead, corecell_place]

include holds

-- The source adds pc to the offset it has read, not the address it has read it from.
theorem cwgetarg_indirect (marks : Marks flg .indirect) :
    cwgetarg mars flg field.val pc.val = .ok (mars, ((ahead pc (core (ahead pc field)).b).val : Int)) := by
  rw [cwgetarg_through mars flg _ _ _ (corecell_ahead pc field) marks, holds_b mars core holds, Int.add_comm, wrapcore_ahead]

theorem cwgetarg_predecrement (marks : Marks flg .predecrement) :
    cwgetarg mars flg field.val pc.val = .ok (mars.setB (ahead pc field) ((core (ahead pc field)).b.val - 1),
      wrapcore ((core (ahead pc field)).b.val - 1 + pc.val)) := by
  rw [cwgetarg_down mars flg _ _ _ (corecell_ahead pc field) marks, holds_b mars core holds]

omit holds in
-- A B-field of zero counts down to 65535, which no field of a core can be.
theorem predecrement_spoils (cell : Place) (low : (core cell).b = origin) : 65535 ≤ (mars.setB cell ((core cell).b.val - 1)).b cell := by
  rw [low, origin_val]
  simp [Mars.b, Mars.setB, Mars.setCell]

theorem predecrement_holds (cell : Place) (above : (core cell).b ≠ origin) :
    Represents (mars.setB cell ((core cell).b.val - 1)) (core.putB cell (behind (core cell).b one)) := by
  rw [← behind_less _ above]
  exact holds_setB mars core holds cell _

omit holds in
theorem predecrement_lands (ptr : Place) (above : (core ptr).b ≠ origin) :
    wrapcore ((core ptr).b.val - 1 + pc.val) = (ahead pc (behind (core ptr).b one)).val := by
  rw [← behind_less _ above, Int.add_comm, wrapcore_ahead]

end Operand

-- When the operand the source reads, with the field it finds, is the one the
-- standard means with the field that was fetched.
def Straight (core : Core) (pc found field : Place) : Addressing → Prop
  | .immediate => found = field
  | .direct => found = field
  | .indirect => ahead pc (core (ahead pc found)).b = ahead (ahead pc field) (core (ahead pc field)).b
  | .predecrement => found = field ∧ field = origin ∧ (core pc).b ≠ origin

def ReadsAs (result : Except Stop (Mars × Int)) (meant : Core × Place) : Prop :=
  ∃ seen arg, result = .ok (seen, arg) ∧ Represents seen meant.1 ∧ arg = meant.2.val

theorem reads_as_iff (seen : Mars) (after : Core) (place : Place) (holds : Represents seen after) (meant : Core × Place) :
    ReadsAs (.ok (seen, (place.val : Int))) meant ↔ (after, place) = meant := by
  constructor
  · rintro ⟨_, _, same, held, landed⟩
    cases same
    rw [holds_unique seen after meant.1 holds held, Fin.ext (Int.ofNat_inj.mp landed)]
  · rintro rfl
    exact ⟨seen, _, rfl, holds, rfl⟩

theorem spoilt_never (seen : Mars) (core : Core) (cell : Place) (spoilt : 8000 ≤ seen.b cell) : ¬ Represents seen core := by
  intro holds
  have bound := place_lt (core cell).b
  rw [holds_b seen core holds cell] at spoilt
  omega

theorem putB_same (core : Core) (cell b : Place) : (core.putB cell b cell).b = b := by simp [Core.putB, Core.put]

theorem put_op (core : Core) (cell : Place) (content : Cell) (other : Place) (same : content.op = (core cell).op) :
    (core.put cell content other).op = (core other).op := by
  by_cases here : other = cell
  · subst here
    simpa [Core.put] using same
  · simp [Core.put, here]

theorem putB_op (core : Core) (cell b other : Place) : (core.putB cell b other).op = (core other).op := put_op core cell _ other rfl

theorem put_same_iff (core : Core) (cell : Place) (content other : Cell) : core.put cell content = core.put cell other ↔ content = other := by
  constructor
  · intro same
    simpa [Core.put] using congrFun same cell
  · rintro rfl
    rfl

theorem putB_other (core : Core) (cell b other : Place) (apart : other ≠ cell) : core.putB cell b other = core other := by
  simp [Core.putB, Core.put, apart]

section Operands

variable (mars : Mars) (core : Core) (holds : Represents mars core)

theorem counted_same (cell other : Place) :
    core.putB cell (behind (core cell).b one) = core.putB other (behind (core other).b one) ↔ cell = other := by
  constructor
  · intro stored
    apply Classical.byContradiction
    intro apart
    have kept := congrArg Cell.b (congrFun stored cell)
    rw [putB_same, putB_other _ _ _ _ apart] at kept
    exact behind_one _ kept
  · rintro rfl
    rfl

theorem predecrement_straight (pc found field : Place) (above : (core (ahead pc found)).b ≠ origin) :
    (core.putB (ahead pc found) (behind (core (ahead pc found)).b one), ahead pc (behind (core (ahead pc found)).b one)) =
      normalise core pc field .predecrement ↔ found = field ∧ field = origin := by
  rw [normalise, Prod.mk.injEq]
  constructor
  · rintro ⟨stored, landed⟩
    have same := (counted_same core _ _).mp stored
    have alike := (ahead_right pc found field).mp same
    rw [same] at landed
    exact ⟨alike, (ahead_origin pc field).mp ((ahead_left _ _ _).mp landed).symm⟩
  · rintro ⟨rfl, rfl⟩
    rw [(ahead_origin pc origin).mpr rfl]
    exact ⟨rfl, rfl⟩

include holds

theorem straight_iff (flg : Flags) (mode : Addressing) (marks : Marks flg mode) (pc found field : Place) :
    ReadsAs (cwgetarg mars flg found.val pc.val) (normalise core pc field mode) ↔ Straight core pc found field mode := by
  cases mode with
  | immediate =>
      rw [cwgetarg_immediate mars flg pc found marks, reads_as_iff mars core found holds]
      simp [normalise, Straight]
  | direct =>
      rw [cwgetarg_direct mars flg pc found marks, reads_as_iff mars core _ holds]
      simp [normalise, Straight, ahead_right]
  | indirect =>
      rw [cwgetarg_indirect mars core holds flg pc found marks, reads_as_iff mars core _ holds]
      simp [normalise, Straight]
  | predecrement =>
      rw [cwgetarg_predecrement mars core holds flg pc found marks, Straight]
      by_cases low : (core (ahead pc found)).b = origin
      · constructor
        · rintro ⟨seen, arg, same, held, -⟩
          cases same
          exact absurd held (spoilt_never _ _ _ (Int.le_trans (by decide) (predecrement_spoils mars core _ low)))
        · rintro ⟨rfl, rfl, above⟩
          rw [(ahead_origin pc origin).mpr rfl] at low
          exact absurd low above
      · rw [predecrement_lands core pc _ low, reads_as_iff _ _ _ (predecrement_holds mars core holds _ low),
          predecrement_straight core pc found field low]
        constructor
        · rintro ⟨rfl, rfl⟩
          rw [(ahead_origin pc origin).mpr rfl] at low
          exact ⟨rfl, rfl, low⟩
        · exact fun straight => ⟨straight.1, straight.2.1⟩

omit holds in
theorem cwgetarg_cases (flg : Flags) (x start : Int) (seen : Mars) (arg : Int) (read : cwgetarg mars flg x start = .ok (seen, arg)) :
    seen = mars ∨ ∃ ptr, seen = mars.setB ptr (mars.b ptr - 1) := by
  unfold cwgetarg at read
  by_cases imm : flg.imm = true
  · simp only [if_pos imm, Except.ok.injEq, Prod.mk.injEq] at read
    exact .inl read.1.symm
  · by_cases through : flg.indir = true ∨ flg.predec = true
    · simp only [if_neg imm, if_pos through] at read
      cases place : corecell (wrapcore (start + x)) with
      | error stop => simp [place, bind, Except.bind] at read
      | ok ptr =>
          by_cases predec : flg.predec = true
          · simp only [place, if_pos predec, bind, Except.bind, Except.ok.injEq, Prod.mk.injEq] at read
            exact .inr ⟨ptr, read.1.symm⟩
          · simp only [place, if_neg predec, bind, Except.bind, Except.ok.injEq, Prod.mk.injEq] at read
            exact .inl read.1.symm
    · simp only [if_neg imm, if_neg through, Except.ok.injEq, Prod.mk.injEq] at read
      exact .inl read.1.symm

omit holds in
theorem cwgetarg_keeps (flg : Flags) (x start : Int) (seen : Mars) (arg : Int) (read : cwgetarg mars flg x start = .ok (seen, arg)) :
    Kept mars seen := by
  obtain same | ⟨ptr, same⟩ := cwgetarg_cases mars flg x start seen arg read
  · rw [same]
    exact kept_refl mars
  · rw [same]
    exact kept_set_b mars ptr _

omit holds in
theorem spoilt_stays (flg : Flags) (x start : Int) (seen : Mars) (arg : Int) (read : cwgetarg mars flg x start = .ok (seen, arg))
    (cell : Place) (spoilt : 65535 ≤ mars.b cell) : 8000 ≤ seen.b cell := by
  obtain same | ⟨ptr, same⟩ := cwgetarg_cases mars flg x start seen arg read
  · rw [same]
    omega
  · rw [same]
    by_cases here : cell = ptr
    · subst here
      have range := (field_range mars cell).2.2
      have counted : (mars.setB cell (mars.b cell - 1)).b cell = (BitVec.ofInt 16 (mars.b cell - 1)).toNat := by
        simp [Mars.setB, Mars.setCell, Mars.b]
      rw [counted, BitVec.toNat_ofInt]
      omega
    · have kept : (mars.setB ptr (mars.b ptr - 1)).b cell = mars.b cell := by simp [Mars.setB, Mars.setCell, Mars.b, here]
      omega

theorem first_holds (flg : Flags) (mode : Addressing) (marks : Marks flg mode) (pc field : Place) (seen : Mars) (arg : Int)
    (read : cwgetarg mars flg field.val pc.val = .ok (seen, arg)) :
    Represents seen (normalise core pc field mode).1 ∨ ∃ cell, 65535 ≤ seen.b cell := by
  cases mode with
  | immediate =>
      rw [cwgetarg_immediate mars flg pc field marks] at read
      cases read
      exact .inl holds
  | direct =>
      rw [cwgetarg_direct mars flg pc field marks] at read
      cases read
      exact .inl holds
  | indirect =>
      rw [cwgetarg_indirect mars core holds flg pc field marks] at read
      cases read
      exact .inl holds
  | predecrement =>
      rw [cwgetarg_predecrement mars core holds flg pc field marks] at read
      cases read
      by_cases low : (core (ahead pc field)).b = origin
      · exact .inr ⟨_, predecrement_spoils mars core _ low⟩
      · exact .inl (predecrement_holds mars core holds _ low)

end Operands

theorem normalise_keeps (core : Core) (pc field : Place) (mode : Addressing) (cell : Place) :
    ((normalise core pc field mode).1 cell).op = (core cell).op ∧ ((normalise core pc field mode).1 cell).amode = (core cell).amode ∧
      ((normalise core pc field mode).1 cell).bmode = (core cell).bmode ∧ ((normalise core pc field mode).1 cell).a = (core cell).a := by
  cases mode with
  | immediate => exact ⟨rfl, rfl, rfl, rfl⟩
  | direct => exact ⟨rfl, rfl, rfl, rfl⟩
  | indirect => exact ⟨rfl, rfl, rfl, rfl⟩
  | predecrement =>
      rw [normalise]
      by_cases here : cell = ahead pc field
      · subst here
        simp [Core.putB, Core.put]
      · dsimp only
        rw [putB_other _ _ _ _ here]
        exact ⟨rfl, rfl, rfl, rfl⟩

theorem fetch_keeps (core : Core) (pc cell : Place) : ((fetch core pc).core cell).op = (core cell).op ∧
    ((fetch core pc).core cell).amode = (core cell).amode ∧ ((fetch core pc).core cell).bmode = (core cell).bmode := by
  have first := normalise_keeps core pc (core pc).a (core pc).amode cell
  have second := normalise_keeps (normalise core pc (core pc).a (core pc).amode).1 pc (core pc).b (core pc).bmode cell
  exact ⟨second.1.trans first.1, second.2.1.trans first.2.1, second.2.2.1.trans first.2.2.1⟩

-- The operands of the instruction at pc as cwgetargs leaves them are those of the standard.
def Decodes (mars : Mars) (core : Core) (op : Place) : Prop :=
  ∃ seen arg1 arg2, cwgetargs mars op op.val = .ok (seen, arg1, arg2) ∧ Represents seen (fetch core op).core ∧
    arg1 = (fetch core op).a.val ∧ arg2 = (fetch core op).b.val

theorem cwgetargs_iff (mars : Mars) (op : Place) (pc : Int) (seen : Mars) (arg1 arg2 : Int) :
    cwgetargs mars op pc = .ok (seen, arg1, arg2) ↔ ∃ middle, cwgetarg mars (mars.optab op).aflg (mars.a op) pc = .ok (middle, arg1) ∧
      cwgetarg middle (middle.optab op).bflg (middle.b op) pc = .ok (seen, arg2) := by
  unfold cwgetargs
  constructor
  · intro read
    cases first : cwgetarg mars (mars.optab op).aflg (mars.a op) pc with
    | error stop => simp [first, bind, Except.bind] at read
    | ok pair =>
        obtain ⟨middle, arg⟩ := pair
        rw [first] at read
        cases second : cwgetarg middle (middle.optab op).bflg (middle.b op) pc with
        | error stop => simp [second, bind, Except.bind] at read
        | ok last =>
            obtain ⟨next, other⟩ := last
            simp only [second, bind, Except.bind, Except.ok.injEq, Prod.mk.injEq] at read
            obtain ⟨rfl, rfl, rfl⟩ := read
            exact ⟨middle, rfl, second⟩
  · rintro ⟨middle, first, second⟩
    rw [first]
    simp only [bind, Except.bind]
    rw [second]

theorem decodes_iff (mars : Mars) (core : Core) (holds : Represents mars core) (op : Place) : Decodes mars core op ↔
    Straight core op (core op).a (core op).a (core op).amode ∧
      Straight (normalise core op (core op).a (core op).amode).1 op ((normalise core op (core op).a (core op).amode).1 op).b (core op).b
        (core op).bmode := by
  have marks := (holds op).aflg
  have first := straight_iff mars core holds (mars.optab op).aflg _ marks op (core op).a (core op).a
  rw [← holds_a mars core holds op] at first
  have second : ∀ middle, Represents middle (normalise core op (core op).a (core op).amode).1 →
      (ReadsAs (cwgetarg middle (middle.optab op).bflg (middle.b op) op.val)
        (normalise (normalise core op (core op).a (core op).amode).1 op (core op).b (core op).bmode) ↔
      Straight (normalise core op (core op).a (core op).amode).1 op ((normalise core op (core op).a (core op).amode).1 op).b (core op).b
        (core op).bmode) := by
    intro middle held
    have bmarks := (held op).bflg
    rw [(normalise_keeps core op (core op).a (core op).amode op).2.2.1] at bmarks
    rw [holds_b middle _ held op]
    exact straight_iff middle _ held _ _ bmarks op _ _
  constructor
  · rintro ⟨seen, arg1, arg2, read, held, firstArg, secondArg⟩
    obtain ⟨middle, one, two⟩ := (cwgetargs_iff mars op op.val seen arg1 arg2).mp read
    have middleHolds : Represents middle (normalise core op (core op).a (core op).amode).1 := by
      have start := one
      rw [holds_a mars core holds op] at start
      obtain kept | ⟨cell, spoilt⟩ := first_holds mars core holds _ _ marks op _ middle arg1 start
      · exact kept
      · exact absurd held (spoilt_never seen _ cell (spoilt_stays middle _ _ _ seen arg2 two cell spoilt))
    exact ⟨first.mp ⟨middle, arg1, one, middleHolds, firstArg⟩, (second middle middleHolds).mp ⟨seen, arg2, two, held, secondArg⟩⟩
  · rintro ⟨one, two⟩
    obtain ⟨middle, arg1, read, middleHolds, firstArg⟩ := first.mpr one
    obtain ⟨seen, arg2, again, held, secondArg⟩ := (second middle middleHolds).mpr two
    exact ⟨seen, arg1, arg2, (cwgetargs_iff mars op op.val seen arg1 arg2).mpr ⟨middle, read, again⟩, held, firstArg, secondArg⟩

-- A < operand at the executing cell lowers the field the source then takes for
-- its B operand; an @ operand may come to the same address all the same.
structure Rejoins (core : Core) (pc : Place) : Prop where
  field : (core pc).a = origin
  above : (core pc).b ≠ origin
  mode : (core pc).bmode = .indirect
  same : ahead pc ((core.putB pc (behind (core pc).b one)) (ahead pc (behind (core pc).b one))).b =
    ahead (ahead pc (core pc).b) ((core.putB pc (behind (core pc).b one)) (ahead pc (core pc).b)).b

structure Addressed (core : Core) (pc : Place) : Prop where
  aindirect : (core pc).amode = .indirect → (core pc).a = origin
  bindirect : (core pc).amode ≠ .predecrement → (core pc).bmode = .indirect → (core pc).b = origin
  apredecrement : (core pc).amode = .predecrement → Rejoins core pc
  bpredecrement : (core pc).bmode ≠ .predecrement

theorem straight_indirect (core : Core) (pc field : Place) : Straight core pc field field .indirect ↔ field = origin := by
  rw [Straight, ahead_left, eq_comm, ahead_origin]

theorem straight_second (core : Core) (pc : Place) (mode : Addressing) :
    Straight core pc (core pc).b (core pc).b mode ↔ mode ≠ .predecrement ∧ (mode = .indirect → (core pc).b = origin) := by
  cases mode with
  | immediate => simp [Straight]
  | direct => simp [Straight]
  | indirect => simp [straight_indirect]
  | predecrement => simp [Straight]

theorem straight_counted (core : Core) (pc less field : Place) (apart : less ≠ field) (mode : Addressing) :
    Straight core pc less field mode ↔ mode = .indirect ∧ ahead pc (core (ahead pc less)).b = ahead (ahead pc field) (core (ahead pc field)).b := by
  cases mode <;> simp [Straight, apart]

theorem addressed_plain (core : Core) (pc : Place) (plain : (core pc).amode ≠ .predecrement) :
    Addressed core pc ↔ ((core pc).amode = .indirect → (core pc).a = origin) ∧ (core pc).bmode ≠ .predecrement ∧
      ((core pc).bmode = .indirect → (core pc).b = origin) := by
  constructor
  · intro addressed
    exact ⟨addressed.aindirect, addressed.bpredecrement, addressed.bindirect plain⟩
  · rintro ⟨aindirect, bpredecrement, bindirect⟩
    exact ⟨aindirect, fun _ => bindirect, fun counted => absurd counted plain, bpredecrement⟩

theorem addressed_iff (core : Core) (pc : Place) : (Straight core pc (core pc).a (core pc).a (core pc).amode ∧
    Straight (normalise core pc (core pc).a (core pc).amode).1 pc ((normalise core pc (core pc).a (core pc).amode).1 pc).b (core pc).b
      (core pc).bmode) ↔ Addressed core pc := by
  cases mode : (core pc).amode with
  | immediate =>
      rw [normalise, straight_second, Straight, addressed_plain core pc (by simp [mode])]
      simp [mode]
  | direct =>
      rw [normalise, straight_second, Straight, addressed_plain core pc (by simp [mode])]
      simp [mode]
  | indirect =>
      rw [normalise, straight_second, straight_indirect, addressed_plain core pc (by simp [mode])]
      simp [mode]
  | predecrement =>
      have here : (core pc).a = origin → ahead pc (core pc).a = pc := (ahead_origin pc _).mpr
      rw [normalise, Straight]
      dsimp only
      constructor
      · rintro ⟨⟨-, field, above⟩, straight⟩
        rw [here field, putB_same, straight_counted _ _ _ _ (behind_one _)] at straight
        exact ⟨by simp [mode], by simp [mode], fun _ => ⟨field, above, straight.1, straight.2⟩, by simp [straight.1]⟩
      · intro addressed
        obtain ⟨field, above, indirect, same⟩ := addressed.apredecrement mode
        rw [here field, putB_same, straight_counted _ _ _ _ (behind_one _)]
        exact ⟨⟨rfl, field, above⟩, indirect, same⟩

end OsZero.CoreWar

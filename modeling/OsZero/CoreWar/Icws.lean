import OsZero.CoreWar.Machine

set_option autoImplicit false

namespace OsZero.CoreWar

-- The machine of the ICWS'88 standard: addresses and fields are numbers from
-- zero to the core size minus one, and all arithmetic on them wraps.
abbrev Place := Fin cwcoresize

def origin : Place := ⟨0, by decide⟩

def one : Place := ⟨1, by decide⟩

def ahead (x y : Place) : Place := ⟨(x.val + y.val) % cwcoresize, Nat.mod_lt _ (by decide)⟩

def behind (x y : Place) : Place := ⟨(x.val + (cwcoresize - y.val)) % cwcoresize, Nat.mod_lt _ (by decide)⟩

inductive Addressing where
  | immediate | direct | indirect | predecrement
deriving DecidableEq, Repr

structure Cell where
  op : Opcode
  amode : Addressing
  bmode : Addressing
  a : Place
  b : Place
deriving DecidableEq, Repr

abbrev Core := Place → Cell

def Core.put (core : Core) (cell : Place) (content : Cell) : Core := Function.update core cell content

def Core.putB (core : Core) (cell b : Place) : Core := core.put cell { core cell with b := b }

-- An operand is brought down to its value when it is immediate and to the
-- address of a cell otherwise, the last offset counting from the cell it is in.
def normalise (core : Core) (pc : Place) (field : Place) : Addressing → Core × Place
  | .immediate => (core, field)
  | .direct => (core, ahead pc field)
  | .indirect => (core, ahead (ahead pc field) (core (ahead pc field)).b)
  | .predecrement =>
      let ptr := ahead pc field
      let less := behind (core ptr).b one
      (core.putB ptr less, ahead ptr less)

structure Operands where
  core : Core
  a : Place
  b : Place

-- Both fields are those of the instruction as it was fetched, whatever the
-- A operand has counted down since.
def fetch (core : Core) (pc : Place) : Operands :=
  let first := normalise core pc (core pc).a (core pc).amode
  let second := normalise first.1 pc (core pc).b (core pc).bmode
  ⟨second.1, first.2, second.2⟩

-- What a step leaves: the core, where the process goes on if it lives, and
-- where a process it has split off starts.
structure Outcome where
  core : Core
  next : Option Place
  spawned : Option Place

def goOn (core : Core) (pc : Place) : Outcome := ⟨core, some (ahead pc one), none⟩

def skipIf (skip : Prop) [Decidable skip] (core : Core) (pc : Place) : Outcome :=
  ⟨core, some (if skip then ahead (ahead pc one) one else ahead pc one), none⟩

def jumpIf (jump : Prop) [Decidable jump] (core : Core) (pc target : Place) : Outcome :=
  ⟨core, some (if jump then target else ahead pc one), none⟩

-- JMP and SPL have a single operand, which the source keeps in the B slot.
def perform (instr : Cell) (pc : Place) (args : Operands) : Outcome :=
  let source := args.core args.a
  let target := args.core args.b
  match instr.op with
  | .dat => ⟨args.core, none, none⟩
  | .mov => goOn (if instr.amode = .immediate then args.core.putB args.b args.a else args.core.put args.b source) pc
  | .add => goOn (if instr.amode = .immediate then args.core.putB args.b (ahead target.b args.a)
      else args.core.put args.b { target with a := ahead target.a source.a, b := ahead target.b source.b }) pc
  | .sub => goOn (if instr.amode = .immediate then args.core.putB args.b (behind target.b args.a)
      else args.core.put args.b { target with a := behind target.a source.a, b := behind target.b source.b }) pc
  | .jmp => ⟨args.core, some args.b, none⟩
  | .jmz => jumpIf ((if instr.bmode = .immediate then args.b else target.b) = origin) args.core pc args.a
  | .jmn => jumpIf ((if instr.bmode = .immediate then args.b else target.b) ≠ origin) args.core pc args.a
  | .cmp => skipIf (if instr.amode = .immediate then args.a = target.b else source = target) args.core pc
  | .slt => skipIf ((if instr.amode = .immediate then args.a else source.b).val < target.b.val) args.core pc
  | .djn =>
      let counter := if instr.bmode = .immediate then pc else args.b
      let less := behind (args.core counter).b one
      jumpIf (less ≠ origin) (args.core.putB counter less) pc args.a
  | .spl => ⟨args.core, some (ahead pc one), some args.b⟩

def icwsstep (core : Core) (pc : Place) : Outcome := perform (core pc) pc (fetch core pc)

-- The operand modes the standard lists, the unused operand of JMP and SPL left
-- at the mode the assembler gives it.
def Permitted (instr : Cell) : Prop :=
  match instr.op with
  | .dat => False
  | .mov | .add | .sub | .cmp | .slt => instr.bmode ≠ .immediate
  | .jmz | .jmn | .djn => instr.amode ≠ .immediate
  | .jmp | .spl => instr.amode = .direct ∧ instr.bmode ≠ .immediate

section Places

variable (x y z : Place)

theorem ahead_val : (ahead x y).val = (x.val + y.val) % 8000 := rfl

theorem behind_val : (behind x y).val = (x.val + (8000 - y.val)) % 8000 := rfl

theorem place_lt : x.val < 8000 := x.isLt

theorem origin_val : origin.val = 0 := rfl

theorem one_val : one.val = 1 := rfl

theorem ahead_right : ahead x y = ahead x z ↔ y = z := by
  have bounds := And.intro (place_lt x) (And.intro (place_lt y) (place_lt z))
  rw [Fin.ext_iff, Fin.ext_iff, ahead_val, ahead_val]
  omega

theorem ahead_left : ahead x z = ahead y z ↔ x = y := by
  have bounds := And.intro (place_lt x) (And.intro (place_lt y) (place_lt z))
  rw [Fin.ext_iff, Fin.ext_iff, ahead_val, ahead_val]
  omega

theorem ahead_origin : ahead x y = x ↔ y = origin := by
  have bounds := And.intro (place_lt x) (place_lt y)
  rw [Fin.ext_iff, Fin.ext_iff, ahead_val, origin_val]
  omega

theorem behind_one : behind x one ≠ x := by
  have bound := place_lt x
  rw [Ne, Fin.ext_iff, behind_val, one_val]
  omega

theorem behind_one_origin : behind x one = origin ↔ x = one := by
  have bound := place_lt x
  rw [Fin.ext_iff, Fin.ext_iff, behind_val, one_val, origin_val]
  omega

theorem ahead_one : ahead x one ≠ x := by
  have bound := place_lt x
  rw [Ne, Fin.ext_iff, ahead_val, one_val]
  omega

-- A difference is its own opposite when it is zero or half the core.
theorem behind_swap : behind x y = behind y x ↔ x.val % 4000 = y.val % 4000 := by
  have bounds := And.intro (place_lt x) (place_lt y)
  rw [Fin.ext_iff, behind_val, behind_val]
  omega

end Places

end OsZero.CoreWar

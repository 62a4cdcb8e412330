import Mathlib.Data.BitVec
import OsZero.Lib.Runs

set_option autoImplicit false

namespace OsZero.Mouse

open Runs

structure Mousestate where
  flg : BitVec 16
  state : BitVec 16
  x : BitVec 32
  y : BitVec 32
  z : BitVec 32
  xmax : BitVec 32
  ymax : BitVec 32
  zmax : BitVec 32
  shift : BitVec 32

-- The bytes of a packet in the order they are read; xtra is read from a mouse with a wheel.
structure Packet where
  mask : BitVec 8
  xmov : BitVec 8
  ymov : BitVec 8
  xtra : BitVec 8

-- One axis has the byte of its movement and the bits of mask for overflow and sign.
def movement (shift : BitVec 32) (mov mask overflow sign : BitVec 8) : BitVec 32 :=
  let mov := mov.setWidth 32
  let mov := if mask &&& overflow ≠ 0#8 then 0xff#32 else if (0#32).slt shift then mov <<< shift.toNat else mov.sshiftRight shift.toNat
  if mask &&& sign ≠ 0#8 then -mov else mov

def place (val edge mov : BitVec 32) : BitVec 32 :=
  if mov.slt 0#32 then if val.slt (-mov) then 0#32 else val + mov
  else if val.slt (edge - val) then val + mov else edge

def zmovement (flg : BitVec 16) (xtra : BitVec 8) : BitVec 32 :=
  if flg &&& 0x03 ≠ 0#16 then
    let zmov := (xtra &&& 0x07).setWidth 32
    if xtra &&& 0x08 ≠ 0#8 then -zmov else zmov
  else 0#32

def buttons (flg : BitVec 16) (packet : Packet) : BitVec 8 :=
  let state := packet.mask &&& 0x07
  if flg &&& 0x03 ≠ 0#16 ∧ flg &&& 0x03 &&& 0x02 ≠ 0#16 then state ||| ((packet.xtra >>> 1) &&& 0x18) else state

def ps2mouseintr (mouse : Mousestate) (packet : Packet) : Mousestate :=
  let zmov := zmovement mouse.flg packet.xtra
  { mouse with
    state := (buttons mouse.flg packet).setWidth 16
    x := place mouse.x mouse.xmax (movement mouse.shift packet.xmov packet.mask 0x40 0x10)
    y := place mouse.y mouse.ymax (movement mouse.shift packet.ymov packet.mask 0x80 0x20)
    z := if zmov ≠ 0#32 then place mouse.z mouse.zmax zmov else mouse.z }

-- The movement that a packet tells along one axis.
def moved (shift : Nat) (mov mask overflow sign : BitVec 8) : Int :=
  let size := if mask &&& overflow ≠ 0#8 then 255 else mov.toNat * 2 ^ shift
  if mask &&& sign ≠ 0#8 then -size else size

def zmoved (flg : BitVec 16) (xtra : BitVec 8) : Int :=
  if flg &&& 0x03 ≠ 0#16 then if xtra &&& 0x08 ≠ 0#8 then -(xtra.toNat % 8) else xtra.toNat % 8 else 0

def clamped (val edge : Nat) (mov : Int) : Int := max 0 (min (val + mov) edge)

-- Below the middle of the axis the movement has to end before the edge, from there on behind it.
def Ends (val edge : Nat) (mov : Int) : Prop := mov < 0 ∨ if 2 * val < edge then val + mov ≤ edge else edge ≤ val + mov

section Axis

variable (val edge mov : BitVec 32)

theorem place_back (inside : val.toNat ≤ edge.toNat) (screen : edge.toNat ≤ 1073741824) (left : -16777216 ≤ mov.toInt) (back : mov.toInt < 0) :
    ((place val edge mov).toNat : Int) = clamped val.toNat edge.toNat mov.toInt := by
  have word := mov.isLt
  have value := BitVec.toInt_eq_toNat_cond mov
  have negated : (-mov).toInt = -mov.toInt := by
    rw [BitVec.toInt_eq_toNat_cond, BitVec.toNat_neg]
    split_ifs at * <;> omega
  have start : val.toInt = val.toNat := BitVec.toInt_eq_toNat_of_lt (by omega)
  have sign : mov.slt 0#32 = true := BitVec.slt_iff_toInt_lt.mpr back
  rw [place, if_pos sign, clamped]
  by_cases short : val.slt (-mov) = true
  · have less := BitVec.slt_iff_toInt_lt.mp short
    rw [if_pos short, BitVec.toNat_zero]
    omega
  · have more := mt BitVec.slt_iff_toInt_lt.mpr short
    rw [if_neg short, BitVec.toNat_add]
    split_ifs at value <;> omega

theorem place_on (inside : val.toNat ≤ edge.toNat) (screen : edge.toNat ≤ 1073741824) (right : mov.toInt ≤ 16777216) (on : 0 ≤ mov.toInt) :
    (place val edge mov).toNat = if 2 * val.toNat < edge.toNat then val.toNat + mov.toNat else edge.toNat := by
  have word := mov.isLt
  have value := BitVec.toInt_eq_toNat_cond mov
  have rest : (edge - val).toNat = edge.toNat - val.toNat := BitVec.toNat_sub_of_le (BitVec.le_def.mpr inside)
  have start : val.toInt = val.toNat := BitVec.toInt_eq_toNat_of_lt (by omega)
  have distance : (edge - val).toInt = (edge - val).toNat := BitVec.toInt_eq_toNat_of_lt (by omega)
  have sign : ¬ mov.slt 0#32 = true := mt BitVec.slt_iff_toInt_lt.mp (Int.not_lt.mpr on)
  have half : val.slt (edge - val) = true ↔ 2 * val.toNat < edge.toNat := by
    rw [BitVec.slt_iff_toInt_lt, start, distance, rest]
    omega
  rw [place, if_neg sign]
  simp only [half]
  split_ifs with before
  · rw [BitVec.toNat_add]
    split_ifs at value <;> omega
  · rfl

theorem place_iff (inside : val.toNat ≤ edge.toNat) (screen : edge.toNat ≤ 1073741824) (left : -16777216 ≤ mov.toInt) (right : mov.toInt ≤ 16777216) :
    ((place val edge mov).toNat : Int) = clamped val.toNat edge.toNat mov.toInt ↔ Ends val.toNat edge.toNat mov.toInt := by
  rcases Int.lt_or_le mov.toInt 0 with back | on
  · exact ⟨fun _ => .inl back, fun _ => place_back val edge mov inside screen left back⟩
  · have word := mov.isLt
    have value : mov.toInt = mov.toNat := by
      have cond := BitVec.toInt_eq_toNat_cond mov
      split_ifs at cond <;> omega
    rw [place_on val edge mov inside screen right on, Ends, clamped, value]
    split_ifs <;> omega

end Axis

section Movement

theorem signed_toInt (mov : BitVec 32) (sign : Prop) [Decidable sign] (small : mov.toNat ≤ 16777216) :
    (if sign then -mov else mov).toInt = if sign then -(mov.toNat : Int) else mov.toNat := by
  split_ifs
  · rw [BitVec.toInt_eq_toNat_cond, BitVec.toNat_neg]
    split_ifs <;> omega
  · exact BitVec.toInt_eq_toNat_of_lt (by omega)

theorem scaled_toNat (shift : BitVec 32) (mov : BitVec 8) (scale : shift.toNat ≤ 16) :
    (if (0#32).slt shift then mov.setWidth 32 <<< shift.toNat else (mov.setWidth 32).sshiftRight shift.toNat).toNat =
      mov.toNat * 2 ^ shift.toNat ∧ mov.toNat * 2 ^ shift.toNat ≤ 16777216 := by
  have byte := mov.isLt
  have power : 2 ^ shift.toNat ≤ 2 ^ 16 := Nat.pow_le_pow_right (by decide) scale
  have product : mov.toNat * 2 ^ shift.toNat ≤ 255 * 2 ^ 16 := Nat.mul_le_mul (by omega) power
  have wide : (mov.setWidth 32).toNat = mov.toNat := by
    rw [BitVec.toNat_setWidth]
    omega
  have value : shift.toInt = shift.toNat := BitVec.toInt_eq_toNat_of_lt (by omega)
  refine ⟨?_, by omega⟩
  split_ifs with scaled
  · rw [BitVec.toNat_shiftLeft, wide, Nat.shiftLeft_eq, Nat.mod_eq_of_lt (by omega)]
  · have zero : shift.toNat = 0 := by
      have above := mt BitVec.slt_iff_toInt_lt.mpr scaled
      rw [value, BitVec.toInt_zero] at above
      omega
    rw [zero, BitVec.sshiftRight_zero, wide, Nat.pow_zero, Nat.mul_one]

theorem movement_toInt (shift : BitVec 32) (mov mask overflow sign : BitVec 8) (scale : shift.toNat ≤ 16) :
    (movement shift mov mask overflow sign).toInt = moved shift.toNat mov mask overflow sign ∧
      -16777216 ≤ moved shift.toNat mov mask overflow sign ∧ moved shift.toNat mov mask overflow sign ≤ 16777216 := by
  obtain ⟨value, small⟩ := scaled_toNat shift mov scale
  have size : (if mask &&& overflow ≠ 0#8 then 0xff#32 else
      if (0#32).slt shift then mov.setWidth 32 <<< shift.toNat else (mov.setWidth 32).sshiftRight shift.toNat).toNat =
        if mask &&& overflow ≠ 0#8 then 255 else mov.toNat * 2 ^ shift.toNat := by
    rw [apply_ite BitVec.toNat, value]
    rfl
  have bound : (if mask &&& overflow ≠ 0#8 then 255 else mov.toNat * 2 ^ shift.toNat) ≤ 16777216 := by
    split_ifs <;> omega
  rw [movement, signed_toInt _ _ (size ▸ bound), size, moved]
  refine ⟨?_, ?_, ?_⟩
  · push_cast
    rfl
  · split_ifs <;> omega
  · split_ifs <;> omega

theorem zmovement_toInt (flg : BitVec 16) (xtra : BitVec 8) :
    (zmovement flg xtra).toInt = zmoved flg xtra ∧ -16777216 ≤ zmoved flg xtra ∧ zmoved flg xtra ≤ 16777216 := by
  have size : ((xtra &&& 0x07).setWidth 32).toNat = xtra.toNat % 8 := by
    rw [BitVec.toNat_setWidth, BitVec.toNat_and]
    exact (Nat.mod_eq_of_lt (Nat.lt_of_le_of_lt Nat.and_le_right (by decide))).trans (Nat.and_two_pow_sub_one_eq_mod xtra.toNat 3)
  rw [zmovement, zmoved]
  by_cases wheel : flg &&& 0x03 ≠ 0#16
  · rw [if_pos wheel, if_pos wheel, signed_toInt _ _ (by omega), size]
    refine ⟨rfl, ?_, ?_⟩
    · split_ifs <;> omega
    · split_ifs <;> omega
  · rw [if_neg wheel, if_neg wheel]
    decide

end Movement

-- The pointer is on a screen of at most 2 ^ 30, and the scale is one the driver can be set to.
structure Onscreen (mouse : Mousestate) : Prop where
  x : mouse.x.toNat ≤ mouse.xmax.toNat
  y : mouse.y.toNat ≤ mouse.ymax.toNat
  z : mouse.z.toNat ≤ mouse.zmax.toNat
  xmax : mouse.xmax.toNat ≤ 1073741824
  ymax : mouse.ymax.toNat ≤ 1073741824
  zmax : mouse.zmax.toNat ≤ 1073741824
  shift : mouse.shift.toNat ≤ 16

def xmoved (mouse : Mousestate) (packet : Packet) : Int := moved mouse.shift.toNat packet.xmov packet.mask 0x40 0x10

def ymoved (mouse : Mousestate) (packet : Packet) : Int := moved mouse.shift.toNat packet.ymov packet.mask 0x80 0x20

structure Follows (mouse : Mousestate) (packet : Packet) : Prop where
  x : ((ps2mouseintr mouse packet).x.toNat : Int) = clamped mouse.x.toNat mouse.xmax.toNat (xmoved mouse packet)
  y : ((ps2mouseintr mouse packet).y.toNat : Int) = clamped mouse.y.toNat mouse.ymax.toNat (ymoved mouse packet)
  z : ((ps2mouseintr mouse packet).z.toNat : Int) = clamped mouse.z.toNat mouse.zmax.toNat (zmoved mouse.flg packet.xtra)

def EndsAll (mouse : Mousestate) (packet : Packet) : Prop :=
  Ends mouse.x.toNat mouse.xmax.toNat (xmoved mouse packet) ∧ Ends mouse.y.toNat mouse.ymax.toNat (ymoved mouse packet) ∧
    (zmoved mouse.flg packet.xtra = 0 ∨ Ends mouse.z.toNat mouse.zmax.toNat (zmoved mouse.flg packet.xtra))

def mousestep (mouse : Mousestate) (packet : Packet) : Option Mousestate := some (ps2mouseintr mouse packet)

section Steps

variable (mouse : Mousestate) (packet : Packet)

theorem clamped_range (val edge after : Nat) (mov : Int) (same : (after : Int) = clamped val edge mov) : after ≤ edge := by
  unfold clamped at same
  omega

theorem axis_iff (val edge : BitVec 32) (mov mask overflow sign : BitVec 8) (inside : val.toNat ≤ edge.toNat) (screen : edge.toNat ≤ 1073741824)
    (scale : mouse.shift.toNat ≤ 16) :
    ((place val edge (movement mouse.shift mov mask overflow sign)).toNat : Int) =
        clamped val.toNat edge.toNat (moved mouse.shift.toNat mov mask overflow sign) ↔
      Ends val.toNat edge.toNat (moved mouse.shift.toNat mov mask overflow sign) := by
  obtain ⟨value, left, right⟩ := movement_toInt mouse.shift mov mask overflow sign scale
  rw [← value] at left right ⊢
  exact place_iff val edge _ inside screen left right

-- The third axis is left alone where the wheel was not turned.
theorem wheel_iff (inside : mouse.z.toNat ≤ mouse.zmax.toNat) (screen : mouse.zmax.toNat ≤ 1073741824) :
    ((ps2mouseintr mouse packet).z.toNat : Int) = clamped mouse.z.toNat mouse.zmax.toNat (zmoved mouse.flg packet.xtra) ↔
      zmoved mouse.flg packet.xtra = 0 ∨ Ends mouse.z.toNat mouse.zmax.toNat (zmoved mouse.flg packet.xtra) := by
  obtain ⟨value, left, right⟩ := zmovement_toInt mouse.flg packet.xtra
  have still : zmovement mouse.flg packet.xtra = 0#32 ↔ zmoved mouse.flg packet.xtra = 0 := by
    rw [← value, ← BitVec.toInt_inj, BitVec.toInt_zero]
  simp only [ps2mouseintr]
  by_cases turned : zmoved mouse.flg packet.xtra = 0
  · rw [if_neg (not_not.mpr (still.mpr turned)), turned, clamped]
    exact ⟨fun _ => .inl rfl, fun _ => by omega⟩
  · rw [if_pos (mt still.mp turned), or_iff_right turned]
    rw [← value] at left right ⊢
    exact place_iff mouse.z mouse.zmax _ inside screen left right

theorem follows_iff (onscreen : Onscreen mouse) : Follows mouse packet ↔ EndsAll mouse packet := by
  have x := axis_iff mouse mouse.x mouse.xmax packet.xmov packet.mask 0x40 0x10 onscreen.x onscreen.xmax onscreen.shift
  have y := axis_iff mouse mouse.y mouse.ymax packet.ymov packet.mask 0x80 0x20 onscreen.y onscreen.ymax onscreen.shift
  have z := wheel_iff mouse packet onscreen.z onscreen.zmax
  constructor
  · intro follows
    exact ⟨x.mp follows.x, y.mp follows.y, z.mp follows.z⟩
  · rintro ⟨xEnds, yEnds, zEnds⟩
    exact ⟨x.mpr xEnds, y.mpr yEnds, z.mpr zEnds⟩

theorem follows_onscreen (onscreen : Onscreen mouse) (follows : Follows mouse packet) : Onscreen (ps2mouseintr mouse packet) := by
  constructor
  · exact clamped_range _ _ _ _ follows.x
  · exact clamped_range _ _ _ _ follows.y
  · exact clamped_range _ _ _ _ follows.z
  · exact onscreen.xmax
  · exact onscreen.ymax
  · exact onscreen.zmax
  · exact onscreen.shift

theorem mousestep_exact (onscreen : Onscreen mouse) :
    (Follows mouse packet ∧ ∃ next, mousestep mouse packet = some next ∧ Onscreen next) ↔ EndsAll mouse packet := by
  rw [← follows_iff mouse packet onscreen]
  exact ⟨fun both => both.1, fun follows => ⟨follows, _, rfl, follows_onscreen mouse packet onscreen follows⟩⟩

end Steps

theorem mouse_follows_iff (mouse : Mousestate) (packets : List Packet) (onscreen : Onscreen mouse) :
    Holds mousestep Onscreen Follows mouse packets ↔ Meets mousestep EndsAll mouse packets := by
  apply holds_iff_meets_kept mousestep Onscreen Follows EndsAll (fun _ => True) _ mouse packets onscreen (fun _ _ => trivial)
  intro state packet good _
  exact mousestep_exact state packet good

-- A screen of 640 by 480 with the pointer in its upper left quarter, and a wheel.
def corner : Mousestate := ⟨1, 0, 100, 100, 4, 639, 479, 15, 0⟩

theorem corner_onscreen : Onscreen corner := by
  constructor <;> decide

theorem mouse_follows_corner : Holds mousestep Onscreen Follows corner [⟨0x10, 5, 7, 0x0b⟩] := by
  refine (mouse_follows_iff corner _ corner_onscreen).mpr ⟨⟨.inl (by decide), .inr (by decide), .inr (.inl (by decide))⟩, fun _ _ => trivial⟩

theorem mouse_jumps : ¬ Holds mousestep Onscreen Follows ⟨0, 0, 400, 100, 0, 639, 479, 15, 0⟩ [⟨0, 5, 0, 0⟩] := by
  rintro ⟨-, follows, -⟩
  have jump := follows.x
  revert jump
  decide

end OsZero.Mouse

import Mathlib.Data.List.Basic
import Mathlib.Tactic.IntervalCases

set_option autoImplicit false

namespace OsZero.Codec

abbrev Byte := BitVec 8

-- The bytes written from str on: their number is returned, and retstr is left
-- that far behind str.
def utf8encode (uc : BitVec 32) (nbmax : Nat) : List Byte :=
  let mask2 : BitVec 32 := 0x3f
  if uc.slt 0x80 ∧ 1 ≤ nbmax then
    [(uc &&& 0x7f).setWidth 8]
  else if uc.slt 0x800 ∧ 2 ≤ nbmax then
    [(0xc0 ||| (uc.sshiftRight 6 &&& 0x1f)).setWidth 8,
      (0x80 ||| (uc &&& mask2)).setWidth 8]
  else if uc.slt 0x10000 ∧ 3 ≤ nbmax then
    [(0xe0 ||| (uc.sshiftRight 12 &&& 0x0f)).setWidth 8,
      (0x80 ||| (uc.sshiftRight 6 &&& mask2)).setWidth 8,
      (0x80 ||| (uc &&& mask2)).setWidth 8]
  else if uc.slt 0x2000000 ∧ 4 ≤ nbmax then
    [(0xf0 ||| (uc.sshiftRight 18 &&& 0x07)).setWidth 8,
      (0x80 ||| (uc.sshiftRight 12).srem mask2).setWidth 8,
      (0x80 ||| (uc.sshiftRight 6 &&& mask2)).setWidth 8,
      (0x80 ||| (uc &&& mask2)).setWidth 8]
  else if uc.slt 0x40000000 ∧ 5 ≤ nbmax then
    [(0xf8 ||| (uc.sshiftRight 24 &&& 0x03)).setWidth 8,
      (0x80 ||| (uc.sshiftRight 18 &&& mask2)).setWidth 8,
      (0x80 ||| (uc.sshiftRight 12 &&& mask2)).setWidth 8,
      (0x80 ||| (uc.sshiftRight 6 &&& mask2)).setWidth 8,
      (0x80 ||| (uc &&& mask2)).setWidth 8]
  else if 6 ≤ nbmax then
    [(0xfc ||| (uc.sshiftRight 30 &&& 0x01)).setWidth 8,
      (0x80 ||| (uc.sshiftRight 24 &&& mask2)).setWidth 8,
      (0x80 ||| (uc.sshiftRight 18 &&& mask2)).setWidth 8,
      (0x80 ||| (uc.sshiftRight 12 &&& mask2)).setWidth 8,
      (0x80 ||| (uc.sshiftRight 6 &&& mask2)).setWidth 8,
      (0x80 ||| (uc &&& mask2)).setWidth 8]
  else []

def utf8loop : Nat → BitVec 32 → List Byte → Option (BitVec 32)
  | 0, uc, _ => some uc
  | _ + 1, _, [] => none
  | n + 1, uc, byte :: str => utf8loop n (uc <<< 6 ||| (byte.setWidth 32 &&& 0x3f)) str

-- len is how far str is moved. retstr is a pointer to a byte, so what is stored
-- there is the low byte of the address reached.
structure Decoded where
  uc : BitVec 32
  len : Nat
  stored : Option Byte
deriving DecidableEq

def utf8done (addr : BitVec 64) (retstr : Bool) (uc : BitVec 32) (len : Nat) : Decoded :=
  ⟨uc, len, if len ≠ 0 ∧ retstr then some ((addr + BitVec.ofNat 64 len).setWidth 8) else none⟩

def utf8many (addr : BitVec 64) (retstr : Bool) (lead : Byte) (str : List Byte) (mask : BitVec 32) (len : Nat) : Option Decoded := do
  let uc ← utf8loop (len - 1) (lead.setWidth 32 &&& mask) str
  some (utf8done addr retstr uc len)

-- None where a byte past the end of the memory at str is read.
def utf8decode (addr : BitVec 64) (retstr : Bool) (str : List Byte) (nbmax : Nat) : Option Decoded :=
  match str with
  | [] => none
  | lead :: str =>
      if lead &&& 0x80 = 0 ∧ 1 ≤ nbmax then some (utf8done addr retstr (lead.setWidth 32) 1)
      else if lead &&& 0xe0 = 0xc0 ∧ 2 ≤ nbmax then utf8many addr retstr lead str (~~~0xc0) 2
      else if lead &&& 0xf0 = 0xe0 ∧ 3 ≤ nbmax then utf8many addr retstr lead str (~~~0xe0) 3
      else if lead &&& 0xf8 = 0xf0 ∧ 4 ≤ nbmax then utf8many addr retstr lead str (~~~0xf0) 4
      else if lead &&& 0xfc = 0xf8 ∧ 5 ≤ nbmax then utf8many addr retstr lead str (~~~0xf8) 5
      else if 6 ≤ nbmax then utf8many addr retstr lead str (~~~0xfd) 6
      else some (utf8done addr retstr 0 0)

-- The bits of uc from shift on that fit into a byte of the encoding.
def field (width shift : Nat) (uc : BitVec 32) : BitVec width := (uc >>> shift).setWidth width

theorem field_toNat (width shift : Nat) (uc : BitVec 32) : (field width shift uc).toNat = uc.toNat / 2 ^ shift % 2 ^ width := by
  simp [field, Nat.shiftRight_eq_div_pow]

def lead (base : Byte) {width : Nat} (top : BitVec width) : Byte := base ||| top.setWidth 8

def trail (x : BitVec 6) : Byte := lead 0x80 x

def join (uc : BitVec 32) (xs : List (BitVec 6)) : BitVec 32 := xs.foldl (fun uc x => uc <<< 6 ||| x.setWidth 32) uc

theorem trail_bits (x : BitVec 6) : (trail x).setWidth 32 &&& 0x3f = x.setWidth 32 := by
  revert x
  decide

theorem shift_toNat (uc : BitVec 32) (x : BitVec 6) (small : uc.toNat < 2 ^ 26) :
    (uc <<< 6 ||| x.setWidth 32).toNat = uc.toNat * 64 + x.toNat := by
  have room : x.toNat < 2 ^ 6 := x.isLt
  rw [BitVec.toNat_or, BitVec.toNat_shiftLeft, Nat.mod_eq_of_lt (by rw [Nat.shiftLeft_eq]; omega), BitVec.toNat_setWidth,
    Nat.mod_eq_of_lt (by omega : x.toNat < 2 ^ 32), ← Nat.shiftLeft_add_eq_or_of_lt room, Nat.shiftLeft_eq]

theorem utf8loop_trail (xs : List (BitVec 6)) (uc : BitVec 32) (rest : List Byte) :
    utf8loop xs.length uc (xs.map trail ++ rest) = some (join uc xs) := by
  induction xs generalizing uc with
  | nil => rfl
  | cons x xs ih =>
    simp only [List.length_cons, List.map_cons, List.cons_append, utf8loop]
    rw [trail_bits, ih]
    rfl

theorem many_trail (addr : BitVec 64) (retstr : Bool) (first : Byte) (xs : List (BitVec 6)) (rest : List Byte) (mask : BitVec 32) :
    utf8many addr retstr first (xs.map trail ++ rest) mask (xs.length + 1) =
      some (utf8done addr retstr (join (first.setWidth 32 &&& mask) xs) (xs.length + 1)) := by
  simp [utf8many, utf8loop_trail]

theorem slt_nonneg (uc bound : BitVec 32) (nonneg : uc.toNat < 2 ^ 31) (small : bound.toNat < 2 ^ 31) :
    uc.slt bound = decide (uc.toNat < bound.toNat) := by
  rw [BitVec.slt, BitVec.toInt_eq_toNat_of_lt (by omega), BitVec.toInt_eq_toNat_of_lt (by omega)]
  simp

theorem slt_neg (uc bound : BitVec 32) (neg : 2 ^ 31 ≤ uc.toNat) (small : bound.toNat < 2 ^ 31) : uc.slt bound = true := by
  have size : uc.toNat < 2 ^ 32 := uc.isLt
  rw [BitVec.slt, BitVec.toInt_eq_toNat_of_lt (by omega : 2 * bound.toNat < 2 ^ 32), BitVec.toInt_eq_toNat_cond]
  simp only [show ¬2 * uc.toNat < 2 ^ 32 by omega, if_false, decide_eq_true_eq]
  omega

theorem shift_nonneg (uc : BitVec 32) (shift : Nat) (nonneg : uc.toNat < 2 ^ 31) : uc.sshiftRight shift = uc >>> shift := by
  rw [BitVec.sshiftRight_eq_of_msb_false]
  rw [BitVec.msb_eq_decide]
  simp only [decide_eq_false_iff_not]
  omega

theorem srem_byte (v : BitVec 32) (nonneg : v.toNat < 2 ^ 31) :
    (0x80 ||| v.srem 0x3f).setWidth 8 = trail (BitVec.ofNat 6 (v.toNat % 63)) := by
  have plus : v.msb = false := by
    rw [BitVec.msb_eq_decide]
    simp only [decide_eq_false_iff_not]
    omega
  have value : v.srem 0x3f = BitVec.ofNat 32 (v.toNat % 63) := by
    rw [BitVec.srem_eq, plus, show (0x3f : BitVec 32).msb = false from rfl]
    apply BitVec.eq_of_toNat_eq
    simp
    omega
  rw [value]
  have below : v.toNat % 63 < 63 := Nat.mod_lt _ (by omega)
  generalize v.toNat % 63 = r at below
  interval_cases r <;> rfl

theorem lead_byte (base : BitVec 32) (width : Nat) (v mask : BitVec 32) (ones : mask = BitVec.ofNat 32 (2 ^ width - 1)) :
    (base ||| (v &&& mask)).setWidth 8 = lead (base.setWidth 8) (v.setWidth width) := by
  subst ones
  unfold lead
  ext i hi
  have bit : (BitVec.ofNat 8 (2 ^ width - 1))[i] = decide (i < width) := by
    rw [← BitVec.getLsbD_eq_getElem, BitVec.getLsbD_ofNat, Nat.testBit_two_pow_sub_one, decide_eq_true hi, Bool.true_and]
  simp [bit, Bool.and_comm]

theorem encode_ascii (uc : BitVec 32) (nbmax : Nat) (range : uc.toNat < 0x80 ∨ 2 ^ 31 ≤ uc.toNat) (room : 1 ≤ nbmax) :
    utf8encode uc nbmax = [(uc &&& 0x7f).setWidth 8] := by
  have less : uc.slt 0x80 = true := by
    rcases range with low | neg
    · rw [slt_nonneg uc 0x80 (by omega) (by decide)]
      simpa using low
    · exact slt_neg uc 0x80 neg (by decide)
  simp only [utf8encode, less, room, and_self, if_true]

theorem encode_many (uc : BitVec 32) (nbmax : Nat) (low : 0x80 ≤ uc.toNat) (nonneg : uc.toNat < 2 ^ 31) :
    utf8encode uc nbmax =
      if uc.toNat < 0x800 ∧ 2 ≤ nbmax then
        lead 0xc0 (field 5 6 uc) :: [field 6 0 uc].map trail
      else if uc.toNat < 0x10000 ∧ 3 ≤ nbmax then
        lead 0xe0 (field 4 12 uc) :: [field 6 6 uc, field 6 0 uc].map trail
      else if uc.toNat < 0x2000000 ∧ 4 ≤ nbmax then
        lead 0xf0 (field 3 18 uc) :: [BitVec.ofNat 6 (uc.toNat / 2 ^ 12 % 63), field 6 6 uc, field 6 0 uc].map trail
      else if uc.toNat < 0x40000000 ∧ 5 ≤ nbmax then
        lead 0xf8 (field 2 24 uc) :: [field 6 18 uc, field 6 12 uc, field 6 6 uc, field 6 0 uc].map trail
      else if 6 ≤ nbmax then
        lead 0xfc (field 1 30 uc) :: [field 6 24 uc, field 6 18 uc, field 6 12 uc, field 6 6 uc, field 6 0 uc].map trail
      else [] := by
  have last : field 6 0 uc = uc.setWidth 6 := by simp [field]
  have high : (uc >>> 12).toNat < 2 ^ 31 := by
    simp only [BitVec.toNat_ushiftRight, Nat.shiftRight_eq_div_pow]
    omega
  have quot : (uc >>> 12).toNat = uc.toNat / 2 ^ 12 := by simp [Nat.shiftRight_eq_div_pow]
  have six : ∀ v : BitVec 32, (0x80 ||| (v &&& 0x3f)).setWidth 8 = trail (v.setWidth 6) :=
    fun v => lead_byte 0x80 6 v 0x3f rfl
  have slt := fun bound => slt_nonneg uc bound nonneg
  simp only [utf8encode, shift_nonneg uc _ nonneg, srem_byte _ high, six, last, quot, slt 0x80 (by decide), slt 0x800 (by decide),
    slt 0x10000 (by decide), slt 0x2000000 (by decide), slt 0x40000000 (by decide), decide_eq_true_eq,
    lead_byte 0xc0 5 _ 0x1f rfl, lead_byte 0xe0 4 _ 0x0f rfl, lead_byte 0xf0 3 _ 0x07 rfl,
    lead_byte 0xf8 2 _ 0x03 rfl, lead_byte 0xfc 1 _ 0x01 rfl]
  rw [if_neg (by simp; omega)]
  rfl

theorem join_toNat (xs : List (BitVec 6)) (bits : Nat) (uc : BitVec 32) (small : uc.toNat < 2 ^ bits) (room : bits + 6 * xs.length ≤ 32) :
    (join uc xs).toNat = xs.foldl (fun n x => n * 64 + x.toNat) uc.toNat := by
  induction xs generalizing uc bits with
  | nil => rfl
  | cons x xs ih =>
    simp only [List.length_cons] at room
    have fits : uc.toNat < 2 ^ 26 := lt_of_lt_of_le small (Nat.pow_le_pow_right (by omega) (by omega))
    have step := shift_toNat uc x fits
    have next : (uc <<< 6 ||| x.setWidth 32).toNat < 2 ^ (bits + 6) := by
      rw [step, Nat.pow_add]
      have := x.isLt
      omega
    have rest := ih (bits + 6) _ next (by omega)
    rw [step] at rest
    exact rest

theorem lead_two (top : BitVec 5) : lead 0xc0 top &&& 0x80 ≠ 0 ∧ lead 0xc0 top &&& 0xe0 = 0xc0 ∧
    (lead 0xc0 top).setWidth 32 &&& ~~~0xc0 = top.setWidth 32 := by
  revert top
  decide

theorem lead_three (top : BitVec 4) : lead 0xe0 top &&& 0x80 ≠ 0 ∧ lead 0xe0 top &&& 0xe0 ≠ 0xc0 ∧ lead 0xe0 top &&& 0xf0 = 0xe0 ∧
    (lead 0xe0 top).setWidth 32 &&& ~~~0xe0 = top.setWidth 32 := by
  revert top
  decide

theorem lead_four (top : BitVec 3) : lead 0xf0 top &&& 0x80 ≠ 0 ∧ lead 0xf0 top &&& 0xe0 ≠ 0xc0 ∧ lead 0xf0 top &&& 0xf0 ≠ 0xe0 ∧
    lead 0xf0 top &&& 0xf8 = 0xf0 ∧ (lead 0xf0 top).setWidth 32 &&& ~~~0xf0 = top.setWidth 32 := by
  revert top
  decide

theorem lead_five (top : BitVec 2) : lead 0xf8 top &&& 0x80 ≠ 0 ∧ lead 0xf8 top &&& 0xe0 ≠ 0xc0 ∧ lead 0xf8 top &&& 0xf0 ≠ 0xe0 ∧
    lead 0xf8 top &&& 0xf8 ≠ 0xf0 ∧ lead 0xf8 top &&& 0xfc = 0xf8 ∧ (lead 0xf8 top).setWidth 32 &&& ~~~0xf8 = top.setWidth 32 := by
  revert top
  decide

-- The mask taken off is the one of two bits more than the lead byte has.
theorem lead_six (top : BitVec 1) : lead 0xfc top &&& 0x80 ≠ 0 ∧ lead 0xfc top &&& 0xe0 ≠ 0xc0 ∧ lead 0xfc top &&& 0xf0 ≠ 0xe0 ∧
    lead 0xfc top &&& 0xf8 ≠ 0xf0 ∧ lead 0xfc top &&& 0xfc ≠ 0xf8 ∧ (lead 0xfc top).setWidth 32 &&& ~~~0xfd = 0 := by
  revert top
  decide

section

variable (addr : BitVec 64) (retstr : Bool) (xs : List (BitVec 6)) (rest : List Byte) (nbmax : Nat)

theorem decode_many (first : Byte) (mask value : BitVec 32) (len : Nat) (size : xs.length + 1 = len)
    (bits : first.setWidth 32 &&& mask = value)
    (branch : utf8decode addr retstr (first :: xs.map trail ++ rest) nbmax = utf8many addr retstr first (xs.map trail ++ rest) mask len) :
    utf8decode addr retstr (first :: xs.map trail ++ rest) nbmax = some (utf8done addr retstr (join value xs) len) := by
  rw [branch, ← size, many_trail, bits]

theorem decode_two (top : BitVec 5) (size : xs.length = 1) (room : 2 ≤ nbmax) :
    utf8decode addr retstr (lead 0xc0 top :: xs.map trail ++ rest) nbmax = some (utf8done addr retstr (join (top.setWidth 32) xs) 2) := by
  have ⟨notOne, two, bits⟩ := lead_two top
  refine decode_many addr retstr xs rest nbmax (lead 0xc0 top) (~~~0xc0) _ 2 (by rw [size]) bits ?_
  simp only [utf8decode, List.cons_append, notOne, two, room, false_and, and_self, if_true, if_false]

theorem decode_three (top : BitVec 4) (size : xs.length = 2) (room : 3 ≤ nbmax) :
    utf8decode addr retstr (lead 0xe0 top :: xs.map trail ++ rest) nbmax = some (utf8done addr retstr (join (top.setWidth 32) xs) 3) := by
  have ⟨notOne, notTwo, three, bits⟩ := lead_three top
  refine decode_many addr retstr xs rest nbmax (lead 0xe0 top) (~~~0xe0) _ 3 (by rw [size]) bits ?_
  simp only [utf8decode, List.cons_append, notOne, notTwo, three, room, false_and, and_self, if_true, if_false]

theorem decode_four (top : BitVec 3) (size : xs.length = 3) (room : 4 ≤ nbmax) :
    utf8decode addr retstr (lead 0xf0 top :: xs.map trail ++ rest) nbmax = some (utf8done addr retstr (join (top.setWidth 32) xs) 4) := by
  have ⟨notOne, notTwo, notThree, four, bits⟩ := lead_four top
  refine decode_many addr retstr xs rest nbmax (lead 0xf0 top) (~~~0xf0) _ 4 (by rw [size]) bits ?_
  simp only [utf8decode, List.cons_append, notOne, notTwo, notThree, four, room, false_and, and_self, if_true, if_false]

theorem decode_five (top : BitVec 2) (size : xs.length = 4) (room : 5 ≤ nbmax) :
    utf8decode addr retstr (lead 0xf8 top :: xs.map trail ++ rest) nbmax = some (utf8done addr retstr (join (top.setWidth 32) xs) 5) := by
  have ⟨notOne, notTwo, notThree, notFour, five, bits⟩ := lead_five top
  refine decode_many addr retstr xs rest nbmax (lead 0xf8 top) (~~~0xf8) _ 5 (by rw [size]) bits ?_
  simp only [utf8decode, List.cons_append, notOne, notTwo, notThree, notFour, five, room, false_and, and_self, if_true, if_false]

theorem decode_six (top : BitVec 1) (size : xs.length = 5) (room : 6 ≤ nbmax) :
    utf8decode addr retstr (lead 0xfc top :: xs.map trail ++ rest) nbmax = some (utf8done addr retstr (join 0 xs) 6) := by
  have ⟨notOne, notTwo, notThree, notFour, notFive, bits⟩ := lead_six top
  refine decode_many addr retstr xs rest nbmax (lead 0xfc top) (~~~0xfd) _ 6 (by rw [size]) bits ?_
  simp only [utf8decode, List.cons_append, notOne, notTwo, notThree, notFour, notFive, room, false_and, if_true, if_false]

end

def Covered (c : BitVec 32) : Prop := c.toNat < 0x3f000 ∨ 0x2000000 ≤ c.toNat ∧ c.toNat < 0x4000000

instance (c : BitVec 32) : Decidable (Covered c) := inferInstanceAs (Decidable (_ ∨ _))

-- What decoding makes of an encoding, whatever follows it.
structure Decodes (c : BitVec 32) (bytes : List Byte) (back : BitVec 32) : Prop where
  covered : back = c ↔ Covered c
  decode : ∀ addr retstr rest nbmax, bytes.length ≤ nbmax →
    utf8decode addr retstr (bytes ++ rest) nbmax = some (utf8done addr retstr back bytes.length)

theorem ascii_decodes (c : BitVec 32) (range : c.toNat < 0x80 ∨ 2 ^ 31 ≤ c.toNat) :
    Decodes c [(c &&& 0x7f).setWidth 8] (c &&& 0x7f) := by
  have value : (c &&& 0x7f).toNat = c.toNat % 128 := by
    rw [BitVec.toNat_and]
    exact Nat.and_two_pow_sub_one_eq_mod c.toNat 7
  constructor
  · unfold Covered
    rw [← BitVec.toNat_inj, value]
    omega
  · intro addr retstr rest nbmax room
    have one : (c &&& 0x7f).setWidth 8 &&& (0x80 : Byte) = 0 := by
      ext i hi
      interval_cases i <;> simp
    have wide : ((c &&& 0x7f).setWidth 8 : Byte).setWidth 32 = c &&& 0x7f := by
      apply BitVec.eq_of_toNat_eq
      simp only [BitVec.toNat_setWidth, value]
      omega
    simp only [List.length_cons, List.length_nil] at room
    simp only [utf8decode, List.cons_append, List.nil_append, one, wide, true_and, List.length_cons, List.length_nil]
    rw [if_pos room]

theorem quotients (n : Nat) : n / 2 ^ 12 = n / 2 ^ 6 / 64 ∧ n / 2 ^ 18 = n / 2 ^ 12 / 64 ∧ n / 2 ^ 24 = n / 2 ^ 18 / 64 := by
  simp only [Nat.div_div_eq_div_mul]
  omega

theorem field_lt (width shift : Nat) (uc : BitVec 32) : (field width shift uc).toNat < 2 ^ width := (field width shift uc).isLt

theorem wide_lead {width : Nat} (top : BitVec width) (small : width ≤ 5) : (top.setWidth 32).toNat = top.toNat := by
  rw [BitVec.toNat_setWidth]
  apply Nat.mod_eq_of_lt
  exact lt_of_lt_of_le top.isLt (Nat.pow_le_pow_right (by omega) (by omega))

theorem top_small (width shift : Nat) (c : BitVec 32) (small : width ≤ 5) : ((field width shift c).setWidth 32).toNat < 2 ^ width := by
  rw [wide_lead _ small]
  exact field_lt width shift c

-- Whether a decoded value is the one encoded, in numbers.
theorem join_covered (c top : BitVec 32) (bits : Nat) (xs : List (BitVec 6)) (small : top.toNat < 2 ^ bits) (room : bits + 6 * xs.length ≤ 32)
    (covered : xs.foldl (fun n x => n * 64 + x.toNat) top.toNat = c.toNat ↔ Covered c) : join top xs = c ↔ Covered c := by
  rw [← BitVec.toNat_inj, join_toNat xs bits top small room]
  exact covered

theorem two_decodes (c : BitVec 32) (low : 0x80 ≤ c.toNat) (high : c.toNat < 0x800) :
    Decodes c (lead 0xc0 (field 5 6 c) :: [field 6 0 c].map trail) (join ((field 5 6 c).setWidth 32) [field 6 0 c]) := by
  constructor
  · refine join_covered c _ 5 _ (top_small 5 6 c (by decide)) (by simp) ?_
    rw [wide_lead _ (by decide)]
    simp only [List.foldl_cons, List.foldl_nil, field_toNat, Covered]
    omega
  · intro addr retstr rest nbmax room
    exact decode_two addr retstr _ rest nbmax _ rfl room

theorem three_decodes (c : BitVec 32) (low : 0x800 ≤ c.toNat) (high : c.toNat < 0x10000) :
    Decodes c (lead 0xe0 (field 4 12 c) :: [field 6 6 c, field 6 0 c].map trail)
      (join ((field 4 12 c).setWidth 32) [field 6 6 c, field 6 0 c]) := by
  constructor
  · refine join_covered c _ 4 _ (top_small 4 12 c (by decide)) (by simp) ?_
    rw [wide_lead _ (by decide)]
    simp only [List.foldl_cons, List.foldl_nil, field_toNat, Covered]
    omega
  · intro addr retstr rest nbmax room
    exact decode_three addr retstr _ rest nbmax _ rfl room

-- The second byte is a remainder by 63, not by 64.
theorem four_decodes (c : BitVec 32) (low : 0x10000 ≤ c.toNat) (high : c.toNat < 0x2000000) :
    Decodes c (lead 0xf0 (field 3 18 c) :: [BitVec.ofNat 6 (c.toNat / 2 ^ 12 % 63), field 6 6 c, field 6 0 c].map trail)
      (join ((field 3 18 c).setWidth 32) [BitVec.ofNat 6 (c.toNat / 2 ^ 12 % 63), field 6 6 c, field 6 0 c]) := by
  constructor
  · refine join_covered c _ 3 _ (top_small 3 18 c (by decide)) (by simp) ?_
    rw [wide_lead _ (by decide)]
    simp only [List.foldl_cons, List.foldl_nil, field_toNat, BitVec.toNat_ofNat, Covered]
    omega
  · intro addr retstr rest nbmax room
    exact decode_four addr retstr _ rest nbmax _ rfl room

theorem five_decodes (c : BitVec 32) (low : 0x2000000 ≤ c.toNat) (high : c.toNat < 0x40000000) :
    Decodes c (lead 0xf8 (field 2 24 c) :: [field 6 18 c, field 6 12 c, field 6 6 c, field 6 0 c].map trail)
      (join ((field 2 24 c).setWidth 32) [field 6 18 c, field 6 12 c, field 6 6 c, field 6 0 c]) := by
  constructor
  · refine join_covered c _ 2 _ (top_small 2 24 c (by decide)) (by simp) ?_
    rw [wide_lead _ (by decide)]
    simp only [List.foldl_cons, List.foldl_nil, field_toNat, pow_zero, Nat.div_one, Covered]
    have := quotients c.toNat
    omega
  · intro addr retstr rest nbmax room
    exact decode_five addr retstr _ rest nbmax _ rfl room

-- Bit 30 is lost with the mask of the lead byte.
theorem six_decodes (c : BitVec 32) (low : 0x40000000 ≤ c.toNat) (high : c.toNat < 2 ^ 31) :
    Decodes c (lead 0xfc (field 1 30 c) :: [field 6 24 c, field 6 18 c, field 6 12 c, field 6 6 c, field 6 0 c].map trail)
      (join 0 [field 6 24 c, field 6 18 c, field 6 12 c, field 6 6 c, field 6 0 c]) := by
  constructor
  · refine join_covered c 0 1 _ (by decide) (by simp) ?_
    simp only [List.foldl_cons, List.foldl_nil, field_toNat, pow_zero, Nat.div_one, show (0 : BitVec 32).toNat = 0 from rfl, Covered]
    have := quotients c.toNat
    omega
  · intro addr retstr rest nbmax room
    exact decode_six addr retstr _ rest nbmax _ rfl room

theorem encode_decodes (c : BitVec 32) (nbmax : Nat) (accepted : utf8encode c nbmax ≠ []) : ∃ back, Decodes c (utf8encode c nbmax) back := by
  have room : 1 ≤ nbmax := by
    by_contra none
    have zero : nbmax = 0 := by omega
    subst zero
    simp [utf8encode] at accepted
  by_cases ascii : c.toNat < 0x80 ∨ 2 ^ 31 ≤ c.toNat
  · rw [encode_ascii c nbmax ascii room]
    exact ⟨_, ascii_decodes c ascii⟩
  · rw [encode_many c nbmax (by omega) (by omega)] at accepted ⊢
    split_ifs with two three four five six
    · exact ⟨_, two_decodes c (by omega) two.1⟩
    · refine ⟨_, three_decodes c ?_ three.1⟩
      omega
    · refine ⟨_, four_decodes c ?_ four.1⟩
      omega
    · refine ⟨_, five_decodes c ?_ five.1⟩
      omega
    · refine ⟨_, six_decodes c ?_ (by omega)⟩
      omega
    · simp [two, three, four, five, six] at accepted

-- c is encoded and decoded again, with rest behind it: c comes back, and str is
-- moved by the number of bytes written.
def RoundTrip (c : BitVec 32) (nbmax : Nat) (addr : BitVec 64) (retstr : Bool) (rest : List Byte) (nb : Nat) : Prop :=
  ∃ stored, utf8decode addr retstr (utf8encode c nbmax ++ rest) nb = some ⟨c, (utf8encode c nbmax).length, stored⟩

instance (c : BitVec 32) (nbmax : Nat) (addr : BitVec 64) (retstr : Bool) (rest : List Byte) (nb : Nat) :
    Decidable (RoundTrip c nbmax addr retstr rest nb) :=
  decidable_of_iff ((utf8decode addr retstr (utf8encode c nbmax ++ rest) nb).map (fun back => (back.uc, back.len)) =
      some (c, (utf8encode c nbmax).length)) (by
    unfold RoundTrip
    rw [Option.map_eq_some_iff]
    constructor
    · rintro ⟨back, same, parts⟩
      have ⟨value, size⟩ := Prod.mk.inj parts
      refine ⟨back.stored, ?_⟩
      rw [same, ← size]
      cases back with
      | mk uc len stored =>
        cases value
        rfl
    · rintro ⟨stored, same⟩
      exact ⟨_, same, rfl⟩)

-- However wrong the value that comes back, the decoder consumes what was written.
theorem decode_consumes (c : BitVec 32) (nbmax : Nat) (addr : BitVec 64) (retstr : Bool) (rest : List Byte) (nb : Nat)
    (accepted : utf8encode c nbmax ≠ []) (room : (utf8encode c nbmax).length ≤ nb) :
    ∃ back stored, utf8decode addr retstr (utf8encode c nbmax ++ rest) nb = some ⟨back, (utf8encode c nbmax).length, stored⟩ := by
  obtain ⟨back, decodes⟩ := encode_decodes c nbmax accepted
  exact ⟨back, _, decodes.decode addr retstr rest nb room⟩

theorem round_trip_iff (c : BitVec 32) (nbmax : Nat) (addr : BitVec 64) (retstr : Bool) (rest : List Byte) (nb : Nat)
    (accepted : utf8encode c nbmax ≠ []) (room : (utf8encode c nbmax).length ≤ nb) :
    RoundTrip c nbmax addr retstr rest nb ↔ Covered c := by
  obtain ⟨back, decodes⟩ := encode_decodes c nbmax accepted
  have run := decodes.decode addr retstr rest nb room
  rw [← decodes.covered, RoundTrip, run]
  constructor
  · rintro ⟨stored, same⟩
    exact congrArg Decoded.uc (Option.some.inj same)
  · rintro rfl
    exact ⟨_, rfl⟩

theorem covered_injective (c d : BitVec 32) (nbmax limit : Nat) (accepted : utf8encode c nbmax ≠ []) (covered : Covered c) (other : Covered d)
    (same : utf8encode c nbmax = utf8encode d limit) : c = d := by
  have back := (round_trip_iff c nbmax 0 false [] _ accepted (le_refl _)).2 covered
  have again := (round_trip_iff d limit 0 false [] _ (same ▸ accepted) (le_refl _)).2 other
  obtain ⟨_, first⟩ := back
  obtain ⟨_, second⟩ := again
  rw [same, second] at first
  exact (congrArg Decoded.uc (Option.some.inj first)).symm

theorem utf8_round_trip (c : BitVec 32) (nbmax : Nat) (addr : BitVec 64) (retstr : Bool) (rest : List Byte) (nb : Nat)
    (accepted : utf8encode c nbmax ≠ []) (room : (utf8encode c nbmax).length ≤ nb) :
    (RoundTrip c nbmax addr retstr rest nb ↔ Covered c) ∧
      (Covered c → ∀ d limit, Covered d → utf8encode c nbmax = utf8encode d limit → c = d) := by
  constructor
  · exact round_trip_iff c nbmax addr retstr rest nb accepted room
  · intro covered d limit other same
    exact covered_injective c d nbmax limit accepted covered other same

theorem utf8_round_trip_euro : (RoundTrip 0x20ac 4 0 true [0x41] 4 ↔ Covered 0x20ac) ∧
    (Covered 0x20ac → ∀ d limit, Covered d → utf8encode 0x20ac 4 = utf8encode d limit → 0x20ac = d) :=
  utf8_round_trip 0x20ac 4 0 true [0x41] 4 (by decide) (by decide)

theorem utf8_round_trip_fails : ¬∀ c nbmax addr retstr rest nb, utf8encode c nbmax ≠ [] → (utf8encode c nbmax).length ≤ nb →
    RoundTrip c nbmax addr retstr rest nb := by
  intro all
  have face := all 0x3f600 4 0 true [] 4 (by decide) (by decide)
  revert face
  decide

end OsZero.Codec

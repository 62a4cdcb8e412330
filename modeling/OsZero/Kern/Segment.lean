import Mathlib.Data.BitVec
import Mathlib.Tactic.IntervalCases

set_option autoImplicit false

namespace OsZero.Segment

def segadr (adr : BitVec 64) : BitVec 64 :=
  ((adr &&& 0xff000000) <<< 32) ||| ((adr &&& 0x00ff0000) <<< 16) ||| ((adr &&& 0x0000ffff) <<< 16)

def seglim (lim : BitVec 64) : BitVec 64 := ((lim &&& 0x000f0000) <<< 32) ||| (lim &&& 0x0000ffff)

def mksegdesc (adr npg flg : BitVec 64) : BitVec 64 := segadr adr ||| seglim npg ||| flg

def SEGWRITE : BitVec 64 := 0x0000020000000000
def SEGEXEC : BitVec 64 := 0x0000080000000000
def SEGNORM : BitVec 64 := 0x0000100000000000
def SEGUSER : BitVec 64 := 0x0000600000000000
def SEGPRES : BitVec 64 := 0x0000800000000000
def SEG32BIT : BitVec 64 := 0x0040000000000000
def SEG4KGRAN : BitVec 64 := 0x0080000000000000
def SEGDEFBITS : BitVec 64 := SEG32BIT ||| SEG4KGRAN ||| SEGPRES
def SEGCODE : BitVec 64 := SEGNORM ||| SEGDEFBITS ||| SEGEXEC
def SEGDATA : BitVec 64 := SEGNORM ||| SEGDEFBITS ||| SEGWRITE
def SEGCPU : BitVec 64 := SEGNORM ||| SEGWRITE ||| SEGPRES

def segsetdesc (adr : BitVec 32) (lim : BitVec 32) (flg : BitVec 64) : BitVec 64 := mksegdesc (adr.setWidth 64) (lim.setWidth 64) flg

-- How the processor reads a descriptor.
structure Descriptor where
  base : BitVec 32
  limit : BitVec 20
  kind : BitVec 4
  norm : Bool
  dpl : BitVec 2
  present : Bool
  gran : Bool
deriving DecidableEq, Repr

def decode (desc : BitVec 64) : Descriptor where
  base := desc.extractLsb' 56 8 ++ desc.extractLsb' 16 24
  limit := desc.extractLsb' 48 4 ++ desc.extractLsb' 0 16
  kind := desc.extractLsb' 40 4
  norm := desc.getLsbD 44
  dpl := desc.extractLsb' 45 2
  present := desc.getLsbD 47
  gran := desc.getLsbD 55

-- The places of the base and of the limit.
def fields : BitVec 64 := 0xff0f00ffffffffff

theorem fields_bit : ∀ i < 64, fields.getLsbD i = decide (i < 40 ∨ 48 ≤ i ∧ i < 52 ∨ 56 ≤ i) := by decide

theorem flag_outside (flg : BitVec 64) (flags : flg &&& fields = 0) (i : Nat) (small : i < 64) (inside : i < 40 ∨ 48 ≤ i ∧ i < 52 ∨ 56 ≤ i) :
    flg.getLsbD i = false := by
  have bit := congrArg (fun word => BitVec.getLsbD word i) flags
  simpa [fields_bit i small, inside] using bit

theorem masks_bit : ∀ i < 64, (0xff000000#64).getLsbD i = decide (24 ≤ i ∧ i < 32) ∧ (0x00ff0000#64).getLsbD i = decide (16 ≤ i ∧ i < 24) ∧
    (0x000f0000#64).getLsbD i = decide (16 ≤ i ∧ i < 20) ∧ (0x0000ffff#64).getLsbD i = decide (i < 16) := by decide

section Fields

variable (adr lim : BitVec 32) (flg : BitVec 64)

-- Where each bit of a descriptor comes from.
theorem segsetdesc_bit (k : Nat) (small : k < 64) : (segsetdesc adr lim flg).getLsbD k =
    ((decide (16 ≤ k ∧ k < 40) && adr.getLsbD (k - 16)) || (decide (56 ≤ k) && adr.getLsbD (k - 32)) ||
      (decide (k < 16) && lim.getLsbD k) || (decide (48 ≤ k ∧ k < 52) && lim.getLsbD (k - 32)) || flg.getLsbD k) := by
  have less : k - 16 < 64 := by omega
  have lesser : k - 32 < 64 := by omega
  simp only [segsetdesc, mksegdesc, segadr, seglim, BitVec.getLsbD_or, BitVec.getLsbD_shiftLeft, BitVec.getLsbD_and, BitVec.getLsbD_setWidth,
    BitVec.ofNat_eq_ofNat, masks_bit k small, masks_bit (k - 16) less, masks_bit (k - 32) lesser, small, less, lesser, decide_true, Bool.true_and]
  grind

theorem decode_base (flags : flg &&& fields = 0) : (decode (segsetdesc adr lim flg)).base = adr := by
  have bit := segsetdesc_bit adr lim flg
  have none := flag_outside flg flags
  apply BitVec.eq_of_getLsbD_eq
  intro i small
  simp only [decode, BitVec.getLsbD_append, BitVec.getLsbD_extractLsb']
  by_cases low : i < 24
  · have flag := none (16 + i) (by omega) (by omega)
    have from16 := bit (16 + i) (by omega)
    grind
  · have flag := none (56 + (i - 24)) (by omega) (by omega)
    have from56 := bit (56 + (i - 24)) (by omega)
    have place : 56 + (i - 24) - 32 = i := by omega
    grind

theorem decode_limit (flags : flg &&& fields = 0) : (decode (segsetdesc adr lim flg)).limit = lim.setWidth 20 := by
  have bit := segsetdesc_bit adr lim flg
  have none := flag_outside flg flags
  apply BitVec.eq_of_getLsbD_eq
  intro i small
  simp only [decode, BitVec.getLsbD_append, BitVec.getLsbD_extractLsb', BitVec.getLsbD_setWidth]
  by_cases low : i < 16
  · have flag := none i (by omega) (by omega)
    have from0 := bit i (by omega)
    simp only [Nat.zero_add]
    grind
  · have flag := none (48 + (i - 16)) (by omega) (by omega)
    have from48 := bit (48 + (i - 16)) (by omega)
    have place : 48 + (i - 16) - 32 = i := by omega
    grind

-- Between the limit's two parts a descriptor has the bits of the flags.
theorem segsetdesc_flag (k : Nat) (inside : 40 ≤ k ∧ k < 48 ∨ 52 ≤ k ∧ k < 56) : (segsetdesc adr lim flg).getLsbD k = flg.getLsbD k := by
  rw [segsetdesc_bit adr lim flg k (by omega), decide_eq_false (by omega : ¬(16 ≤ k ∧ k < 40)), decide_eq_false (by omega : ¬56 ≤ k),
    decide_eq_false (by omega : ¬k < 16), decide_eq_false (by omega : ¬(48 ≤ k ∧ k < 52))]
  rfl

theorem segsetdesc_flags (start length : Nat) (inside : 40 ≤ start ∧ start + length ≤ 48) :
    (segsetdesc adr lim flg).extractLsb' start length = flg.extractLsb' start length := by
  apply BitVec.eq_of_getLsbD_eq
  intro i small
  rw [BitVec.getLsbD_extractLsb', BitVec.getLsbD_extractLsb', segsetdesc_flag adr lim flg _ (by omega)]

-- The processor reads back what was put in: all of the base, the low 20 bits of the
-- limit, and everything else from the flags.
theorem decode_segsetdesc (flags : flg &&& fields = 0) :
    decode (segsetdesc adr lim flg) = { decode flg with base := adr, limit := lim.setWidth 20 } := by
  have base := decode_base adr lim flg flags
  have limit := decode_limit adr lim flg flags
  simp only [decode, Descriptor.mk.injEq] at base limit ⊢
  exact ⟨base, limit, segsetdesc_flags adr lim flg 40 4 (by decide), segsetdesc_flag adr lim flg 44 (by decide),
    segsetdesc_flags adr lim flg 45 2 (by decide), segsetdesc_flag adr lim flg 47 (by decide), segsetdesc_flag adr lim flg 55 (by decide)⟩

end Fields

-- What the processor does with an access through a segment at a privilege level: no
-- result is a fault.
inductive Access where
  | fetch
  | read
  | write
deriving DecidableEq, Repr

def Descriptor.code (seg : Descriptor) : Bool := seg.kind.getLsbD 3

def Descriptor.allows (seg : Descriptor) : Access → Bool
  | .fetch => seg.code
  | .read => !seg.code || seg.kind.getLsbD 1
  | .write => !seg.code && seg.kind.getLsbD 1

-- A code segment runs at its own level only.
def Descriptor.privileged (seg : Descriptor) (cpl : BitVec 2) : Access → Bool
  | .fetch => cpl == seg.dpl
  | _ => cpl.ule seg.dpl

def Descriptor.last (seg : Descriptor) : Nat := if seg.gran then seg.limit.toNat * 4096 + 4095 else seg.limit.toNat

def Descriptor.reaches (seg : Descriptor) (offset : BitVec 32) : Bool :=
  if !seg.code && seg.kind.getLsbD 2 then decide (seg.last < offset.toNat) else decide (offset.toNat ≤ seg.last)

def Descriptor.linear (seg : Descriptor) (cpl : BitVec 2) (access : Access) (offset : BitVec 32) : Option (BitVec 32) :=
  if seg.present && seg.norm && seg.privileged cpl access && seg.allows access && seg.reaches offset then some (seg.base + offset) else none

def TEXTSEG : Nat := 1
def DATASEG : Nat := 2
def UTEXTSEG : Nat := 4
def UDATASEG : Nat := 5
def CPUSEG : Nat := 6
def REALCODESEG : Nat := 7
def REALDATASEG : Nat := 8

def NPAGEMAX : BitVec 32 := 1 <<< 20

def setdesc (gdt : Nat → BitVec 64) (index : Nat) (desc : BitVec 64) : Nat → BitVec 64 := fun other => if other = index then desc else gdt other

-- size is sizeof(struct cpu).
def seginit (gdt : Nat → BitVec 64) (cpu size : BitVec 32) : Nat → BitVec 64 :=
  let gdt := setdesc gdt TEXTSEG (segsetdesc 0 (NPAGEMAX - 1) SEGCODE)
  let gdt := setdesc gdt DATASEG (segsetdesc 0 (NPAGEMAX - 1) SEGDATA)
  let gdt := setdesc gdt UTEXTSEG (segsetdesc 0 (NPAGEMAX - 1) (SEGCODE ||| SEGUSER))
  let gdt := setdesc gdt UDATASEG (segsetdesc 0 (NPAGEMAX - 1) (SEGDATA ||| SEGUSER))
  let gdt := setdesc gdt CPUSEG (segsetdesc cpu size SEGCPU)
  let gdt := setdesc gdt REALCODESEG 0x00009a000000ffff
  setdesc gdt REALDATASEG 0x000092000000ffff

theorem flat_code (dpl : BitVec 2) (cpl : BitVec 2) (access : Access) (offset : BitVec 32) :
    (⟨0, 0xfffff, 8, true, dpl, true, true⟩ : Descriptor).linear cpl access offset = if access = .fetch ∧ cpl = dpl then some offset else none := by
  have whole := offset.isLt
  have below : offset.toNat ≤ 4294967295 := by omega
  cases access with
  | fetch => by_cases same : cpl = dpl <;>
      simp [Descriptor.linear, Descriptor.privileged, Descriptor.allows, Descriptor.code, Descriptor.reaches, Descriptor.last, below, same]
  | read => simp [Descriptor.linear, Descriptor.privileged, Descriptor.allows, Descriptor.code]
  | write => simp [Descriptor.linear, Descriptor.privileged, Descriptor.allows, Descriptor.code]

theorem flat_data (dpl : BitVec 2) (cpl : BitVec 2) (access : Access) (offset : BitVec 32) :
    (⟨0, 0xfffff, 2, true, dpl, true, true⟩ : Descriptor).linear cpl access offset = if access ≠ .fetch ∧ cpl.ule dpl then some offset else none := by
  have whole := offset.isLt
  have below : offset.toNat ≤ 4294967295 := by omega
  cases access with
  | fetch => simp [Descriptor.linear, Descriptor.privileged, Descriptor.allows, Descriptor.code]
  | read => simp [Descriptor.linear, Descriptor.privileged, Descriptor.allows, Descriptor.code, Descriptor.reaches, Descriptor.last, below]
  | write => simp [Descriptor.linear, Descriptor.privileged, Descriptor.allows, Descriptor.code, Descriptor.reaches, Descriptor.last, below]

theorem small_data (base : BitVec 32) (size : BitVec 20) (cpl : BitVec 2) (access : Access) (offset : BitVec 32) :
    (⟨base, size, 2, true, 0, true, false⟩ : Descriptor).linear cpl access offset =
      if access ≠ .fetch ∧ cpl = 0 ∧ offset.toNat ≤ size.toNat then some (base + offset) else none := by
  have level : cpl.ule 0#2 = decide (cpl = 0#2) := by
    revert cpl
    decide
  cases access with
  | fetch => simp [Descriptor.linear, Descriptor.privileged, Descriptor.allows, Descriptor.code]
  | read =>
    simp only [Descriptor.linear, Descriptor.privileged, Descriptor.allows, Descriptor.code, Descriptor.reaches, Descriptor.last, BitVec.ofNat_eq_ofNat, level]
    simp
  | write =>
    simp only [Descriptor.linear, Descriptor.privileged, Descriptor.allows, Descriptor.code, Descriptor.reaches, Descriptor.last, BitVec.ofNat_eq_ofNat, level]
    simp

theorem real_code (cpl : BitVec 2) (access : Access) (offset : BitVec 32) :
    (⟨0, 0xffff, 10, true, 0, true, false⟩ : Descriptor).linear cpl access offset =
      if access ≠ .write ∧ cpl = 0 ∧ offset.toNat ≤ 65535 then some offset else none := by
  have level : cpl.ule 0#2 = decide (cpl = 0#2) := by
    revert cpl
    decide
  cases access with
  | fetch =>
    simp only [Descriptor.linear, Descriptor.privileged, Descriptor.allows, Descriptor.code, Descriptor.reaches, Descriptor.last]
    simp
  | read =>
    simp only [Descriptor.linear, Descriptor.privileged, Descriptor.allows, Descriptor.code, Descriptor.reaches, Descriptor.last, BitVec.ofNat_eq_ofNat, level]
    simp
  | write => simp [Descriptor.linear, Descriptor.privileged, Descriptor.allows, Descriptor.code]

section Table

variable (gdt : Nat → BitVec 64) (cpu size : BitVec 32)

-- Where an access through an entry of the table that seginit leaves goes.
def reached (index : Nat) (cpl : BitVec 2) (access : Access) (offset : BitVec 32) : Option (BitVec 32) :=
  (decode (seginit gdt cpu size index)).linear cpl access offset

theorem decode_text : decode (seginit gdt cpu size TEXTSEG) = ⟨0, 0xfffff, 8, true, 0, true, true⟩ :=
  (decode_segsetdesc 0 (NPAGEMAX - 1) SEGCODE (by decide)).trans (by decide)

theorem decode_data : decode (seginit gdt cpu size DATASEG) = ⟨0, 0xfffff, 2, true, 0, true, true⟩ :=
  (decode_segsetdesc 0 (NPAGEMAX - 1) SEGDATA (by decide)).trans (by decide)

theorem decode_utext : decode (seginit gdt cpu size UTEXTSEG) = ⟨0, 0xfffff, 8, true, 3, true, true⟩ :=
  (decode_segsetdesc 0 (NPAGEMAX - 1) (SEGCODE ||| SEGUSER) (by decide)).trans (by decide)

theorem decode_udata : decode (seginit gdt cpu size UDATASEG) = ⟨0, 0xfffff, 2, true, 3, true, true⟩ :=
  (decode_segsetdesc 0 (NPAGEMAX - 1) (SEGDATA ||| SEGUSER) (by decide)).trans (by decide)

theorem decode_cpu : decode (seginit gdt cpu size CPUSEG) = ⟨cpu, size.setWidth 20, 2, true, 0, true, false⟩ := by
  have flags : decode SEGCPU = ⟨0, 0, 2, true, 0, true, false⟩ := by decide
  have entry : seginit gdt cpu size CPUSEG = segsetdesc cpu size SEGCPU := rfl
  rw [entry, decode_segsetdesc cpu size SEGCPU (by decide), flags]

theorem decode_realcode : decode (seginit gdt cpu size REALCODESEG) = ⟨0, 0xffff, 10, true, 0, true, false⟩ := by
  have entry : seginit gdt cpu size REALCODESEG = 0x00009a000000ffff := rfl
  rw [entry]
  decide

theorem decode_realdata : decode (seginit gdt cpu size REALDATASEG) = ⟨0, 0xffff, 2, true, 0, true, false⟩ := by
  have entry : seginit gdt cpu size REALDATASEG = 0x000092000000ffff := rfl
  rw [entry]
  decide

-- Code and data segments are the whole address space, the kernel's closed to the user;
-- the segment of a processor's own record takes one byte more than the record has. Any
-- descriptor is read back as it was meant, if its flags leave the other fields alone.
theorem seginit_protects (index : Nat) (cpl : BitVec 2) (access : Access) (offset : BitVec 32) (fits : size.toNat < 1048576) :
    (index = TEXTSEG → reached gdt cpu size index cpl access offset = if access = .fetch ∧ cpl = 0 then some offset else none) ∧
    (index = DATASEG → reached gdt cpu size index cpl access offset = if access ≠ .fetch ∧ cpl = 0 then some offset else none) ∧
    (index = UTEXTSEG → reached gdt cpu size index cpl access offset = if access = .fetch ∧ cpl = 3 then some offset else none) ∧
    (index = UDATASEG → reached gdt cpu size index cpl access offset = if access ≠ .fetch then some offset else none) ∧
    (index = CPUSEG → reached gdt cpu size index cpl access offset =
      if access ≠ .fetch ∧ cpl = 0 ∧ offset.toNat ≤ size.toNat then some (cpu + offset) else none) ∧
    (index = REALCODESEG → reached gdt cpu size index cpl access offset =
      if access ≠ .write ∧ cpl = 0 ∧ offset.toNat ≤ 65535 then some offset else none) ∧
    (index = REALDATASEG → reached gdt cpu size index cpl access offset =
      if access ≠ .fetch ∧ cpl = 0 ∧ offset.toNat ≤ 65535 then some offset else none) ∧
    (index ∉ [TEXTSEG, DATASEG, UTEXTSEG, UDATASEG, CPUSEG, REALCODESEG, REALDATASEG] → seginit gdt cpu size index = gdt index) ∧
    ∀ adr lim flg, flg &&& fields = 0 → decode (segsetdesc adr lim flg) = { decode flg with base := adr, limit := lim.setWidth 20 } := by
  refine ⟨?_, ?_, ?_, ?_, ?_, ?_, ?_, ?_, fun adr lim flg => decode_segsetdesc adr lim flg⟩
  · rintro rfl
    rw [reached, decode_text, flat_code]
  · rintro rfl
    have level : cpl.ule 0 = true ↔ cpl = 0 := by
      revert cpl
      decide
    simp only [reached, decode_data, flat_data, level]
  · rintro rfl
    rw [reached, decode_utext, flat_code]
  · rintro rfl
    have level : cpl.ule 3 = true := by
      revert cpl
      decide
    simp only [reached, decode_udata, flat_data, level, and_true]
  · rintro rfl
    have kept : (size.setWidth 20).toNat = size.toNat := by
      rw [BitVec.toNat_setWidth]
      exact Nat.mod_eq_of_lt fits
    rw [reached, decode_cpu, small_data, kept]
  · rintro rfl
    rw [reached, decode_realcode, real_code]
  · rintro rfl
    have same := small_data 0 0xffff cpl access offset
    rw [reached, decode_realdata, same]
    simp
  · intro other
    simp only [List.mem_cons, List.not_mem_nil, or_false, not_or] at other
    obtain ⟨text, data, utext, udata, own, code, real⟩ := other
    simp [seginit, setdesc, text, data, utext, udata, own, code, real]

theorem seginit_protects_user : reached (fun _ => 0) 0x1000 0x800 CPUSEG 0 .write 0x800 = some 0x1800 ∧ reached (fun _ => 0) 0x1000 0x800 CPUSEG 3 .write 0 = none := by
  have last := (seginit_protects (fun _ => 0) 0x1000 0x800 CPUSEG 0 .write 0x800 (by decide)).2.2.2.2.1 rfl
  have user := (seginit_protects (fun _ => 0) 0x1000 0x800 CPUSEG 3 .write 0 (by decide)).2.2.2.2.1 rfl
  exact ⟨last.trans (by decide), user.trans (by decide)⟩

end Table

end OsZero.Segment

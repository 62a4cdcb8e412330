import OsZero.Libc.Compare
import Mathlib.Data.List.Induction
import Mathlib.Tactic.SplitIfs

set_option autoImplicit false

namespace OsZero.Mptable

open Cstring

def MPSIG : Nat := 0x5f504d5f
def TOPMEMDEF : BitVec 32 := 0xa0000
def NCPU : Nat := 8
def MPCPU : UInt8 := 0
def MPBUS : UInt8 := 1
def MPIOAPIC : UInt8 := 2
def MPIOINTR : UInt8 := 3
def MPLINTR : UInt8 := 4
def MPCPUBOOT : UInt8 := 2

section Memory

variable (mem : Nat → UInt8)

def word16 (adr : Nat) : Nat := (mem adr).toNat + 256 * (mem (adr + 1)).toNat

def word32 (adr : Nat) : Nat := word16 mem adr + 65536 * word16 mem (adr + 2)

def mpchksum (ptr len : Nat) : UInt8 := (List.range len).foldl (fun sum i => sum + mem (ptr + i)) 0

-- words is how many ptr++ are left in front of lim.
def mpprobeLoop : Nat → Nat → Option Nat
  | 0, _ => none
  | words + 1, ptr => if word32 mem ptr = MPSIG ∧ mpchksum mem ptr 16 = 0 then some ptr else mpprobeLoop words (ptr + 4)

def mpprobe (adr : BitVec 32) (len : Nat) : Option Nat := mpprobeLoop mem (len / 4) adr.toNat

def ebda : BitVec 32 := BitVec.ofNat 32 (word16 mem 0x40e) <<< 4

def topmem : BitVec 32 := BitVec.ofNat 32 (word16 mem 0x413) <<< 10

def mpsearch : Option Nat :=
  (if ebda mem ≠ 0 then mpprobe mem (ebda mem) 1024 else none).or <|
    (mpprobe mem (topmem mem - 1024 - 1024) 1024).or <|
      (if topmem mem - 1024 ≠ TOPMEMDEF - 1024 then mpprobe mem (TOPMEMDEF - 1024) 1024 else none).or <|
        mpprobe mem 0xf0000 0x10000

end Memory

-- The globals that mpinit sets; ports is what it has put out.
structure Mp where
  mpmultiproc : Nat
  mpncpu : Nat
  mpbootcpu : Option Nat
  mpapic : Nat
  mpioapicid : UInt8
  mpioapic : Nat
  unit : Nat → Nat
  taskinittls : List Nat
  ports : List (UInt8 × Nat)

def setcpu (mp : Mp) (unit : Nat) (boot : Bool) : Mp :=
  { mp with
    mpbootcpu := if boot then some unit else mp.mpbootcpu
    taskinittls := if boot then mp.taskinittls ++ [unit] else mp.taskinittls
    unit := Function.update mp.unit unit unit
    mpncpu := mp.mpncpu + 1 }

section Init

variable (mem : Nat → UInt8)

-- What a table says, entry by entry.
inductive Entry where
  | cpu (unit : Nat) (boot : Bool)
  | ioapic (apicnum : UInt8) (adr : Nat)
  | other
deriving DecidableEq

def Entry.size : Entry → Nat
  | .cpu _ _ => 20
  | _ => 8

def entry (place : Nat) : Option Entry :=
  if mem place = MPCPU then some (.cpu (mem (place + 1)).toNat (decide (mem (place + 3) &&& MPCPUBOOT ≠ 0)))
  else if mem place = MPIOAPIC then some (.ioapic (mem (place + 1)) (word32 mem (place + 4)))
  else if mem place = MPBUS ∨ mem place = MPIOINTR ∨ mem place = MPLINTR then some .other
  else none

inductive Listed (lim : Nat) : Nat → List Entry → Prop
  | nil (place : Nat) (past : lim ≤ place) : Listed lim place []
  | cons (place : Nat) (first : Entry) (rest : List Entry) (inside : place < lim) (here : entry mem place = some first)
      (later : Listed lim (place + first.size) rest) : Listed lim place (first :: rest)

def Entry.Known : Entry → Prop
  | .cpu unit _ => unit < NCPU
  | _ => True

def Entry.unit : Entry → Option Nat
  | .cpu unit _ => some unit
  | _ => none

def Entry.booted : Entry → Option Nat
  | .cpu unit true => some unit
  | _ => none

def Entry.apic : Entry → Option (UInt8 × Nat)
  | .ioapic apicnum adr => some (apicnum, adr)
  | _ => none

structure Reads (before done : Mp) (entries : List Entry) : Prop where
  mpncpu : done.mpncpu = before.mpncpu + (entries.filterMap Entry.unit).length
  mpbootcpu : done.mpbootcpu = (entries.filterMap Entry.booted).getLast?.or before.mpbootcpu
  taskinittls : done.taskinittls = before.taskinittls ++ entries.filterMap Entry.booted
  ioapic : (done.mpioapicid, done.mpioapic) = (entries.filterMap Entry.apic).getLast?.getD (before.mpioapicid, before.mpioapic)
  unit : ∀ i, done.unit i = if i ∈ entries.filterMap Entry.unit then i else before.unit i
  mpapic : done.mpapic = before.mpapic
  mpmultiproc : done.mpmultiproc = before.mpmultiproc
  ports : done.ports = before.ports

def take (mp : Mp) : Entry → Mp
  | .cpu unit boot => setcpu mp unit boot
  | .ioapic apicnum adr => { mp with mpioapicid := apicnum, mpioapic := adr }
  | .other => mp

section Loop

variable (lim : Nat)

end Loop

-- The entries of the table behind a configuration header.
def Table (conf : Nat) (entries : List Entry) : Prop := Listed mem (conf + word16 mem (conf + 4)) (conf + 44) entries

end Init

section Search

variable (mem : Nat → UInt8)

-- A floating pointer structure: its name, and sixteen bytes that sum up to nothing.
def Floating (place : Nat) : Prop := slice mem place (place + 4) = text "_MP_" ∧ mpchksum mem place 16 = 0

def Within (adr : BitVec 32) (len place : Nat) : Prop := ∃ k, k < len / 4 ∧ place = adr.toNat + 4 * k

-- Where mpsearch looks.
def Searched (place : Nat) : Prop :=
  ebda mem ≠ 0 ∧ Within (ebda mem) 1024 place ∨ Within (topmem mem - 1024 - 1024) 1024 place ∨
    topmem mem - 1024 ≠ TOPMEMDEF - 1024 ∧ Within (TOPMEMDEF - 1024) 1024 place ∨ Within 0xf0000 0x10000 place

theorem word32_sig (adr : Nat) : word32 mem adr = MPSIG ↔ slice mem adr (adr + 4) = text "_MP_" := by
  have bytes : slice mem adr (adr + 4) = [mem adr, mem (adr + 1), mem (adr + 2), mem (adr + 3)] := by
    rw [slice, Nat.add_sub_cancel_left]
    rfl
  have name : text "_MP_" = [0x5f, 0x4d, 0x50, 0x5f] := by decide
  have small := fun i => (mem i).toNat_lt
  have first := small adr
  have second := small (adr + 1)
  have third := small (adr + 2)
  have fourth := small (adr + 3)
  rw [bytes, name]
  simp only [List.cons.injEq, and_true, ← UInt8.toNat_inj, word32, word16, MPSIG, Nat.add_assoc, Nat.reduceAdd]
  have one : UInt8.toNat 0x5f = 95 := rfl
  have two : UInt8.toNat 0x4d = 77 := rfl
  have three : UInt8.toNat 0x50 = 80 := rfl
  omega

-- A search of some places finds a structure there, or there is none.
def Finds (found : Option Nat) (places : Nat → Prop) : Prop :=
  match found with
  | some place => Floating mem place ∧ places place
  | none => ∀ place, places place → ¬Floating mem place

theorem finds_or (first second : Option Nat) (near far : Nat → Prop) (here : Finds mem first near) (there : Finds mem second far) :
    Finds mem (first.or second) (fun place => near place ∨ far place) := by
  cases first with
  | some place => exact ⟨here.1, .inl here.2⟩
  | none =>
    cases second with
    | some place => exact ⟨there.1, .inr there.2⟩
    | none => exact fun place either => either.elim (here place) (there place)

theorem finds_if (guard : Prop) [Decidable guard] (found : Option Nat) (places : Nat → Prop) (finds : Finds mem found places) :
    Finds mem (if guard then found else none) (fun place => guard ∧ places place) := by
  by_cases holds : guard
  · simpa only [holds, if_true, true_and] using finds
  · simp only [holds, if_false, false_and]
    exact fun place off => off.elim

theorem finds_loop (words ptr : Nat) : Finds mem (mpprobeLoop mem words ptr) fun place => ∃ k, k < words ∧ place = ptr + 4 * k := by
  induction words generalizing ptr with
  | zero =>
    rintro place ⟨k, less, -⟩
    exact absurd less (Nat.not_lt_zero k)
  | succ words ih =>
    have sig := word32_sig mem ptr
    have next := ih (ptr + 4)
    rw [mpprobeLoop]
    by_cases found : word32 mem ptr = MPSIG ∧ mpchksum mem ptr 16 = 0
    · rw [if_pos found]
      exact ⟨⟨sig.mp found.1, found.2⟩, 0, Nat.succ_pos words, rfl⟩
    · rw [if_neg found]
      cases left : mpprobeLoop mem words (ptr + 4) with
      | some place =>
        rw [left] at next
        obtain ⟨floating, k, less, rfl⟩ := next
        exact ⟨floating, k + 1, Nat.succ_lt_succ less, by omega⟩
      | none =>
        rw [left] at next
        rintro place ⟨k, less, rfl⟩ floating
        cases k with
        | zero => exact found ⟨sig.mpr floating.1, floating.2⟩
        | succ k => exact next _ ⟨k, Nat.lt_of_succ_lt_succ less, by omega⟩ floating

theorem finds_probe (adr : BitVec 32) (len : Nat) : Finds mem (mpprobe mem adr len) (Within adr len) := finds_loop mem (len / 4) adr.toNat

theorem topmem_toNat (base : 2 ≤ word16 mem 0x413 ∧ word16 mem 0x413 ≤ 640) : (topmem mem).toNat = word16 mem 0x413 * 1024 := by
  rw [topmem, BitVec.toNat_shiftLeft, BitVec.toNat_ofNat, Nat.shiftLeft_eq]
  omega

-- The last KB of base memory is passed over, for the KB in front of it.
theorem mpsearch_finds (base : 2 ≤ word16 mem 0x413 ∧ word16 mem 0x413 ≤ 640) :
    Finds mem (mpsearch mem) (Searched mem) ∧
      ∀ place, Within (topmem mem - 1024) 1024 place → (Searched mem place ↔ ebda mem ≠ 0 ∧ Within (ebda mem) 1024 place) := by
  constructor
  · exact finds_or mem _ _ _ _ (finds_if mem _ _ _ (finds_probe mem _ _)) <| finds_or mem _ _ _ _ (finds_probe mem _ _) <|
      finds_or mem _ _ _ _ (finds_if mem _ _ _ (finds_probe mem _ _)) (finds_probe mem _ _)
  · intro place last
    have top := topmem_toNat mem base
    have lower : (topmem mem - 1024).toNat = word16 mem 0x413 * 1024 - 1024 := by
      rw [BitVec.toNat_sub_of_le (by rw [BitVec.le_def, top]; simp; omega), top]
      rfl
    have lowest : (topmem mem - 1024 - 1024).toNat = word16 mem 0x413 * 1024 - 2048 := by
      rw [BitVec.toNat_sub_of_le (by rw [BitVec.le_def, lower]; simp; omega), lower]
      simp
      omega
    obtain ⟨k, less, rfl⟩ := last
    refine or_iff_left ?_
    rintro (⟨other, under, same⟩ | ⟨differs, other, under, same⟩ | ⟨other, under, same⟩)
    · omega
    · have place : (TOPMEMDEF - 1024).toNat = 654336 := rfl
      refine differs (BitVec.eq_of_toNat_eq ?_)
      omega
    · have place : (0xf0000 : BitVec 32).toNat = 983040 := rfl
      omega

-- 640 KB of base memory, and a structure in the last one.
def lastKb (adr : Nat) : UInt8 :=
  if adr = 0x413 then 0x80 else if adr = 0x414 then 0x02
  else if adr = 0x9fc0a then 165 else if 0x9fc00 ≤ adr ∧ adr < 0x9fc04 then (text "_MP_").getD (adr - 0x9fc00) 0 else 0

theorem mpsearch_finds_last : Floating lastKb 0x9fc00 ∧ ¬Searched lastKb 0x9fc00 := by
  have passed := (mpsearch_finds lastKb ⟨by decide, by decide⟩).2 0x9fc00 ⟨0, by decide, by decide⟩
  have none : ebda lastKb = 0 := by decide
  exact ⟨⟨by decide, by decide⟩, fun searched => (passed.mp searched).1 none⟩

end Search

end OsZero.Mptable

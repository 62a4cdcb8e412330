import Mathlib.Logic.Function.Basic
import Mathlib.Tactic.SplitIfs

set_option autoImplicit false

namespace OsZero.Mbuf

universe u
variable {ρ : Type u} [DecidableEq ρ]

-- An object of the kernel and an offset in it.
structure Ptr (ρ : Type u) where
  region : ρ
  ofs : Nat
  deriving DecidableEq

structure Bytes (ρ : Type u) where
  byte : ρ → Nat → UInt8
  size : ρ → Nat

def Ptr.add (ptr : Ptr ρ) (count : Nat) : Ptr ρ := ⟨ptr.region, ptr.ofs + count⟩

def longsizelog2 : Nat := 3
def longsize : Nat := 8

def Fits (mem : Bytes ρ) (ptr : Ptr ρ) (len : Nat) : Prop := ptr.ofs + len ≤ mem.size ptr.region

instance (mem : Bytes ρ) (ptr : Ptr ρ) (len : Nat) : Decidable (Fits mem ptr len) := inferInstanceAs (Decidable (_ ≤ _))

-- All of the source is read before anything is written.
def blit (mem : Bytes ρ) (dest src : Ptr ρ) (len : Nat) : Bytes ρ :=
  { mem with byte := fun region ofs =>
      if region = dest.region ∧ dest.ofs ≤ ofs ∧ ofs < dest.ofs + len then mem.byte src.region (src.ofs + (ofs - dest.ofs))
      else mem.byte region ofs }

def copyLong (mem : Bytes ρ) (dptr sptr : Ptr ρ) : Option (Bytes ρ) :=
  if Fits mem dptr longsize ∧ Fits mem sptr longsize then some (blit mem dptr sptr longsize) else none

def copyLongs : Nat → Bytes ρ → Ptr ρ → Ptr ρ → Option (Bytes ρ)
  | 0, mem, _, _ => some mem
  | count + 1, mem, dptr, sptr => (copyLong mem dptr sptr).bind (fun mem => copyLongs count mem (dptr.add longsize) (sptr.add longsize))

-- dptr and sptr stay at the beginning of the block that was copied last, and are
-- NULL before the first.
def copyBlocks : Nat → Bytes ρ → Option (Ptr ρ × Ptr ρ) → Ptr ρ → Ptr ρ → Option (Bytes ρ × Option (Ptr ρ × Ptr ρ))
  | 0, mem, ptrs, _, _ => some (mem, ptrs)
  | len + 1, mem, _, dnext, snext => (copyLongs 8 mem dnext snext).bind (fun mem =>
      copyBlocks len mem (some (dnext, snext)) (dnext.add (8 * longsize)) (snext.add (8 * longsize)))

-- The tail loop counts bytes and copies longs.
def kmemcpy (mem : Bytes ρ) (dest src : Ptr ρ) (len : Nat) : Option (Bytes ρ) :=
  let nblk := len >>> (longsizelog2 + 3)
  let nleft := len - nblk <<< (longsizelog2 + 3)
  (copyBlocks nblk mem none dest src).bind (fun next =>
    if nleft = 0 then some next.1 else next.2.elim none (fun ptrs => copyLongs nleft next.1 ptrs.1 ptrs.2))

def kbcopy (mem : Bytes ρ) (src dest : Ptr ρ) (len : Nat) : Option (Bytes ρ) := kmemcpy mem dest src len

@[simp] theorem blit_size (mem : Bytes ρ) (dest src : Ptr ρ) (len : Nat) : (blit mem dest src len).size = mem.size := rfl

theorem blit_other (mem : Bytes ρ) (dest src : Ptr ρ) (len : Nat) (region : ρ) (different : region ≠ dest.region) (ofs : Nat) :
    (blit mem dest src len).byte region ofs = mem.byte region ofs := by
  simp [blit, different]

theorem blit_zero (mem : Bytes ρ) (dest src : Ptr ρ) : blit mem dest src 0 = mem := by
  unfold blit
  congr
  funext region ofs
  rw [if_neg]
  omega

-- Two copies that follow or overlap one another are one, as long as the source
-- is another object.
theorem blit_blit (mem : Bytes ρ) (dest src : Ptr ρ) (first start more : Nat) (apart : src.region ≠ dest.region) (meets : start ≤ first) :
    blit (blit mem dest src first) (dest.add start) (src.add start) more = blit mem dest src (max first (start + more)) := by
  unfold blit Ptr.add
  dsimp only
  congr
  funext region ofs
  simp only [apart, false_and, if_false]
  by_cases late : region = dest.region ∧ dest.ofs + start ≤ ofs ∧ ofs < dest.ofs + start + more
  · rw [if_pos late, if_pos ⟨late.1, by omega, by omega⟩]
    congr 1
    omega
  · rw [if_neg late]
    by_cases early : region = dest.region ∧ dest.ofs ≤ ofs ∧ ofs < dest.ofs + first
    · rw [if_pos early, if_pos ⟨early.1, early.2.1, by omega⟩]
    · rw [if_neg early, if_neg]
      rintro ⟨same, low, high⟩
      rcases Nat.lt_or_ge ofs (dest.ofs + first) with inside | outside
      · exact early ⟨same, low, inside⟩
      · exact late ⟨same, by omega, by omega⟩

theorem copyLongs_eq (mem : Bytes ρ) (dptr sptr : Ptr ρ) (count : Nat) (apart : sptr.region ≠ dptr.region) (dest : Fits mem dptr 0) (src : Fits mem sptr 0) :
    copyLongs count mem dptr sptr =
      if Fits mem dptr (count * longsize) ∧ Fits mem sptr (count * longsize) then some (blit mem dptr sptr (count * longsize)) else none := by
  induction count generalizing mem dptr sptr with
  | zero => simp [copyLongs, dest, src, blit_zero]
  | succ count ih =>
    have size : (count + 1) * longsize = longsize + count * longsize := by
      rw [Nat.succ_mul]
      omega
    unfold copyLongs copyLong
    by_cases fits : Fits mem dptr longsize ∧ Fits mem sptr longsize
    · have merged := blit_blit mem dptr sptr longsize longsize (count * longsize) apart (Nat.le_refl _)
      rw [Nat.max_eq_right (Nat.le_add_right _ _)] at merged
      have destNext : Fits mem (dptr.add longsize) (count * longsize) ↔ Fits mem dptr ((count + 1) * longsize) := by
        unfold Fits Ptr.add
        rw [size, Nat.add_assoc]
      have srcNext : Fits mem (sptr.add longsize) (count * longsize) ↔ Fits mem sptr ((count + 1) * longsize) := by
        unfold Fits Ptr.add
        rw [size, Nat.add_assoc]
      have onward := ih (blit mem dptr sptr longsize) (dptr.add longsize) (sptr.add longsize) apart fits.1 fits.2
      rw [merged, ← size] at onward
      rw [if_pos fits, Option.bind_some, onward]
      exact if_congr (and_congr destNext srcNext) rfl rfl
    · have shorter : ∀ ptr : Ptr ρ, Fits mem ptr ((count + 1) * longsize) → Fits mem ptr longsize := fun ptr long => by
        unfold Fits at long ⊢
        rw [size] at long
        omega
      rw [if_neg fits, Option.bind_none, if_neg fun long => fits ⟨shorter dptr long.1, shorter sptr long.2⟩]

theorem copyBlocks_eq (mem : Bytes ρ) (ptrs : Option (Ptr ρ × Ptr ρ)) (dnext snext : Ptr ρ) (len : Nat) (apart : snext.region ≠ dnext.region)
    (dest : Fits mem dnext 0) (src : Fits mem snext 0) : copyBlocks len mem ptrs dnext snext =
      if Fits mem dnext (len * 64) ∧ Fits mem snext (len * 64) then
        some (blit mem dnext snext (len * 64), if len = 0 then ptrs else some (dnext.add ((len - 1) * 64), snext.add ((len - 1) * 64)))
      else none := by
  induction len generalizing mem ptrs dnext snext with
  | zero => simp [copyBlocks, dest, src, blit_zero]
  | succ len ih =>
    unfold copyBlocks
    rw [copyLongs_eq mem dnext snext 8 apart dest src]
    by_cases fits : Fits mem dnext (8 * longsize) ∧ Fits mem snext (8 * longsize)
    · have merged := blit_blit mem dnext snext 64 64 (len * 64) apart (Nat.le_refl _)
      rw [Nat.max_eq_right (Nat.le_add_right _ _)] at merged
      have onward := ih (blit mem dnext snext 64) (some (dnext, snext)) (dnext.add 64) (snext.add 64) apart fits.1 fits.2
      have size : 64 + len * 64 = (len + 1) * 64 := by omega
      rw [merged, size] at onward
      rw [if_pos fits, Option.bind_some]
      refine onward.trans (if_congr ?_ ?_ rfl)
      · unfold Fits Ptr.add
        dsimp only [blit_size]
        omega
      · cases len with
        | zero => rfl
        | succ len =>
          have back : 64 + len * 64 = (len + 1) * 64 := by omega
          simp [Ptr.add, Nat.add_assoc, back]
    · rw [if_neg fits, Option.bind_none, if_neg]
      unfold Fits longsize at *
      omega

-- How far kmemcpy copies: whole blocks, then as many longs from the last of them
-- as bytes are left.
def reach (len : Nat) : Nat := max (len / 64 * 64) ((len / 64 - 1) * 64 + len % 64 * longsize)

theorem kmemcpy_eq (mem : Bytes ρ) (dest src : Ptr ρ) (len : Nat) (apart : src.region ≠ dest.region) (destFits : Fits mem dest 0) (srcFits : Fits mem src 0) :
    kmemcpy mem dest src len = if len = 0 then some mem
      else if 64 ≤ len ∧ Fits mem dest (reach len) ∧ Fits mem src (reach len) then some (blit mem dest src (reach len)) else none := by
  have blocks : len >>> (longsizelog2 + 3) = len / 64 := Nat.shiftRight_eq_div_pow len 6
  have left : len - (len / 64) <<< (longsizelog2 + 3) = len % 64 := by
    rw [Nat.shiftLeft_eq]
    unfold longsizelog2
    omega
  unfold kmemcpy
  dsimp only
  rw [blocks, left, copyBlocks_eq mem none dest src (len / 64) apart destFits srcFits]
  rcases Nat.lt_or_ge len 64 with short | long
  · have none_block : len / 64 = 0 := by omega
    have fits : Fits mem dest (0 * 64) ∧ Fits mem src (0 * 64) := ⟨destFits, srcFits⟩
    have low : len % 64 = len := by omega
    have never : ¬(64 ≤ len ∧ Fits mem dest (reach len) ∧ Fits mem src (reach len)) := fun long => by omega
    rw [none_block, if_pos fits, low, if_pos rfl, Option.bind_some, if_neg never]
    by_cases empty : len = 0
    · simp [empty, blit_zero]
    · simp [empty]
  · have some_block : len / 64 ≠ 0 := by omega
    rw [if_neg (by omega : ¬len = 0)]
    by_cases fits : Fits mem dest (len / 64 * 64) ∧ Fits mem src (len / 64 * 64)
    · rw [if_pos fits, Option.bind_some, if_neg some_block]
      have enough : (len / 64 - 1) * 64 ≤ len / 64 * 64 := by omega
      by_cases whole : len % 64 = 0
      · have same : reach len = len / 64 * 64 := by
          unfold reach
          rw [whole]
          omega
        rw [if_pos whole, same, if_pos ⟨long, fits⟩]
      · rw [if_neg whole, Option.elim_some]
        have bounds : ∀ ptr : Ptr ρ, Fits mem ptr (len / 64 * 64) → Fits mem (ptr.add ((len / 64 - 1) * 64)) 0 := fun ptr inside => by
          unfold Fits Ptr.add at *
          dsimp only
          omega
        have ends : ∀ ptr : Ptr ρ, Fits mem ptr (len / 64 * 64) →
            (Fits mem (ptr.add ((len / 64 - 1) * 64)) (len % 64 * longsize) ↔ Fits mem ptr (reach len)) := fun ptr inside => by
          unfold Fits Ptr.add reach at *
          dsimp only
          omega
        have tail := copyLongs_eq (blit mem dest src (len / 64 * 64)) (dest.add ((len / 64 - 1) * 64)) (src.add ((len / 64 - 1) * 64))
          (len % 64) apart (bounds dest fits.1) (bounds src fits.2)
        rw [blit_blit mem dest src _ _ _ apart enough] at tail
        refine tail.trans (if_congr ?_ rfl rfl)
        exact (and_congr (ends dest fits.1) (ends src fits.2)).trans (by simp [long])
    · rw [if_neg fits, Option.bind_none, if_neg]
      rintro ⟨-, destLong, srcLong⟩
      unfold Fits reach at *
      omega

end OsZero.Mbuf

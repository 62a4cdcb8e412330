import OsZero.KernMem.Page
import OsZero.Lib.Rounding

set_option autoImplicit false

namespace OsZero.Zone

open Links Deq Page

def pagesize : BitVec 32 := 4096
def pagesizelog2 : Nat := 12

def rounduppow2 (a b2 : BitVec 32) : BitVec 32 := (a + (b2 - 1)) &&& -b2
def rounddownpow2 (a b2 : BitVec 32) : BitVec 32 := a &&& ~~~(b2 - 1)

def pagenum (adr : BitVec 32) : Pagenum := (adr >>> pagesizelog2).setWidth 20

-- The fields of vmphystab and of vmpagestat that are written; queue is *zone with the
-- links of the table.
structure Physzone where
  adr : Pagenum → BitVec 32
  nflt : Pagenum → BitVec 32
  queue : SingleDeq Pagenum
  nphys : BitVec 32
  phys : BitVec 32
  physend : BitVec 32

-- while (n--)
def initloop : Nat → Pagenum → BitVec 32 → Physzone → Option Physzone
  | 0, _, _, zone => some zone
  | n + 1, page, adr, zone => do
      let page := page - 1
      let zone := { zone with adr := Function.update zone.adr page adr, nflt := Function.update zone.nflt page 0 }
      let queue ← deqpush page zone.queue
      initloop n page (adr - pagesize) { zone with queue := queue }

def pageinitphyszone (base nbphys : BitVec 32) (zone : Physzone) : Option (Physzone × BitVec 32) := do
  let page := pagenum base
  let adr := rounduppow2 base pagesize
  let n := rounddownpow2 (nbphys - adr) pagesize >>> pagesizelog2
  let size := n * pagesize
  let last := base - 1
  let adr := adr + n <<< pagesizelog2
  let page := page + n.setWidth 20
  let last := last + size
  let zone := { zone with nphys := n, phys := base, physend := last }
  let zone ← initloop n.toNat page adr zone
  some (zone, size)

-- The frames wholly inside of [base, nbphys).
def Inside (base nbphys : BitVec 32) (id : Pagenum) : Prop :=
  base.toNat ≤ id.toNat * 4096 ∧ id.toNat * 4096 + 4096 ≤ nbphys.toNat

structure Lists (base nbphys : BitVec 32) (zone : Physzone) (items : List Pagenum) : Prop where
  queued : Represents zone.queue items
  increasing : items.Pairwise (· < ·)
  frames : ∀ id, id ∈ items ↔ Inside base nbphys id
  own : ∀ id ∈ items, (zone.adr id).toNat = id.toNat * 4096
  found : ∀ id ∈ items, vmpagenum (zone.adr id) = id

theorem rounddown_toNat (a : BitVec 32) : (rounddownpow2 a pagesize).toNat = a.toNat / 4096 * 4096 :=
  Rounding.toNat_high a 12

theorem roundup_toNat (a : BitVec 32) : (rounduppow2 a pagesize).toNat = (a.toNat + 4095) % 4294967296 / 4096 * 4096 := by
  have moved := Rounding.toNat_high (a + 4095#32) 12
  rw [BitVec.toNat_add] at moved
  exact moved

def pageof (p : Nat) : Pagenum := BitVec.ofNat 20 p

theorem pageof_toNat (p : Nat) (fits : p < 1048576) : (pageof p).toNat = p := by
  rw [pageof, BitVec.toNat_ofNat, Nat.mod_eq_of_lt fits]

-- The frames of a zone, from the top down, as they are pushed.
def downward (p n : Nat) : List Pagenum := (List.range n).reverse.map fun j => pageof (p + j)

theorem downward_succ (p n : Nat) : downward p (n + 1) = pageof (p + n) :: downward p n := by
  simp [downward, List.range_succ]

theorem mem_downward (p n : Nat) (id : Pagenum) (fits : p + n ≤ 1048576) : id ∈ downward p n ↔ p ≤ id.toNat ∧ id.toNat < p + n := by
  unfold downward
  simp only [List.mem_map, List.mem_reverse, List.mem_range]
  constructor
  · rintro ⟨j, less, rfl⟩
    rw [pageof_toNat _ (by omega)]
    omega
  · rintro ⟨low, high⟩
    refine ⟨id.toNat - p, by omega, ?_⟩
    rw [Nat.add_sub_cancel' low]
    exact BitVec.eq_of_toNat_eq (pageof_toNat _ id.isLt)

-- The address is stored before it is lowered: the entry that is about to be pushed gets
-- the address behind its own frame.
theorem initloop_spec (p a n : Nat) (zone : Physzone) (items : List Pagenum) (fits : p + n ≤ 1048576) (rep : Represents zone.queue items)
    (fresh : ∀ id ∈ downward p n, id ∉ items) :
    ∃ after, initloop n (pageof (p + n)) (BitVec.ofNat 32 (a + n * 4096)) zone = some after ∧
      Represents after.queue (items ++ downward p n) ∧
      (∀ id ∈ downward p n, after.adr id = BitVec.ofNat 32 (a + (id.toNat - p + 1) * 4096)) ∧
      ∀ id ∉ downward p n, after.adr id = zone.adr id := by
  induction n generalizing zone items with
  | zero => exact ⟨zone, rfl, by simpa [downward] using rep, by simp [downward], fun _ _ => rfl⟩
  | succ n ih =>
      rw [downward_succ] at fresh ⊢
      have page : pageof (p + (n + 1)) - 1 = pageof (p + n) := by
        unfold pageof
        rw [← Nat.add_assoc, BitVec.ofNat_add]
        exact BitVec.add_sub_cancel _ _
      have adr : BitVec.ofNat 32 (a + (n + 1) * 4096) - pagesize = BitVec.ofNat 32 (a + n * 4096) := by
        rw [Nat.add_mul, Nat.one_mul, ← Nat.add_assoc, BitVec.ofNat_add]
        exact BitVec.add_sub_cancel _ _
      obtain ⟨queue, pushed, queued⟩ := linkbefore_represents zone.queue items (pageof (p + n)) rep (fresh _ List.mem_cons_self)
      have gone : pageof (p + n) ∉ downward p n := by
        rw [mem_downward p n _ (by omega), pageof_toNat _ (by omega)]
        omega
      have later : ∀ id ∈ downward p n, id ∉ items ++ [pageof (p + n)] := by
        intro id inside both
        rcases List.mem_append.mp both with early | last
        · exact fresh id (List.mem_cons_of_mem _ inside) early
        · exact gone (List.mem_singleton.mp last ▸ inside)
      obtain ⟨after, taken, whole, named, kept⟩ := ih
        { zone with adr := Function.update zone.adr (pageof (p + n)) (BitVec.ofNat 32 (a + (n + 1) * 4096)),
                    nflt := Function.update zone.nflt (pageof (p + n)) 0, queue := queue } _ (by omega) queued later
      refine ⟨after, ?_, ?_, ?_, ?_⟩
      · simp only [initloop, page, adr, deqpush, pushed, Option.bind_eq_bind, Option.bind_some]
        exact taken
      · rwa [List.append_assoc] at whole
      · intro id inside
        rcases List.mem_cons.mp inside with rfl | inside
        · rw [kept _ gone, pageof_toNat _ (by omega), Nat.add_sub_cancel_left]
          exact Function.update_self _ _ _
        · exact named id inside
      · intro id outside
        rw [List.mem_cons, not_or] at outside
        rw [kept id outside.2]
        exact Function.update_of_ne outside.1 _ _

-- The number of whole frames that follow base.
def count (base nbphys : BitVec 32) : Nat := (nbphys.toNat - base.toNat) / 4096

theorem roundup_aligned (base : BitVec 32) (aligned : base.toNat % 4096 = 0) : rounduppow2 base pagesize = base := by
  apply BitVec.eq_of_toNat_eq
  have bound := base.isLt
  rw [roundup_toNat]
  omega

theorem count_word (base nbphys : BitVec 32) (order : base.toNat ≤ nbphys.toNat) :
    rounddownpow2 (nbphys - base) pagesize >>> pagesizelog2 = BitVec.ofNat 32 (count base nbphys) := by
  have bound := nbphys.isLt
  apply BitVec.eq_of_toNat_eq
  rw [BitVec.toNat_ushiftRight, rounddown_toNat, BitVec.toNat_sub_of_le order, BitVec.toNat_ofNat, Nat.shiftRight_eq_div_pow]
  unfold count pagesizelog2
  omega

theorem pagenum_eq (base : BitVec 32) : pagenum base = pageof (base.toNat / 4096) := by
  apply BitVec.eq_of_toNat_eq
  rw [pagenum, pageof, BitVec.toNat_setWidth, BitVec.toNat_ushiftRight, Nat.shiftRight_eq_div_pow, BitVec.toNat_ofNat]
  rfl

theorem pageinitphyszone_spec (base nbphys : BitVec 32) (zone : Physzone) (aligned : base.toNat % 4096 = 0) (order : base.toNat ≤ nbphys.toNat)
    (empty : zone.queue.deq = none) :
    ∃ after size, pageinitphyszone base nbphys zone = some (after, size) ∧
      Represents after.queue (downward (base.toNat / 4096) (count base nbphys)) ∧
      ∀ id, Inside base nbphys id → (after.adr id).toNat = (id.toNat + 1) * 4096 := by
  have bound := nbphys.isLt
  have fits : base.toNat / 4096 + count base nbphys ≤ 1048576 := by
    unfold count
    omega
  have few : count base nbphys < 4294967296 := by omega
  have page : pagenum base + (BitVec.ofNat 32 (count base nbphys)).setWidth 20 = pageof (base.toNat / 4096 + count base nbphys) := by
    have narrow : (BitVec.ofNat 32 (count base nbphys)).setWidth 20 = BitVec.ofNat 20 (count base nbphys) := by
      apply BitVec.eq_of_toNat_eq
      rw [BitVec.toNat_setWidth, BitVec.toNat_ofNat, BitVec.toNat_ofNat, Nat.mod_eq_of_lt few]
    rw [pagenum_eq, narrow, pageof, pageof, BitVec.ofNat_add]
  have adr : base + BitVec.ofNat 32 (count base nbphys) <<< pagesizelog2 = BitVec.ofNat 32 (base.toNat + count base nbphys * 4096) := by
    apply BitVec.eq_of_toNat_eq
    rw [BitVec.toNat_add, BitVec.toNat_shiftLeft, BitVec.toNat_ofNat, BitVec.toNat_ofNat, Nat.mod_eq_of_lt few, Nat.shiftLeft_eq]
    unfold pagesizelog2
    omega
  have bare : Represents zone.queue ([] : List Pagenum) := ⟨empty, .nil, .nil⟩
  obtain ⟨after, taken, whole, named, -⟩ := initloop_spec (base.toNat / 4096) base.toNat (count base nbphys)
    { zone with nphys := BitVec.ofNat 32 (count base nbphys), phys := base,
                physend := base - 1 + BitVec.ofNat 32 (count base nbphys) * pagesize } [] fits bare (by simp)
  refine ⟨after, BitVec.ofNat 32 (count base nbphys) * pagesize, ?_, whole, ?_⟩
  · unfold pageinitphyszone
    simp only [roundup_aligned base aligned, count_word base nbphys order, page, adr, BitVec.toNat_ofNat, Nat.mod_eq_of_lt few, taken,
      Option.bind_eq_bind, Option.bind_some]
  · rintro id ⟨low, high⟩
    have inside : id ∈ downward (base.toNat / 4096) (count base nbphys) := by
      rw [mem_downward _ _ _ fits]
      unfold count
      omega
    rw [named id inside, BitVec.toNat_ofNat]
    omega

-- Every entry of the list gets the address of the frame behind its own, so only an empty
-- list is right.
theorem zone_lists_iff (base nbphys : BitVec 32) (zone : Physzone) (aligned : base.toNat % 4096 = 0) (order : base.toNat ≤ nbphys.toNat)
    (empty : zone.queue.deq = none) :
    (∃ after size items, pageinitphyszone base nbphys zone = some (after, size) ∧ Lists base nbphys after items) ↔
      nbphys.toNat - base.toNat < 4096 := by
  obtain ⟨after, size, taken, queued, shifted⟩ := pageinitphyszone_spec base nbphys zone aligned order empty
  have bound := nbphys.isLt
  constructor
  · rintro ⟨other, _, items, same, lists⟩
    rw [taken] at same
    cases same
    by_contra many
    have low : (pageof (base.toNat / 4096)).toNat = base.toNat / 4096 := pageof_toNat _ (by omega)
    have inside : Inside base nbphys (pageof (base.toNat / 4096)) := by
      unfold Inside
      omega
    have own := lists.own _ ((lists.frames _).mpr inside)
    rw [shifted _ inside] at own
    omega
  · intro few
    have none : count base nbphys = 0 := Nat.div_eq_of_lt few
    rw [none] at queued
    refine ⟨after, size, [], taken, queued, .nil, ?_, by simp, by simp⟩
    intro id
    simp only [List.not_mem_nil, Inside, false_iff, not_and]
    omega

theorem zone_lists_none :
    (∃ after size items, pageinitphyszone 4096 8191 ⟨fun _ => 0, fun _ => 0, emptyDeq ⟨fun _ => none, fun _ => none⟩, 0, 0, 0⟩ = some (after, size) ∧
      Lists 4096 8191 after items) :=
  (zone_lists_iff 4096 8191 _ (by decide) (by decide) rfl).mpr (by decide)

-- One frame: its entry names the next one, which pagefreephys would then queue.
theorem pageinitphyszone_shifted :
    (∃ after size, pageinitphyszone 4096 8192 ⟨fun _ => 0, fun _ => 0, emptyDeq ⟨fun _ => none, fun _ => none⟩, 0, 0, 0⟩ = some (after, size) ∧
      after.queue.deq = some 1 ∧ after.adr 1 = 8192 ∧ vmpagenum (after.adr 1) = 2) ∧
    ¬∃ after size items, pageinitphyszone 4096 8192 ⟨fun _ => 0, fun _ => 0, emptyDeq ⟨fun _ => none, fun _ => none⟩, 0, 0, 0⟩ = some (after, size) ∧
      Lists 4096 8192 after items := by
  constructor
  · exact ⟨_, _, rfl, rfl, rfl, rfl⟩
  · rintro ⟨after, size, items, taken, lists⟩
    cases taken
    have own := lists.own 1 ((lists.frames 1).mpr (by unfold Inside; decide))
    revert own
    decide

end OsZero.Zone

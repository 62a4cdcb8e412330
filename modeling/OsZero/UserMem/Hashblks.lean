import OsZero.UserMem.Filing

set_option autoImplicit false

namespace OsZero.UserMem

open Chains

-- Where meminithashitem lets item->tab point, in words from the block.
def memhashtab (sites : Sites) (blk : Nat) : Nat := memhashwords + memblkcolor sites blk

structure Tabinside (sites : Sites) (blk : Nat) : Prop where
  behind : memhashwords ≤ memhashtab sites blk
  start : memhashtab sites blk < memhasharraywords
  items : memhashtab sites blk + 2 * memhasharrayitems ≤ memhasharraywords

-- The blocks of a mapping and the list of them that memgethashitem leaves.
structure Carved (sites : Sites) (map : Nat) (after : Hash) : Prop where
  tabs : ∀ i < 32, Tabinside sites (32 * map + i)
  list : Seg after.chain after.hashbuf (List.range' (32 * map + 1) 31) none

theorem tabinside_iff (sites : Sites) (blk : Nat) : Tabinside sites blk ↔ (memblkadr sites blk + 32) / 65536 % 9 = 0 := by
  have color := blkcolor_exact sites blk
  constructor
  · intro inside
    have items := inside.items
    unfold memhashtab memhashwords memhasharrayitems memhasharraywords at items
    omega
  · intro plain
    have none : memblkcolor sites blk = 0 := by omega
    constructor <;> rw [memhashtab, none] <;> decide

-- Of two runs of 64 kilobytes that meet, not both are uncolored.
theorem mapping_plain (adr : Nat) (aligned : adr % 4096 = 0) :
    (∀ i < 32, (adr + 1024 * i + 32) / 65536 % 9 = 0) ↔ adr / 65536 % 9 = 0 ∧ adr % 65536 ≤ 32768 := by
  constructor
  · intro plain
    have first := plain 0 (by decide)
    have last := plain 31 (by decide)
    omega
  · rintro ⟨multiple, early⟩ i low
    omega

theorem tabs_plain (sites : Sites) (map : Nat) (aligned : sites.adr map % 4096 = 0) :
    (∀ i < 32, Tabinside sites (32 * map + i)) ↔ sites.adr map / 65536 % 9 = 0 ∧ sites.adr map % 65536 ≤ 32768 := by
  rw [← mapping_plain _ aligned]
  refine forall_congr' fun i => forall_congr' fun low => ?_
  have place : (32 * map + i) / 32 = map ∧ (32 * map + i) % 32 = i := by omega
  rw [tabinside_iff, memblkadr, place.1, place.2]

theorem gethashitem_carves_iff (sites : Sites) (hash : Hash) (map : Nat) (free : hash.buflk = false) (empty : hash.hashbuf = none)
    (carved : hash.nblk = 32 * map) (aligned : sites.adr map % 4096 = 0) :
    (∃ after, memgethashitem hash = some (after, 32 * map) ∧ Carved sites map after) ↔
      sites.adr map / 65536 % 9 = 0 ∧ sites.adr map % 65536 ≤ 32768 := by
  have call : memgethashitem hash = some ((memmaphashitems hash).1, 32 * map) := by simp [memgethashitem, free, empty, memmaphashitems, carved]
  have list := mapitems_listed hash
  rw [carved] at list
  rw [← tabs_plain sites map aligned]
  constructor
  · rintro ⟨after, -, carved⟩
    exact carved.tabs
  · exact fun tabs => ⟨_, call, tabs, list⟩

def plainSites : Sites := ⟨fun _ => 0x7f0000080000, fun _ => by decide⟩

theorem gethashitem_carves_plain : ∃ after, memgethashitem emptyhash = some (after, 0) ∧ Carved plainSites 0 after :=
  (gethashitem_carves_iff plainSites emptyhash 0 rfl rfl rfl rfl).mpr (by decide)

def coloredSites : Sites := ⟨fun _ => 0x7f0000000000, fun _ => by decide⟩

-- The last item of each of these blocks is in the next one's header.
theorem gethashitem_spills : ¬ ∃ after, memgethashitem emptyhash = some (after, 0) ∧ Carved coloredSites 0 after := by
  rintro ⟨after, -, carved⟩
  have items := (carved.tabs 0 (by decide)).items
  revert items
  decide

end OsZero.UserMem

import OsZero.KernMem.Zone

set_option autoImplicit false

namespace OsZero.Unmap

open Page Zone

-- _pagetab and vmpagestat, with the arguments of the calls of pagefreephys so far. The
-- number of an entry is that of its page.
structure Ptes where
  pagetab : Nat → BitVec 32
  nmap : BitVec 32
  nwire : BitVec 32
  freed : List (BitVec 32)

-- while (n--): a continue for an entry without a frame leaves pte where it is.
def freeloop : Nat → Nat → Ptes → Ptes
  | 0, _, vm => vm
  | n + 1, pte, vm =>
      let adr := vm.pagetab pte &&& vmpagemask
      if adr = 0 then freeloop n pte vm
      else
        let vm := if vm.pagetab pte &&& pageswapped ≠ 0 then vm
          else if vm.pagetab pte &&& pagewired = 0 then { vm with nmap := vm.nmap - 1 }
          else { vm with nwire := vm.nwire - 1 }
        let vm := { vm with freed := vm.freed ++ [adr] }
        freeloop n (pte + 1) { vm with pagetab := Function.update vm.pagetab pte 0 }

def vmfreephys (virt size : BitVec 32) (vm : Ptes) : Ptes :=
  let n := rounduppow2 size pagesize >>> pagesizelog2
  freeloop n.toNat (vmpagenum virt).toNat vm

-- An entry that is swapped out names a place on a device.
def Names (pte : BitVec 32) : Bool := pte &&& vmpagemask != 0 && pte &&& pageswapped == 0
def Unwired (pte : BitVec 32) : Bool := pte &&& pagewired == 0

def entries (pagetab : Nat → BitVec 32) (p n : Nat) : List (BitVec 32) := (List.range n).map fun i => pagetab (p + i)

def named (pagetab : Nat → BitVec 32) (p n : Nat) : List (BitVec 32) := (entries pagetab p n).filter Names

structure Unmaps (p n : Nat) (before after : Ptes) : Prop where
  cleared : ∀ i < n, after.pagetab (p + i) = 0
  kept : ∀ pte, pte < p ∨ p + n ≤ pte → after.pagetab pte = before.pagetab pte
  freed : ∃ calls, after.freed = before.freed ++ calls ∧ calls.Perm ((named before.pagetab p n).map (· &&& vmpagemask))
  nmap : after.nmap = before.nmap - BitVec.ofNat 32 ((named before.pagetab p n).countP Unwired)
  nwire : after.nwire = before.nwire - BitVec.ofNat 32 ((named before.pagetab p n).countP (!Unwired ·))

theorem entries_succ (pagetab : Nat → BitVec 32) (p n : Nat) : entries pagetab p (n + 1) = pagetab p :: entries pagetab (p + 1) n := by
  simp only [entries, List.range_succ_eq_map, List.map_cons, List.map_map, Nat.add_zero, List.cons.injEq, true_and]
  apply List.map_congr_left
  intro i _
  exact congrArg pagetab (by simp only [Nat.succ_eq_add_one]; omega)

theorem entries_congr (pagetab other : Nat → BitVec 32) (p n : Nat) (same : ∀ i < n, pagetab (p + i) = other (p + i)) :
    entries pagetab p n = entries other p n := List.map_congr_left fun i inside => same i (List.mem_range.mp inside)

theorem entries_append (pagetab : Nat → BitVec 32) (p k m : Nat) : entries pagetab p (k + m) = entries pagetab p k ++ entries pagetab (p + k) m := by
  simp only [entries, List.range_add, List.map_append, List.map_map]
  congr 1
  apply List.map_congr_left
  intro i _
  exact congrArg pagetab (Nat.add_assoc p k i).symm

theorem freeloop_stuck (n pte : Nat) (vm : Ptes) (empty : vm.pagetab pte &&& vmpagemask = 0) : freeloop n pte vm = vm := by
  induction n with
  | zero => rfl
  | succ n ih => rw [freeloop, if_pos empty, ih]

-- How far the loop gets, and what it does there.
structure Leads (p n k : Nat) (before after : Ptes) : Prop where
  few : k ≤ n
  framed : ∀ i < k, before.pagetab (p + i) &&& vmpagemask ≠ 0
  stuck : k < n → before.pagetab (p + k) &&& vmpagemask = 0
  cleared : ∀ i < k, after.pagetab (p + i) = 0
  kept : ∀ pte, pte < p ∨ p + k ≤ pte → after.pagetab pte = before.pagetab pte
  freed : after.freed = before.freed ++ (entries before.pagetab p k).map (· &&& vmpagemask)
  nmap : after.nmap = before.nmap - BitVec.ofNat 32 ((named before.pagetab p k).countP Unwired)
  nwire : after.nwire = before.nwire - BitVec.ofNat 32 ((named before.pagetab p k).countP (!Unwired ·))

-- The state after one entry with a frame.
def freed (vm : Ptes) (pte : Nat) : Ptes where
  pagetab := Function.update vm.pagetab pte 0
  nmap := vm.nmap - if Names (vm.pagetab pte) && Unwired (vm.pagetab pte) then 1 else 0
  nwire := vm.nwire - if Names (vm.pagetab pte) && !Unwired (vm.pagetab pte) then 1 else 0
  freed := vm.freed ++ [vm.pagetab pte &&& vmpagemask]

theorem freeloop_framed (n pte : Nat) (vm : Ptes) (framed : vm.pagetab pte &&& vmpagemask ≠ 0) :
    freeloop (n + 1) pte vm = freeloop n (pte + 1) (freed vm pte) := by
  rw [freeloop, if_neg framed]
  unfold freed Names Unwired
  have framed : vm.pagetab pte &&& vmpagemask ≠ 0#32 := framed
  by_cases swapped : vm.pagetab pte &&& pageswapped = 0#32
  · by_cases unwired : vm.pagetab pte &&& pagewired = 0#32
    · simp [framed, swapped, unwired]
    · simp [framed, swapped, unwired]
  · simp [swapped]

theorem sub_sub_count (word : BitVec 32) (flag : Bool) (count : Nat) :
    (word - if flag then 1 else 0) - BitVec.ofNat 32 count = word - BitVec.ofNat 32 (count + if flag then 1 else 0) := by
  cases flag with
  | false => simp
  | true =>
      simp only [if_true, BitVec.ofNat_add]
      rw [BitVec.sub_sub, BitVec.add_comm]
      rfl

theorem leads_succ (p n k : Nat) (vm after : Ptes) (framed : vm.pagetab p &&& vmpagemask ≠ 0) (leads : Leads (p + 1) n k (freed vm p) after) :
    Leads p (n + 1) (k + 1) vm after := by
  have elsewhere : ∀ i, (freed vm p).pagetab (p + 1 + i) = vm.pagetab (p + 1 + i) := fun i =>
    Function.update_of_ne (by omega) _ _
  have next : ∀ i, vm.pagetab (p + (i + 1)) = vm.pagetab (p + 1 + i) := fun i => congrArg vm.pagetab (by omega)
  have same : entries (freed vm p).pagetab (p + 1) k = entries vm.pagetab (p + 1) k := entries_congr _ _ _ _ fun i _ => elsewhere i
  have split : named vm.pagetab p (k + 1) = (if Names (vm.pagetab p) then [vm.pagetab p] else []) ++ named (freed vm p).pagetab (p + 1) k := by
    unfold named
    rw [entries_succ, same, List.filter_cons]
    split <;> rfl
  constructor
  · exact Nat.succ_le_succ leads.few
  · intro i less
    cases i with
    | zero => exact framed
    | succ i =>
        rw [next, ← elsewhere]
        exact leads.framed i (by omega)
  · intro less
    rw [next, ← elsewhere]
    exact leads.stuck (by omega)
  · intro i less
    cases i with
    | zero =>
        rw [Nat.add_zero, leads.kept p (Or.inl (by omega))]
        exact Function.update_self _ _ _
    | succ i =>
        rw [show p + (i + 1) = p + 1 + i by omega]
        exact leads.cleared i (by omega)
  · intro pte outside
    rw [leads.kept pte (by omega)]
    exact Function.update_of_ne (by omega) _ _
  · rw [leads.freed, same, entries_succ]
    simp [freed]
  · rw [leads.nmap, split, List.countP_append]
    show (vm.nmap - if Names (vm.pagetab p) && Unwired (vm.pagetab p) then 1 else 0) - _ = _
    rw [sub_sub_count, Nat.add_comm]
    cases Names (vm.pagetab p) <;> simp [List.countP_cons]
  · rw [leads.nwire, split, List.countP_append]
    show (vm.nwire - if Names (vm.pagetab p) && !Unwired (vm.pagetab p) then 1 else 0) - _ = _
    rw [sub_sub_count, Nat.add_comm]
    cases Names (vm.pagetab p) <;> simp [List.countP_cons]

theorem freeloop_leads (p n : Nat) (vm : Ptes) : ∃ k, Leads p n k vm (freeloop n p vm) := by
  induction n generalizing p vm with
  | zero => exact ⟨0, by constructor <;> simp [freeloop, entries, named]⟩
  | succ n ih =>
      by_cases empty : vm.pagetab p &&& vmpagemask = 0
      · rw [freeloop_stuck (n + 1) p vm empty]
        exact ⟨0, by constructor <;> simp [entries, named, empty]⟩
      · obtain ⟨k, leads⟩ := ih (p + 1) (freed vm p)
        rw [freeloop_framed n p vm empty]
        exact ⟨k + 1, leads_succ p n k vm _ empty leads⟩

theorem framed_of_names (pte : BitVec 32) (names : Names pte = true) : pte &&& vmpagemask ≠ 0 := by
  simp only [Names, Bool.and_eq_true, bne_iff_ne] at names
  exact names.1

theorem zero_not_named : Names 0 = false := by decide

-- Where the rest of the range is zero, the entries that name a frame are among the first ones.
theorem named_first (pagetab : Nat → BitVec 32) (p n k : Nat) (few : k ≤ n) (rest : ∀ i, k ≤ i → i < n → pagetab (p + i) = 0) :
    named pagetab p n = named pagetab p k := by
  obtain ⟨m, rfl⟩ := Nat.exists_eq_add_of_le few
  unfold named
  rw [entries_append, List.filter_append]
  have none : (entries pagetab (p + k) m).filter Names = [] := by
    rw [List.filter_eq_nil_iff]
    intro pte inside
    obtain ⟨i, less, rfl⟩ := List.mem_map.mp inside
    rw [Nat.add_assoc, rest (k + i) (by omega) (by have := List.mem_range.mp less; omega), zero_not_named]
    exact Bool.false_ne_true
  rw [none, List.append_nil]

-- Every entry up to the last one that is not zero names a frame.
def Solid (pagetab : Nat → BitVec 32) (p n : Nat) : Prop :=
  ∀ i j, i ≤ j → j < n → pagetab (p + j) ≠ 0 → Names (pagetab (p + i)) = true

theorem solid_leads (p n k : Nat) (vm after : Ptes) (leads : Leads p n k vm after) (solid : Solid vm.pagetab p n) :
    (∀ i < k, Names (vm.pagetab (p + i)) = true) ∧ ∀ i, k ≤ i → i < n → vm.pagetab (p + i) = 0 := by
  have few := leads.few
  constructor
  · intro i less
    refine solid i i (Nat.le_refl i) (by omega) fun zero => leads.framed i less ?_
    rw [zero]
    rfl
  · intro i low less
    by_contra other
    exact framed_of_names _ (solid k i low less other) (leads.stuck (by omega))

theorem unmaps_of_solid (p n k : Nat) (vm after : Ptes) (leads : Leads p n k vm after) (solid : Solid vm.pagetab p n) :
    Unmaps p n vm after := by
  obtain ⟨names, rest⟩ := solid_leads p n k vm after leads solid
  have few := leads.few
  have first := named_first vm.pagetab p n k few rest
  have all : named vm.pagetab p k = entries vm.pagetab p k := by
    unfold named
    rw [List.filter_eq_self]
    intro pte inside
    obtain ⟨i, less, rfl⟩ := List.mem_map.mp inside
    exact names i (List.mem_range.mp less)
  constructor
  · intro i less
    by_cases early : i < k
    · exact leads.cleared i early
    · rw [leads.kept _ (Or.inr (by omega)), rest i (by omega) less]
  · intro pte outside
    exact leads.kept pte (by omega)
  · refine ⟨_, leads.freed, ?_⟩
    rw [first, all]
  · rw [first]
    exact leads.nmap
  · rw [first]
    exact leads.nwire

theorem solid_of_unmaps (p n k : Nat) (vm after : Ptes) (leads : Leads p n k vm after) (unmaps : Unmaps p n vm after) :
    Solid vm.pagetab p n := by
  have rest : ∀ i, k ≤ i → i < n → vm.pagetab (p + i) = 0 := by
    intro i low less
    rw [← leads.kept _ (Or.inr (by omega)), unmaps.cleared i less]
  -- As many calls as there are entries that name a frame: none of the first ones is swapped out.
  have all : (entries vm.pagetab p k).length = (named vm.pagetab p k).length := by
    obtain ⟨calls, made, same⟩ := unmaps.freed
    rw [leads.freed, List.append_cancel_left_eq] at made
    rw [← made, named_first vm.pagetab p n k leads.few rest] at same
    simpa using same.length_eq
  intro i j order less other
  have early : j < k := by
    by_contra late
    exact other (rest j (by omega) less)
  have inside : vm.pagetab (p + i) ∈ entries vm.pagetab p k :=
    List.mem_map.mpr ⟨i, List.mem_range.mpr (by omega), rfl⟩
  exact List.length_filter_eq_length_iff.mp all.symm _ inside

theorem size_pages (size : BitVec 32) (aligned : size.toNat % 4096 = 0) : (rounduppow2 size pagesize >>> pagesizelog2).toNat = size.toNat / 4096 := by
  rw [roundup_aligned size aligned, BitVec.toNat_ushiftRight, Nat.shiftRight_eq_div_pow]
  rfl

theorem vmfreephys_unmaps_iff (virt size : BitVec 32) (vm : Ptes) (aligned : size.toNat % 4096 = 0) :
    Unmaps (vmpagenum virt).toNat (size.toNat / 4096) vm (vmfreephys virt size vm) ↔
      Solid vm.pagetab (vmpagenum virt).toNat (size.toNat / 4096) := by
  unfold vmfreephys
  simp only [size_pages size aligned]
  obtain ⟨k, leads⟩ := freeloop_leads (vmpagenum virt).toNat (size.toNat / 4096) vm
  exact ⟨solid_of_unmaps _ _ k vm _ leads, unmaps_of_solid _ _ k vm _ leads⟩

theorem vmfreephys_unmaps_wired :
    Unmaps 16 2 ⟨fun pte => if pte = 16 then 0x5801 else if pte = 17 then 0x7001 else 0, 1, 1, []⟩
      (vmfreephys 0x10000 0x2000 ⟨fun pte => if pte = 16 then 0x5801 else if pte = 17 then 0x7001 else 0, 1, 1, []⟩) := by
  refine (vmfreephys_unmaps_iff 0x10000 0x2000 _ (by decide)).mpr ?_
  intro i j order less _
  have cases : i = 0 ∨ i = 1 := by
    have : j < 2 := less
    omega
  rcases cases with rfl | rfl <;> decide

-- The first page was never touched, so the second one stays mapped.
theorem vmfreephys_stops :
    (vmfreephys 0x10000 0x2000 ⟨fun pte => if pte = 17 then 0x7001 else 0, 1, 0, []⟩).pagetab 17 = 0x7001 ∧
      ¬Unmaps 16 2 ⟨fun pte => if pte = 17 then 0x7001 else 0, 1, 0, []⟩
        (vmfreephys 0x10000 0x2000 ⟨fun pte => if pte = 17 then 0x7001 else 0, 1, 0, []⟩) := by
  have left : (vmfreephys 0x10000 0x2000 ⟨fun pte => if pte = 17 then 0x7001 else 0, 1, 0, []⟩).pagetab 17 = 0x7001 := rfl
  refine ⟨left, fun unmaps => ?_⟩
  have cleared := unmaps.cleared 1 (by decide)
  rw [left] at cleared
  exact absurd cleared (by decide)

end OsZero.Unmap

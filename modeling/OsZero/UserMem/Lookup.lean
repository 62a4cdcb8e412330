import Mathlib.Tactic.IntervalCases
import OsZero.UserMem.Hash

set_option autoImplicit false

namespace OsZero.UserMem

open Chains

-- What the switch leaves in slot when only item j is the one: a comparison
-- that hits is kept when a break follows it or no label does.
def kept (j : Nat) : List Label → Bool
  | [] => false
  | label :: rest => if label.index = j then label.breaks || rest.isEmpty else kept j rest

theorem fallthrough_miss (check : Nat → Bool) (labels : List Label) (miss : ∀ label ∈ labels, check label.index = false) :
    memfallthrough check none labels = none := by
  induction labels with
  | nil => rfl
  | cons label labels ih =>
      have here := miss label List.mem_cons_self
      simp only [memfallthrough, here]
      simpa using ih fun other member => miss other (List.mem_cons_of_mem _ member)

theorem fallthrough_exact (check : Nat → Bool) (labels : List Label) (j : Nat) (nodup : (labels.map Label.index).Nodup)
    (single : ∀ label ∈ labels, check label.index = true ↔ label.index = j) :
    memfallthrough check none labels = if kept j labels then some j else none := by
  induction labels with
  | nil => rfl
  | cons label labels ih =>
      have later : ∀ other ∈ labels, check other.index = true ↔ other.index = j :=
        fun other member => single other (List.mem_cons_of_mem _ member)
      simp only [List.map_cons, List.nodup_cons, List.mem_map, not_exists, not_and] at nodup
      by_cases here : label.index = j
      · have hit : check label.index = true := (single label List.mem_cons_self).mpr here
        subst here
        cases labels with
        | nil => simp [memfallthrough, kept, hit]
        | cons next rest =>
            have miss : ∀ other ∈ next :: rest, check other.index = false := by
              intro other member
              have different := nodup.1 other member
              simpa using mt (later other member).mp different
            cases breaks : label.breaks
            · simp only [memfallthrough, kept, hit, breaks]
              simpa [memfallthrough, kept] using fallthrough_miss check (next :: rest) miss
            · simp [memfallthrough, kept, hit, breaks]
      · have miss : check label.index = false := by simpa using mt (single label List.mem_cons_self).mp here
        simp only [memfallthrough, kept, miss, if_neg here]
        simpa using ih nodup.2 later

theorem labels_below (n : Nat) (small : n ≤ 16) :
    ∀ label ∈ memhashlabels.dropWhile fun label => label.n != n, label.index < n := by
  revert n
  decide

theorem labels_nodup (n : Nat) : ((memhashlabels.dropWhile fun label => label.n != n).map Label.index).Nodup := by
  have whole : (memhashlabels.map Label.index).Nodup := by decide
  exact whole.sublist ((List.dropWhile_sublist _).map _)

def Shown (n j : Nat) : Prop := n ≠ 11 ∧ (j = 0 ∨ j = 3 ∨ j = 7 ∨ j = 12)

instance (n j : Nat) : Decidable (Shown n j) := inferInstanceAs (Decidable (_ ∧ _))

theorem kept_iff_shown (n j : Nat) (small : n ≤ 16) (inside : j < n) :
    kept j (memhashlabels.dropWhile fun label => label.n != n) = true ↔ Shown n j := by
  have table : ∀ n < 17, ∀ j < n,
      kept j (memhashlabels.dropWhile fun label => label.n != n) = decide (Shown n j) := by decide
  rw [table n (by omega) j inside, decide_eq_true_iff]

theorem switch_miss (check : Nat → Bool) (n : Nat) (small : n ≤ 16) (miss : ∀ i < n, check i = false) :
    memhashswitch check n = none :=
  fallthrough_miss check _ fun label member => miss label.index (labels_below n small label member)

theorem switch_exact (check : Nat → Bool) (n j : Nat) (small : n ≤ 16) (inside : j < n)
    (single : ∀ i < n, check i = true ↔ i = j) : memhashswitch check n = if Shown n j then some j else none := by
  have labels := fallthrough_exact check _ j (labels_nodup n)
    fun label member => single label.index (labels_below n small label member)
  rw [memhashswitch, labels]
  simp only [kept_iff_shown n j small inside]

-- Item j of a block with ntab items stands where the scan reports it.
def Reported (ntab j : Nat) : Prop := Shown (min (ntab - 16 * (j / 16)) 16) (j % 16)

instance (ntab j : Nat) : Decidable (Reported ntab j) := inferInstanceAs (Decidable (Shown _ _))

theorem scan_miss (check : Nat → Bool) (fuel lim src : Nat) (miss : ∀ i < lim, check (src + i) = false) :
    memhashscan check fuel lim src = none := by
  induction fuel generalizing lim src with
  | zero => rfl
  | succ fuel ih =>
      have group := switch_miss (fun index => check (src + index)) (min lim 16) (by omega) fun i below => miss i (by omega)
      simp only [memhashscan, group]
      split
      · apply ih
        intro i below
        rw [Nat.add_assoc]
        exact miss (min lim 16 + i) (by omega)
      · rfl

theorem scan_exact (check : Nat → Bool) (fuel lim src j : Nat) (enough : lim < fuel) (inside : j < lim)
    (single : ∀ i < lim, check (src + i) = true ↔ i = j) :
    memhashscan check fuel lim src = if Reported lim j then some (src + j) else none := by
  induction fuel generalizing lim src j with
  | zero => omega
  | succ fuel ih =>
      by_cases first : j < 16
      · -- the item is in this group, and no other group has it
        have group := switch_exact (fun index => check (src + index)) (min lim 16) j (by omega) (by omega)
          fun i below => single i (by omega)
        have place : Reported lim j ↔ Shown (min lim 16) j := by
          unfold Reported
          rw [Nat.div_eq_of_lt first, Nat.mod_eq_of_lt first, Nat.mul_zero, Nat.sub_zero]
        simp only [memhashscan, group, place]
        by_cases shown : Shown (min lim 16) j
        · simp only [if_pos shown]
        · simp only [if_neg shown]
          split
          · apply scan_miss
            intro i below
            have other := mt (single (min lim 16 + i) (by omega)).mp (by omega)
            rw [Nat.add_assoc]
            simpa using other
          · rfl
      · have whole : min lim 16 = 16 := by omega
        have group := switch_miss (fun index => check (src + index)) 16 (by omega) fun i below => by
          simpa using mt (single i (by omega)).mp (by omega)
        have more : lim - 16 ≠ 0 := by omega
        have place : Reported lim j ↔ Reported (lim - 16) (j - 16) := by
          have left : j / 16 = (j - 16) / 16 + 1 := by omega
          have right : (j - 16) % 16 = j % 16 := by omega
          unfold Reported
          rw [left, right, Nat.mul_add, Nat.mul_one, Nat.add_comm, Nat.sub_sub]
        have rest := ih (lim - 16) (src + 16) (j - 16) (by omega) (by omega) fun i below => by
          rw [Nat.add_assoc, single (16 + i) (by omega)]
          omega
        simp only [memhashscan, whole, group, if_pos more, rest, place]
        rw [Nat.add_assoc, show 16 + (j - 16) = j by omega]

-- Whatever the switch reports is an item of the page; a miss says nothing.
theorem fallthrough_sound (check : Nat → Bool) (slot : Option Nat) (labels : List Label) (j : Nat)
    (result : memfallthrough check slot labels = some j) :
    slot = some j ∨ ∃ label ∈ labels, label.index = j ∧ check j = true := by
  induction labels generalizing slot with
  | nil => exact Or.inl result
  | cons label labels ih =>
      have later : ∀ now, (now = some j → label.index = j ∧ check j = true) → memfallthrough check now labels = some j →
          ∃ other ∈ label :: labels, other.index = j ∧ check j = true := by
        intro now here rest
        rcases ih now rest with equal | ⟨other, member, hit⟩
        · exact ⟨label, List.mem_cons_self, here equal⟩
        · exact ⟨other, List.mem_cons_of_mem _ member, hit⟩
      by_cases hit : check label.index = true
      · have here : some label.index = some j → label.index = j ∧ check j = true := by
          rintro ⟨⟩
          exact ⟨rfl, hit⟩
        simp only [memfallthrough, if_pos hit] at result
        split at result
        · exact Or.inr ⟨label, List.mem_cons_self, here result⟩
        · exact Or.inr (later _ here result)
      · simp only [memfallthrough, if_neg hit, Option.isSome_none, Bool.and_false, Bool.false_eq_true, if_false] at result
        exact Or.inr (later none nofun result)

theorem scan_sound (check : Nat → Bool) (fuel lim src j : Nat) (result : memhashscan check fuel lim src = some j) :
    ∃ i < lim, j = src + i ∧ check j = true := by
  induction fuel generalizing lim src with
  | zero => cases result
  | succ fuel ih =>
      rw [memhashscan] at result
      cases group : memhashswitch (fun index => check (src + index)) (min lim 16) with
      | some index =>
          simp only [group, Option.some.injEq] at result
          rcases fallthrough_sound _ none _ index group with impossible | ⟨label, member, rfl, hit⟩
          · cases impossible
          · have below := labels_below (min lim 16) (by omega) label member
            exact ⟨label.index, by omega, result.symm, result ▸ hit⟩
      | none =>
          simp only [group] at result
          split at result
          · obtain ⟨i, below, rfl, hit⟩ := ih _ _ result
            exact ⟨min lim 16 + i, by omega, by omega, hit⟩
          · cases result

theorem slot_miss (hash : Hash) (page : BitVec 64) (blk : Nat) (miss : ∀ i < hash.ntab blk, hash.adr blk i ≠ page) :
    memfindslot hash page blk = none := by
  apply scan_miss
  intro i below
  rw [Nat.zero_add]
  exact beq_eq_false_iff_ne.mpr (miss i below)

theorem slot_exact (hash : Hash) (page : BitVec 64) (blk j : Nat) (inside : j < hash.ntab blk)
    (single : ∀ i < hash.ntab blk, hash.adr blk i = page ↔ i = j) :
    memfindslot hash page blk = if Reported (hash.ntab blk) j then some j else none := by
  have scan := scan_exact (fun index => hash.adr blk index == page) (hash.ntab blk + 1) (hash.ntab blk) 0 j (by omega) inside
    fun i below => by rw [Nat.zero_add, beq_iff_eq, single i below]
  rw [memfindslot, scan, Nat.zero_add]

theorem slot_sound (hash : Hash) (page : BitVec 64) (blk j : Nat) (result : memfindslot hash page blk = some j) :
    j < hash.ntab blk ∧ hash.adr blk j = page := by
  obtain ⟨i, below, rfl, hit⟩ := scan_sound _ _ _ _ j result
  rw [Nat.zero_add] at hit ⊢
  exact ⟨below, beq_iff_eq.mp hit⟩

theorem findblk_miss (hash : Hash) (page : BitVec 64) (items : List Nat) (fuel blk : Nat) (prev : Option Nat)
    (dest : Option (Nat × Nat)) (seg : Seg hash.chain (some blk) items none) (enough : items.length ≤ fuel)
    (miss : ∀ item ∈ items, memfindslot hash page item = none) :
    memfindblk hash page fuel blk prev dest = some (.missing (items.foldl (fun dest item => memdest hash item dest) dest)) := by
  induction items generalizing fuel blk prev dest with
  | nil => cases seg
  | cons item items ih =>
      cases fuel with
      | zero => exact absurd enough (Nat.not_succ_le_zero _)
      | succ fuel =>
          obtain ⟨same, rest⟩ := seg
          cases same
          simp only [memfindblk, miss item List.mem_cons_self]
          cases next : hash.chain item with
          | none =>
              rw [next] at rest
              cases items with
              | nil => rfl
              | cons other others => cases rest.1
          | some other =>
              rw [next] at rest
              exact ih fuel other (some item) _ rest (Nat.le_of_succ_le_succ enough)
                fun item member => miss item (List.mem_cons_of_mem _ member)

theorem findblk_hit (hash : Hash) (page : BitVec 64) (front back : List Nat) (item slot fuel blk : Nat) (prev : Option Nat)
    (dest : Option (Nat × Nat)) (seg : Seg hash.chain (some blk) (front ++ item :: back) none)
    (enough : (front ++ item :: back).length ≤ fuel) (miss : ∀ other ∈ front, memfindslot hash page other = none)
    (hit : memfindslot hash page item = some slot) :
    memfindblk hash page fuel blk prev dest = some (.found item slot (front.getLast?.or prev)) := by
  induction front generalizing fuel blk prev dest with
  | nil =>
      cases fuel with
      | zero => exact absurd enough (Nat.not_succ_le_zero _)
      | succ fuel =>
          obtain ⟨same, -⟩ := seg
          cases same
          simp [memfindblk, hit]
  | cons other front ih =>
      cases fuel with
      | zero => exact absurd enough (Nat.not_succ_le_zero _)
      | succ fuel =>
          obtain ⟨same, rest⟩ := seg
          cases same
          have here := miss other List.mem_cons_self
          cases next : hash.chain other with
          | none =>
              rw [next] at rest
              cases front <;> cases rest.1
          | some after =>
              rw [next] at rest
              have later := ih fuel after (some other) (memdest hash other dest) rest (Nat.le_of_succ_le_succ enough)
                fun item member => miss item (List.mem_cons_of_mem _ member)
              simp only [memfindblk, here, next, later]
              rw [List.getLast?_cons]
              cases front.getLast? <;> rfl

theorem dest_kept (hash : Hash) (items : List Nat) (dest : Nat × Nat) :
    items.foldl (fun dest item => memdest hash item dest) (some dest) = some dest := by
  induction items with
  | nil => rfl
  | cons item items ih => simpa [memdest] using ih

theorem dest_first (hash : Hash) (items : List Nat) :
    (items.foldl (fun dest item => memdest hash item dest) none = none ∧ ∀ item ∈ items, hash.ntab item = memhasharrayitems) ∨
      ∃ item ∈ items, items.foldl (fun dest item => memdest hash item dest) none = some (item, hash.ntab item) ∧
        hash.ntab item ≠ memhasharrayitems := by
  induction items with
  | nil => exact Or.inl ⟨rfl, by simp⟩
  | cons item items ih =>
      by_cases full : hash.ntab item = memhasharrayitems
      · have skipped : memdest hash item none = none := by simp [memdest, full]
        simp only [List.foldl_cons, skipped]
        rcases ih with ⟨nowhere, all⟩ | ⟨other, member, found, room⟩
        · exact Or.inl ⟨nowhere, by simpa [full] using all⟩
        · exact Or.inr ⟨other, List.mem_cons_of_mem _ member, found, room⟩
      · have taken : memdest hash item none = some (item, hash.ntab item) := by simp [memdest, full]
        refine Or.inr ⟨item, List.mem_cons_self, ?_, full⟩
        rw [List.foldl_cons, taken, dest_kept]

theorem findroom_full (hash : Hash) (items : List Nat) (fuel : Nat) (start prev : Option Nat)
    (seg : Seg hash.chain start items none) (enough : items.length ≤ fuel)
    (full : ∀ item ∈ items, hash.ntab item = memhasharrayitems) : memfindroom hash fuel start prev = some none := by
  induction items generalizing fuel start prev with
  | nil =>
      rw [show start = none from seg]
      cases fuel <;> rfl
  | cons item items ih =>
      cases fuel with
      | zero => exact absurd enough (Nat.not_succ_le_zero _)
      | succ fuel =>
          rw [seg.1, memfindroom, full item List.mem_cons_self, if_neg (Nat.lt_irrefl _)]
          exact ih fuel _ _ seg.2 (Nat.le_of_succ_le_succ enough) fun other member => full other (List.mem_cons_of_mem _ member)

end OsZero.UserMem

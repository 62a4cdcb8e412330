import OsZero.Lib.Chains
import Mathlib.Data.List.Find

set_option autoImplicit false

namespace Buckets

open Chains

universe u v
variable {ι : Type u} {R : Type v}

-- A hash table of chains: a new entry is put in front of the chain of its key.
structure Table (ι : Type u) (R : Type v) where
  head : Nat → Option ι
  next : ι → Option ι
  fields : ι → R

def Table.load (table : Table ι R) (size key : Nat) : Option (Option ι) :=
  if key < size then some (table.head key) else none

def Table.store [DecidableEq ι] (table : Table ι R) (size key : Nat) (item : ι) : Option (Table ι R) :=
  if key < size then some { table with head := Function.update table.head key (some item) } else none

-- The fields of an entry are set before it is linked.
def Table.set [DecidableEq ι] (table : Table ι R) (item : ι) (fields : R) (link : Option ι) : Table ι R :=
  { table with next := Function.update table.next item link, fields := Function.update table.fields item fields }

def Table.walk (table : Table ι R) (p : R → Bool) (fuel : Nat) (start : Option ι) : Option (Option ι) :=
  search table.next (fun item => p (table.fields item)) fuel start

-- The entries, the newest first, are filed under the keys of their fields.
structure Filed (table : Table ι R) (key : R → Nat) (entries : List (ι × R)) : Prop where
  nodup : (entries.map Prod.fst).Nodup
  fields : ∀ entry ∈ entries, table.fields entry.1 = entry.2
  seg : ∀ bin, Seg table.next (table.head bin) ((entries.filter fun entry => key entry.2 = bin).map Prod.fst) none

theorem filed_empty (table : Table ι R) (key : R → Nat) (empty : ∀ bin, table.head bin = none) : Filed table key [] :=
  ⟨List.nodup_nil, fun _ none => absurd none List.not_mem_nil, empty⟩

theorem filed_push [DecidableEq ι] (table : Table ι R) (size : Nat) (key : R → Nat) (entries : List (ι × R)) (item : ι) (fields : R)
    (filed : Filed table key entries) (fresh : item ∉ entries.map Prod.fst) (inside : key fields < size) :
    ∃ after, (table.set item fields (table.head (key fields))).store size (key fields) item = some after ∧
      Filed after key ((item, fields) :: entries) := by
  refine ⟨_, if_pos inside, List.nodup_cons.mpr ⟨fresh, filed.nodup⟩, fun entry member => ?_, fun bin => ?_⟩
  · rcases List.mem_cons.mp member with rfl | before
    · exact Function.update_self ..
    · have other : entry.1 ≠ item := fun same => fresh (same ▸ List.mem_map_of_mem before)
      exact (Function.update_of_ne other ..).trans (filed.fields entry before)
  · have kept : ∀ bin, Seg (Function.update table.next item (table.head (key fields))) (table.head bin)
        ((entries.filter fun entry => key entry.2 = bin).map Prod.fst) none :=
      fun bin => seg_update _ _ _ _ _ _ (filed.seg bin) fun member => fresh (List.map_subset _ (List.filter_sublist.subset) member)
    by_cases here : key fields = bin
    · subst here
      have first : decide (key fields = key fields) = true := decide_eq_true rfl
      rw [List.filter_cons_of_pos (by exact first)]
      have link : Function.update table.next item (table.head (key fields)) item = table.head (key fields) := Function.update_self ..
      refine ⟨Function.update_self .., ?_⟩
      refine (congrArg (fun start => Seg (Function.update table.next item (table.head (key fields))) start _ none) link).mpr ?_
      exact kept (key fields)
    · rw [List.filter_cons_of_neg (by rw [decide_eq_true_eq]; exact here)]
      have same : Function.update table.head (key fields) (some item) bin = table.head bin := Function.update_of_ne (Ne.symm here) ..
      refine (congrArg (fun start => Seg (Function.update table.next item (table.head (key fields))) start _ none) same).mpr ?_
      exact kept bin

theorem walk_chain (table : Table ι R) (p : R → Bool) (entries : List (ι × R)) (fuel : Nat) (start : Option ι)
    (seg : Seg table.next start (entries.map Prod.fst) none) (fields : ∀ entry ∈ entries, table.fields entry.1 = entry.2)
    (enough : entries.length < fuel) : table.walk p fuel start = some ((entries.find? fun entry => p entry.2).map Prod.fst) := by
  rw [Table.walk, search_seg table.next _ fuel start _ seg (by rw [List.length_map]; exact enough), List.find?_map]
  refine congrArg (fun found => some (Option.map Prod.fst found)) (List.find?_congr fun entry member => ?_)
  rw [Function.comp_apply, fields entry member]

-- The newest entry of the chain that passes the test.
theorem walk_filed (table : Table ι R) (key : R → Nat) (entries : List (ι × R)) (filed : Filed table key entries) (p : R → Bool)
    (bin fuel : Nat) (enough : entries.length < fuel) :
    table.walk p fuel (table.head bin) = some ((entries.find? fun entry => key entry.2 = bin ∧ p entry.2 = true).map Prod.fst) := by
  rw [walk_chain table p _ fuel _ (filed.seg bin) (fun entry member => filed.fields entry (List.mem_of_mem_filter member))
    (Nat.lt_of_le_of_lt (List.length_filter_le _ _) enough), List.find?_filter]
  refine congrArg (fun found => some (Option.map Prod.fst found)) (List.find?_congr fun entry _ => ?_)
  simp only [decide_eq_true_eq]

-- A test that only entries of the chain pass finds the newest entry of all that passes it.
theorem walk_latest (table : Table ι R) (key : R → Nat) (entries : List (ι × R)) (filed : Filed table key entries) (p : R → Bool)
    (bin fuel : Nat) (enough : entries.length < fuel) (only : ∀ fields, p fields = true → key fields = bin) :
    table.walk p fuel (table.head bin) = some ((entries.find? fun entry => p entry.2).map Prod.fst) := by
  rw [walk_filed table key entries filed p bin fuel enough]
  refine congrArg (fun found => some (Option.map Prod.fst found)) (List.find?_congr fun entry _ => ?_)
  cases found : p entry.2 with
  | true => exact decide_eq_true ⟨only entry.2 found, rfl⟩
  | false => exact decide_eq_false fun both => Bool.false_ne_true both.2

-- An entry that passes the weaker test is ahead of all that pass the stronger one. Then
-- the weaker test finds another entry than the stronger one.
def Ahead (p q : R → Bool) (entries : List (ι × R)) : Prop :=
  ∃ newer entry older, entries = newer ++ entry :: older ∧ p entry.2 = true ∧ ∀ other ∈ newer ++ [entry], q other.2 = false

theorem ahead_cons (p q : R → Bool) (first : ι × R) (entries : List (ι × R)) :
    Ahead p q (first :: entries) ↔ q first.2 = false ∧ (p first.2 = true ∨ Ahead p q entries) := by
  constructor
  · rintro ⟨newer, entry, older, split, passes, none⟩
    cases newer with
    | nil =>
      obtain ⟨rfl, rfl⟩ := List.cons.inj split
      exact ⟨none first (List.mem_singleton_self first), .inl passes⟩
    | cons head newer =>
      obtain ⟨rfl, rfl⟩ := List.cons.inj split
      exact ⟨none first List.mem_cons_self, .inr ⟨newer, entry, older, rfl, passes, fun other member => none other (List.mem_cons_of_mem _ member)⟩⟩
  · rintro ⟨missed, passes | ⟨newer, entry, older, rfl, passes, none⟩⟩
    · exact ⟨[], first, entries, rfl, passes, fun other member => List.mem_singleton.mp member ▸ missed⟩
    · refine ⟨first :: newer, entry, older, rfl, passes, fun other member => ?_⟩
      rcases List.mem_cons.mp member with rfl | later
      · exact missed
      · exact none other later

section Tests

variable (p q : R → Bool) (entries : List (ι × R))

theorem find_same (weaker : ∀ fields, q fields = true → p fields = true) (none : ¬Ahead p q entries) :
    (entries.find? fun entry => p entry.2) = entries.find? fun entry => q entry.2 := by
  induction entries with
  | nil => rfl
  | cons first entries ih =>
    rw [ahead_cons] at none
    cases strong : q first.2 with
    | true => rw [List.find?_cons_of_pos (by exact weaker _ strong), List.find?_cons_of_pos (by exact strong)]
    | false =>
      have weak : ¬p first.2 = true := fun passes => none ⟨strong, .inl passes⟩
      rw [List.find?_cons_of_neg (by exact weak), ih fun ahead => none ⟨strong, .inr ahead⟩]
      exact (List.find?_cons_of_neg (by rw [strong]; exact Bool.false_ne_true)).symm

theorem find_ahead (nodup : (entries.map Prod.fst).Nodup) (ahead : Ahead p q entries) :
    (entries.find? fun entry => p entry.2).map Prod.fst ≠ (entries.find? fun entry => q entry.2).map Prod.fst := by
  induction entries with
  | nil =>
    obtain ⟨newer, entry, older, split, -⟩ := ahead
    exact absurd split.symm (List.append_ne_nil_of_right_ne_nil newer (List.cons_ne_nil entry older))
  | cons first entries ih =>
    obtain ⟨outside, rest⟩ := List.nodup_cons.mp nodup
    obtain ⟨strong, later⟩ := (ahead_cons p q first entries).mp ahead
    have missed : (first :: entries).find? (fun entry => q entry.2) = entries.find? fun entry => q entry.2 :=
      List.find?_cons_of_neg (by rw [strong]; exact Bool.false_ne_true)
    rw [missed]
    cases weak : p first.2 with
    | true =>
      rw [List.find?_cons_of_pos (by exact weak)]
      intro same
      obtain ⟨entry, found, here⟩ := Option.map_eq_some_iff.mp same.symm
      exact outside (here ▸ List.mem_map_of_mem (List.mem_of_find?_eq_some found))
    | false =>
      rw [List.find?_cons_of_neg (by rw [weak]; exact Bool.false_ne_true)]
      exact ih rest (later.resolve_left (by rw [weak]; exact Bool.false_ne_true))

theorem find_passes : ((entries.find? fun entry => q entry.2).filter fun entry => q entry.2) = entries.find? fun entry => q entry.2 := by
  cases found : entries.find? fun entry => q entry.2 with
  | none => rfl
  | some entry => exact Option.filter_some_pos (List.find?_some (p := fun entry : ι × R => q entry.2) found)

-- What the weaker test finds does not pass the stronger one.
theorem find_ahead_none (ahead : Ahead p q entries) : ((entries.find? fun entry => p entry.2).filter fun entry => q entry.2) = none := by
  induction entries with
  | nil =>
    obtain ⟨newer, entry, older, split, -⟩ := ahead
    exact absurd split.symm (List.append_ne_nil_of_right_ne_nil newer (List.cons_ne_nil entry older))
  | cons first entries ih =>
    obtain ⟨strong, later⟩ := (ahead_cons p q first entries).mp ahead
    cases weak : p first.2 with
    | true =>
      rw [List.find?_cons_of_pos (by exact weak)]
      exact Option.filter_some_neg strong
    | false =>
      rw [List.find?_cons_of_neg (by rw [weak]; exact Bool.false_ne_true)]
      exact ih (later.resolve_left (by rw [weak]; exact Bool.false_ne_true))

end Tests

end Buckets

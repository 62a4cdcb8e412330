import OsZero.Lib.Shelves
import OsZero.Lib.Chains

set_option autoImplicit false

namespace Links

open Chains

universe u
variable {α : Type u}

theorem ended_seg (heap : Heap α) (items : List α) (ended : Ended heap items) : Seg heap.next items.head? items none := by
  obtain ⟨path, -, back, -⟩ := ended
  induction items with
  | nil => rfl
  | cons item items ih =>
    refine ⟨rfl, ?_⟩
    cases items with
    | nil => exact back item rfl
    | cons next rest =>
      obtain ⟨link, later⟩ := List.isChain_cons_cons.mp path
      have here : heap.next item = some next := link.1
      rw [here]
      exact ih later fun last atLast => back last (by rw [List.getLast?_cons_cons]; exact atLast)

-- The items, the newest first, in doubly linked chains by their keys.
structure Binned (heap : Heap α) (head : Nat → Option α) (key : α → Nat) (items : List α) : Prop where
  nodup : items.Nodup
  ended : ∀ bin, Ended heap (items.filter fun item => key item = bin)
  first : ∀ bin, head bin = (items.filter fun item => key item = bin).head?

theorem binned_empty (heap : Heap α) (head : Nat → Option α) (key : α → Nat) (empty : ∀ bin, head bin = none) : Binned heap head key [] :=
  ⟨List.nodup_nil, fun _ => ended_nil heap, empty⟩

theorem binned_seg (heap : Heap α) (head : Nat → Option α) (key : α → Nat) (items : List α) (binned : Binned heap head key items) (bin : Nat) :
    Seg heap.next (head bin) (items.filter fun item => key item = bin) none := by
  rw [binned.first bin]
  exact ended_seg heap _ (binned.ended bin)

variable [DecidableEq α]

theorem binned_push (heap : Heap α) (head : Nat → Option α) (key : α → Nat) (items : List α) (item : α) (binned : Binned heap head key items)
    (absent : item ∉ items) :
    Binned (pushFront (heap.setPrev item none) item (head (key item))) (Function.update head (key item) (some item)) key (item :: items) := by
  have bare : ∀ bin, Ended (heap.setPrev item none) (items.filter fun item => key item = bin) := by
    intro bin
    refine ended_frame heap _ _ (binned.ended bin) fun member inside => ⟨rfl, set_prev_elsewhere heap item member none fun same => ?_⟩
    exact absent (same ▸ List.mem_of_mem_filter inside)
  have outside : ∀ bin, item ∉ items.filter fun item => key item = bin := fun bin inside => absent (List.mem_of_mem_filter inside)
  refine ⟨List.nodup_cons.mpr ⟨absent, binned.nodup⟩, fun bin => ?_, fun bin => ?_⟩ <;> rw [List.filter_cons] <;> by_cases here : key item = bin
  · rw [if_pos (decide_eq_true here), here, binned.first bin]
    exact ended_push _ _ item (bare bin) (outside bin) (set_prev_here ..)
  · rw [if_neg (by rw [decide_eq_true_eq]; exact here), binned.first (key item)]
    refine ended_frame _ _ _ (bare bin) fun member inside => ?_
    have other : member ∉ items.filter fun other => key other = key item := by
      intro both
      have one := of_decide_eq_true (List.mem_filter.mp inside).2
      have two := of_decide_eq_true (List.mem_filter.mp both).2
      exact here (two.symm.trans one)
    obtain ⟨next, prev⟩ := push_elsewhere (heap.setPrev item none) _ item member other
    exact ⟨next fun same => absent (same ▸ List.mem_of_mem_filter inside), prev⟩
  · rw [if_pos (decide_eq_true here), here, Function.update_self]
    rfl
  · rw [if_neg (by rw [decide_eq_true_eq]; exact here), Function.update_of_ne (Ne.symm here)]
    exact binned.first bin

theorem binned_unlink (heap : Heap α) (head : Nat → Option α) (key : α → Nat) (items : List α) (item : α) (binned : Binned heap head key items)
    (member : item ∈ items) :
    Binned (unlink heap item) (Function.update head (key item) (unlinkHead heap item (head (key item)))) key (items.erase item) := by
  obtain ⟨before, after, -, split, erased⟩ := List.exists_erase_eq member
  have chain : (items.filter fun other => key other = key item) =
      (before.filter fun other => key other = key item) ++ item :: after.filter fun other => key other = key item := by
    rw [split, List.filter_append, List.filter_cons, if_pos (decide_eq_true rfl)]
  have ended := binned.ended (key item)
  have first := binned.first (key item)
  rw [chain] at ended first
  have rest : ∀ bin, ((items.erase item).filter fun other => key other = bin) =
      (before.filter fun other => key other = bin) ++ after.filter fun other => key other = bin := by
    intro bin
    rw [erased, List.filter_append]
  have others : ∀ bin, key item ≠ bin → ((items.erase item).filter fun other => key other = bin) = items.filter fun other => key other = bin := by
    intro bin different
    rw [rest, split, List.filter_append, List.filter_cons, if_neg (by rw [decide_eq_true_eq]; exact different)]
  refine ⟨binned.nodup.erase item, fun bin => ?_, fun bin => ?_⟩ <;> by_cases here : key item = bin
  · rw [← here, rest]
    exact ended_unlink heap _ _ item ended
  · rw [others bin here]
    refine ended_frame heap _ _ (binned.ended bin) fun other inside => ?_
    refine unlink_elsewhere heap _ _ item other ended fun both => ?_
    rw [← List.filter_append] at both
    have one := of_decide_eq_true (List.mem_filter.mp inside).2
    have two := of_decide_eq_true (List.mem_filter.mp both).2
    exact here (two.symm.trans one)
  · rw [← here, rest, Function.update_self, first]
    exact unlink_head heap _ _ item ended
  · rw [others bin here, Function.update_of_ne (Ne.symm here)]
    exact binned.first bin

end Links

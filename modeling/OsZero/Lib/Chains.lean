import Mathlib.Data.List.Nodup
import Mathlib.Logic.Function.Basic

set_option autoImplicit false

namespace Chains

universe u v
variable {α : Type u}

-- A singly linked list through a link field: the items met on the way from one
-- pointer to another.
def Seg (next : α → Option α) : Option α → List α → Option α → Prop
  | start, [], stop => start = stop
  | start, item :: items, stop => start = some item ∧ Seg next (next item) items stop

theorem seg_append (next : α → Option α) (start stop : Option α) (front back : List α) :
    Seg next start (front ++ back) stop ↔ ∃ middle, Seg next start front middle ∧ Seg next middle back stop := by
  induction front generalizing start with
  | nil => simp [Seg]
  | cons item front ih => simp only [List.cons_append, Seg, ih, exists_and_left, and_assoc]

theorem seg_head (next : α → Option α) (item : α) (items : List α) (seg : Seg next (some item) items none) :
    ∃ rest, items = item :: rest := by
  cases items with
  | nil => cases seg
  | cons first rest =>
      cases seg.1
      exact ⟨rest, rfl⟩

theorem seg_starts (next : α → Option α) (start stop : Option α) (items : List α) (last : α) (seg : Seg next start (items ++ [last]) stop) :
    ∃ item, start = some item := by
  cases items with
  | nil => exact ⟨last, seg.1⟩
  | cons item items => exact ⟨item, seg.1⟩

theorem seg_frame (next after : α → Option α) (start stop : Option α) (items : List α) (seg : Seg next start items stop)
    (same : ∀ item ∈ items, after item = next item) : Seg after start items stop := by
  induction items generalizing start with
  | nil => exact seg
  | cons item items ih =>
      refine ⟨seg.1, ?_⟩
      rw [same item List.mem_cons_self]
      exact ih _ seg.2 fun other member => same other (List.mem_cons_of_mem _ member)

theorem seg_update [DecidableEq α] (next : α → Option α) (start stop link : Option α) (items : List α) (changed : α)
    (seg : Seg next start items stop) (outside : changed ∉ items) : Seg (Function.update next changed link) start items stop := by
  apply seg_frame next _ start stop items seg
  intro item member
  have different : item ≠ changed := fun same => outside (same ▸ member)
  exact Function.update_of_ne different _ _

theorem seg_redirect [DecidableEq α] (next : α → Option α) (start stop link : Option α) (items : List α) (last : α)
    (seg : Seg next start (items ++ [last]) stop) (nodup : (items ++ [last]).Nodup) :
    Seg (Function.update next last link) start (items ++ [last]) link := by
  obtain ⟨middle, front, back⟩ := (seg_append next start stop items [last]).mp seg
  have outside : last ∉ items := by
    intro member
    exact (List.nodup_append.mp nodup).2.2 last member last (List.mem_singleton_self last) rfl
  refine (seg_append _ start link items [last]).mpr ⟨middle, seg_update next start middle link items last front outside, ?_⟩
  exact ⟨back.1, by simp [Seg]⟩

theorem seg_unique (next : α → Option α) (start : Option α) (items others : List α) (first : Seg next start items none)
    (second : Seg next start others none) : items = others := by
  induction items generalizing start others with
  | nil =>
      cases others with
      | nil => rfl
      | cons other others =>
          have started : start = none := first
          rw [started] at second
          cases second.1
  | cons item items ih =>
      cases others with
      | nil =>
          have started : start = none := second
          rw [started] at first
          cases first.1
      | cons other others =>
          obtain ⟨here, rest⟩ := first
          obtain ⟨there, rest'⟩ := second
          obtain rfl : item = other := Option.some.inj (here.symm.trans there)
          rw [ih (next item) others rest rest']

-- A list that ends does not come back to an item.
theorem seg_nodup (next : α → Option α) (start : Option α) (items : List α) (seg : Seg next start items none) : items.Nodup := by
  induction items generalizing start with
  | nil => exact List.nodup_nil
  | cons item items ih =>
      refine List.nodup_cons.mpr ⟨fun again => ?_, ih (next item) seg.2⟩
      obtain ⟨front, back, rfl⟩ := List.append_of_mem again
      obtain ⟨middle, -, behind⟩ := (seg_append next (next item) none front (item :: back)).mp seg.2
      have whole : Seg next (some item) (item :: (front ++ item :: back)) none := ⟨rfl, seg.2⟩
      have later : Seg next (some item) (item :: back) none := ⟨rfl, behind.2⟩
      have lengths := congrArg List.length (seg_unique next _ _ _ whole later)
      rw [List.length_cons, List.length_append, List.length_cons] at lengths
      omega

-- The items that a walk of at most fuel steps meets.
def follow (next : α → Option α) : Nat → Option α → List α
  | _, none => []
  | 0, some _ => []
  | fuel + 1, some item => item :: follow next fuel (next item)

theorem follow_seg (next : α → Option α) (fuel : Nat) (start : Option α) (items : List α) (seg : Seg next start items none)
    (enough : items.length ≤ fuel) : follow next fuel start = items := by
  induction items generalizing start fuel with
  | nil =>
      cases fuel <;> rw [show start = none from seg] <;> rfl
  | cons item items ih =>
      cases fuel with
      | zero => exact absurd enough (Nat.not_succ_le_zero _)
      | succ fuel => rw [seg.1, follow, ih fuel _ seg.2 (Nat.le_of_succ_le_succ enough)]

-- while (item && !p(item)) item = item->next; none if the fuel runs out.
def search (next : α → Option α) (p : α → Bool) : Nat → Option α → Option (Option α)
  | 0, _ => none
  | _ + 1, none => some none
  | fuel + 1, some item => if p item then some (some item) else search next p fuel (next item)

theorem search_seg (next : α → Option α) (p : α → Bool) (fuel : Nat) (start : Option α) (items : List α) (seg : Seg next start items none)
    (enough : items.length < fuel) : search next p fuel start = some (items.find? p) := by
  induction items generalizing fuel start with
  | nil =>
    cases fuel with
    | zero => contradiction
    | succ fuel =>
      cases seg
      rfl
  | cons item items ih =>
    cases fuel with
    | zero => contradiction
    | succ fuel =>
      obtain ⟨rfl, rest⟩ := seg
      rw [search]
      cases found : p item with
      | true => rw [if_pos rfl, List.find?_cons_of_pos found]
      | false =>
        rw [if_neg Bool.false_ne_true, List.find?_cons_of_neg (by rw [found]; exact Bool.false_ne_true)]
        exact ih fuel (next item) rest (Nat.lt_of_succ_lt_succ enough)

def toFront (item : α) (front back : List α) : List α := item :: (front ++ back)

theorem seg_to_front [DecidableEq α] (next : α → Option α) (start : Option α) (front back : List α) (last item : α)
    (seg : Seg next start (front ++ [last] ++ item :: back) none) (nodup : (front ++ [last] ++ item :: back).Nodup) :
    Seg (Function.update (Function.update next last (next item)) item start) (some item) (toFront item (front ++ [last]) back) none := by
  obtain ⟨middle, before, behind⟩ := (seg_append next start none (front ++ [last]) (item :: back)).mp seg
  obtain ⟨frontNodup, backNodup, apart⟩ := List.nodup_append.mp nodup
  have itemFront : item ∉ front ++ [last] := fun member => apart item member item List.mem_cons_self rfl
  have lastBack : last ∉ back := fun member => apart last (by simp) last (List.mem_cons_of_mem _ member) rfl
  have itemBack : item ∉ back := (List.nodup_cons.mp backNodup).1
  refine ⟨rfl, ?_⟩
  rw [Function.update_self]
  refine (seg_append _ start none (front ++ [last]) back).mpr ⟨next item, ?_, ?_⟩
  · exact seg_update _ _ _ _ _ _ (seg_redirect next start middle (next item) front last before frontNodup) itemFront
  · exact seg_update _ _ _ _ _ _ (seg_update _ _ _ _ _ _ behind.2 lastBack) itemBack

theorem seg_consecutive (next : Nat → Option Nat) (first count : Nat) (linked : ∀ item, first ≤ item → item < first + count → next item = some (item + 1))
    (ends : next (first + count) = none) : Seg next (some first) (List.range' first (count + 1)) none := by
  induction count generalizing first with
  | zero => exact ⟨rfl, by simpa [Seg] using ends⟩
  | succ count ih =>
      rw [List.range'_succ]
      refine ⟨rfl, ?_⟩
      rw [linked first (Nat.le_refl _) (by omega)]
      refine ih (first + 1) (fun item low high => linked item (by omega) (by omega)) ?_
      rw [← ends]
      congr 1
      omega

-- A family of lists over one link field, with a property of the items of each.
structure Stacked {β : Type v} (next : α → Option α) (head : β → Option α) (items : β → List α) (good : β → α → Prop) : Prop where
  seg : ∀ bin, Seg next (head bin) (items bin) none
  nodup : ∀ bin, (items bin).Nodup
  good : ∀ bin, ∀ item ∈ items bin, good bin item

theorem stacked_frame {β : Type v} (next after : α → Option α) (head tops : β → Option α) (items : β → List α)
    (good kept : β → α → Prop) (stacked : Stacked next head items good) (same : ∀ bin, tops bin = head bin)
    (links : ∀ bin, ∀ item ∈ items bin, after item = next item) (keeps : ∀ bin, ∀ item ∈ items bin, kept bin item) :
    Stacked after tops items kept := by
  refine ⟨fun bin => ?_, stacked.nodup, keeps⟩
  rw [same bin]
  exact seg_frame next after _ _ _ (stacked.seg bin) (links bin)

theorem stacked_push {β : Type v} [DecidableEq β] (next after : α → Option α) (head tops : β → Option α) (items : β → List α)
    (good kept : β → α → Prop) (stacked : Stacked next head items good) (bin : β) (item : α) (outside : ∀ other, item ∉ items other)
    (top : tops bin = some item) (link : after item = head bin) (others : ∀ other, other ≠ bin → tops other = head other)
    (links : ∀ other, other ≠ item → after other = next other) (keeps : ∀ other, ∀ old ∈ items other, kept other old)
    (fresh : kept bin item) : Stacked after tops (Function.update items bin (item :: items bin)) kept := by
  have seg : ∀ other, Seg after (head other) (items other) none := by
    intro other
    apply seg_frame next after _ _ _ (stacked.seg other)
    exact fun old member => links old fun same => outside other (same ▸ member)
  refine ⟨fun other => ?_, fun other => ?_, fun other => ?_⟩ <;> by_cases here : other = bin
  · rw [here, Function.update_self, top]
    refine ⟨rfl, ?_⟩
    rw [link]
    exact seg bin
  · rw [Function.update_of_ne here, others other here]
    exact seg other
  · rw [here, Function.update_self]
    exact List.nodup_cons.mpr ⟨outside bin, stacked.nodup bin⟩
  · rw [Function.update_of_ne here]
    exact stacked.nodup other
  · rw [here, Function.update_self]
    intro old member
    rcases List.mem_cons.mp member with rfl | before
    · exact fresh
    · exact keeps bin old before
  · rw [Function.update_of_ne here]
    exact keeps other

theorem stacked_pop {β : Type v} [DecidableEq β] (next after : α → Option α) (head tops : β → Option α) (items : β → List α)
    (good kept : β → α → Prop) (stacked : Stacked next head items good) (bin : β) (item : α) (rest : List α)
    (front : items bin = item :: rest) (top : tops bin = next item) (others : ∀ other, other ≠ bin → tops other = head other)
    (links : ∀ old, after old = next old) (only : ∀ other, item ∈ items other → other = bin)
    (keeps : ∀ other, ∀ old ∈ items other, old ≠ item → kept other old) :
    Stacked after tops (Function.update items bin rest) kept := by
  have seg := stacked.seg bin
  have nodup := stacked.nodup bin
  rw [front] at seg nodup
  obtain ⟨gone, restNodup⟩ := List.nodup_cons.mp nodup
  refine ⟨fun other => ?_, fun other => ?_, fun other => ?_⟩ <;> by_cases here : other = bin
  · rw [here, Function.update_self, top]
    exact seg_frame next after _ _ _ seg.2 fun old _ => links old
  · rw [Function.update_of_ne here, others other here]
    exact seg_frame next after _ _ _ (stacked.seg other) fun old _ => links old
  · rw [here, Function.update_self]
    exact restNodup
  · rw [Function.update_of_ne here]
    exact stacked.nodup other
  · rw [here, Function.update_self]
    intro old member
    exact keeps bin old (by rw [front]; exact List.mem_cons_of_mem _ member) fun same => gone (same ▸ member)
  · rw [Function.update_of_ne here]
    exact fun old member => keeps other old member fun same => here (only other (same ▸ member))

end Chains

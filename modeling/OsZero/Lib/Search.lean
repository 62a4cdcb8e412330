import Mathlib.Data.List.Nodup
import Mathlib.Logic.Relation

set_option autoImplicit false

namespace Search

universe u
variable {α : Type u} (next : α → List α)

-- A depth first walk lists every cell it comes to, with the number of cells that were
-- listed when the walk came to the cell it was found from. Walk next mark sides before
-- after: standing at a cell it came to with mark cells listed, with the sides still to
-- be looked at, the walk makes the list before into after.
inductive Walk : Nat → List α → List (Nat × α) → List (Nat × α) → Prop
  | done (mark : Nat) (list : List (Nat × α)) : Walk mark [] list list
  | old {mark : Nat} {side : α} {sides : List α} {before after : List (Nat × α)} (known : side ∈ before.map Prod.snd)
      (rest : Walk mark sides before after) : Walk mark (side :: sides) before after
  | fresh {mark : Nat} {side : α} {sides : List α} {before between after : List (Nat × α)} (unknown : side ∉ before.map Prod.snd)
      (inner : Walk (before.length + 1) (next side) (before ++ [(mark, side)]) between)
      (rest : Walk mark sides between after) : Walk mark (side :: sides) before after

variable {next}

theorem listed_append (list : List (Nat × α)) (mark : Nat) (side cell : α) :
    cell ∈ (list ++ [(mark, side)]).map Prod.snd ↔ cell ∈ list.map Prod.snd ∨ cell = side := by
  simp

theorem nodup_append (list : List (Nat × α)) (mark : Nat) (side : α) (nodup : (list.map Prod.snd).Nodup) (unknown : side ∉ list.map Prod.snd) :
    ((list ++ [(mark, side)]).map Prod.snd).Nodup := by
  rw [List.map_append, List.nodup_append_comm]
  exact List.nodup_cons.mpr ⟨unknown, nodup⟩

theorem walk_unique {mark : Nat} {sides : List α} {before after other : List (Nat × α)} (walk : Walk next mark sides before after)
    (second : Walk next mark sides before other) : after = other := by
  induction walk generalizing other with
  | done => cases second; rfl
  | old known _ ih =>
      cases second with
      | old _ rest => exact ih rest
      | fresh unknown => exact absurd known unknown
  | fresh unknown _ _ inner_ih rest_ih =>
      cases second with
      | old known => exact absurd known unknown
      | fresh _ inner rest =>
          obtain rfl := inner_ih inner
          exact rest_ih rest

theorem walk_extends {mark : Nat} {sides : List α} {before after : List (Nat × α)} (walk : Walk next mark sides before after) :
    ∃ found, after = before ++ found := by
  induction walk with
  | done => exact ⟨[], (List.append_nil _).symm⟩
  | old _ _ ih => exact ih
  | fresh _ _ _ inner_ih rest_ih =>
      obtain ⟨inside, rfl⟩ := inner_ih
      obtain ⟨found, rfl⟩ := rest_ih
      exact ⟨_, by rw [List.append_assoc, List.append_assoc]⟩

theorem walk_length_le {mark : Nat} {sides : List α} {before after : List (Nat × α)} (walk : Walk next mark sides before after) :
    before.length ≤ after.length := by
  obtain ⟨found, rfl⟩ := walk_extends walk
  rw [List.length_append]
  exact Nat.le_add_right _ _

theorem walk_keeps {mark : Nat} {sides : List α} {before after : List (Nat × α)} (walk : Walk next mark sides before after) (cell : α)
    (known : cell ∈ before.map Prod.snd) : cell ∈ after.map Prod.snd := by
  obtain ⟨found, rfl⟩ := walk_extends walk
  rw [List.map_append]
  exact List.mem_append_left _ known

-- What a walk adds, it finds from the cell it stands at or from one that it came to later.
theorem walk_marks {mark : Nat} {sides : List α} {before after : List (Nat × α)} (walk : Walk next mark sides before after)
    (earlier : mark ≤ before.length) : ∃ found, after = before ++ found ∧ ∀ entry ∈ found, mark ≤ entry.1 := by
  induction walk with
  | done => exact ⟨[], (List.append_nil _).symm, fun _ inside => absurd inside List.not_mem_nil⟩
  | old _ _ ih => exact ih earlier
  | @fresh mark side _ before _ _ _ inner _ inner_ih rest_ih =>
      obtain ⟨inside, rfl, deeper⟩ := inner_ih (by simp)
      obtain ⟨found, rfl, later⟩ := rest_ih (by rw [List.length_append, List.length_append]; omega)
      refine ⟨(mark, side) :: (inside ++ found), by simp, fun entry member => ?_⟩
      rcases List.mem_cons.mp member with rfl | member
      · exact Nat.le_refl _
      · rcases List.mem_append.mp member with member | member
        · exact Nat.le_trans (by omega) (deeper entry member)
        · exact later entry member

theorem walk_nodup {mark : Nat} {sides : List α} {before after : List (Nat × α)} (walk : Walk next mark sides before after)
    (nodup : (before.map Prod.snd).Nodup) : (after.map Prod.snd).Nodup := by
  induction walk with
  | done => exact nodup
  | old _ _ ih => exact ih nodup
  | fresh unknown _ _ inner_ih rest_ih =>
      apply rest_ih
      apply inner_ih
      exact nodup_append _ _ _ nodup unknown

-- What a set that the sides lead into and no step leads out of, a walk does not leave.
theorem walk_within (inside : α → Prop) (closed : ∀ cell, inside cell → ∀ side ∈ next cell, inside side) {mark : Nat} {sides : List α}
    {before after : List (Nat × α)} (walk : Walk next mark sides before after) (start : ∀ side ∈ sides, inside side)
    (listed : ∀ cell ∈ before.map Prod.snd, inside cell) : ∀ cell ∈ after.map Prod.snd, inside cell := by
  induction walk with
  | done => exact listed
  | old _ _ ih => exact ih (fun side member => start side (List.mem_cons_of_mem _ member)) listed
  | @fresh _ side _ _ _ _ _ _ _ inner_ih rest_ih =>
      have first : inside side := start side List.mem_cons_self
      apply rest_ih (fun side member => start side (List.mem_cons_of_mem _ member))
      apply inner_ih (closed side first)
      intro cell member
      rcases (listed_append _ _ _ _).mp member with member | rfl
      · exact listed cell member
      · exact first

-- A walk leaves none of its sides unlisted, and none of a cell that it lists.
theorem walk_closes {mark : Nat} {sides : List α} {before after : List (Nat × α)} (walk : Walk next mark sides before after) :
    (∀ side ∈ sides, side ∈ after.map Prod.snd) ∧
      ∀ cell ∈ after.map Prod.snd, cell ∉ before.map Prod.snd → ∀ side ∈ next cell, side ∈ after.map Prod.snd := by
  induction walk with
  | done => exact ⟨fun _ member => absurd member List.not_mem_nil, fun cell member fresh => absurd member fresh⟩
  | old known rest ih =>
      refine ⟨fun side member => ?_, ih.2⟩
      rcases List.mem_cons.mp member with rfl | member
      · exact walk_keeps rest _ known
      · exact ih.1 side member
  | @fresh _ side _ before between _ unknown inner rest inner_ih rest_ih =>
      have listed : side ∈ between.map Prod.snd := walk_keeps inner side (by simp)
      constructor
      · intro other member
        rcases List.mem_cons.mp member with rfl | member
        · exact walk_keeps rest _ listed
        · exact rest_ih.1 other member
      · intro cell member fresh other beside
        by_cases within : cell ∈ between.map Prod.snd
        · apply walk_keeps rest
          by_cases first : cell = side
          · subst first
            exact inner_ih.1 other beside
          · refine inner_ih.2 cell within (fun listed => ?_) other beside
            exact ((listed_append _ _ _ _).mp listed).elim fresh first
        · exact rest_ih.2 cell member within other beside

-- A walk from a cell that its sides lead back to lists just what the cell leads to.
theorem walk_component (cell : α) (back : ∀ side ∈ next cell, cell ∈ next side) {list : List (Nat × α)}
    (walk : Walk next 0 (next cell) [] list) (sides : next cell ≠ []) (other : α) :
    other ∈ list.map Prod.snd ↔ Relation.ReflTransGen (fun one other => other ∈ next one) cell other := by
  obtain ⟨all, closed⟩ := walk_closes walk
  constructor
  · apply walk_within (Relation.ReflTransGen (fun one other => other ∈ next one) cell) (fun one led side beside => led.tail beside) walk
    · exact fun side beside => .single beside
    · exact fun _ member => absurd member List.not_mem_nil
  · intro led
    induction led with
    | refl =>
        obtain ⟨side, beside⟩ := List.exists_mem_of_ne_nil _ sides
        exact closed side (all side beside) List.not_mem_nil cell (back side beside)
    | tail _ beside ih => exact closed _ ih List.not_mem_nil _ beside

theorem walk_alone (cell : α) {list : List (Nat × α)} (walk : Walk next 0 (next cell) [] list) (alone : next cell = []) : list = [] := by
  rw [alone] at walk
  cases walk
  rfl

end Search

import OsZero.Lib.Circles
import OsZero.Lib.Runs

set_option autoImplicit false

namespace OsZero.Deq.Circular

open Circles Runs

universe u
variable {α : Type u} [DecidableEq α]

def listinit (heap : Heap α) (item : α) : Heap α := (heap.setNext item item).setPrev item item

-- The macros' arguments are expressions, which each of the stores evaluates anew.
def listadd (heap : Heap α) (item : α) (item1 item2 : Heap α → α) : Heap α :=
  let heap := heap.setPrev (item2 heap) item
  let heap := heap.setNext item (item2 heap)
  let heap := heap.setPrev item (item1 heap)
  heap.setNext (item1 heap) item

def listaddafter (heap : Heap α) (item1 item2 : α) : Heap α := listadd heap item1 (fun _ => item2) fun heap => heap.next item2

def listaddbefore (heap : Heap α) (item1 item2 : α) : Heap α := listadd heap item1 (fun heap => heap.prev item2) fun _ => item2

def listdelbetween (heap : Heap α) (item1 item2 : Heap α → α) : Heap α :=
  let heap := heap.setPrev (item2 heap) (item1 heap)
  heap.setNext (item1 heap) (item2 heap)

def listdel (heap : Heap α) (item : α) : Heap α := listdelbetween heap (fun heap => heap.prev item) fun heap => heap.next item

def listreplace (heap : Heap α) (item1 item2 : α) : Heap α :=
  let heap := heap.setNext item2 (heap.next item1)
  let heap := heap.setPrev (heap.next item2) item2
  let heap := heap.setPrev item2 (heap.prev item1)
  heap.setNext (heap.prev item2) item2

def listreplaceinit (heap : Heap α) (item1 item2 : α) : Heap α := listinit (listreplace heap item1 item2) item1

def listdelinit (heap : Heap α) (item1 : α) : Heap α := listinit (listdel heap item1) item1

def listmoveafter (heap : Heap α) (item1 item2 : α) : Heap α := listaddafter (listdel heap item1) item1 item2

def listmovebefore (heap : Heap α) (item1 item2 : α) : Heap α := listaddbefore (listdel heap item1) item1 item2

def listisempty (heap : Heap α) (item : α) : Bool := heap.next item == item

def listrotleft (heap : Heap α) (item : α) : Heap α :=
  if listisempty heap item = false then listmovebefore heap (heap.next item) item else heap

def listiter (heap : Heap α) (item : α) (fuel : Nat) : Option (List α) := walk heap.next item fuel (heap.next item)

def listiterrev (heap : Heap α) (item : α) (fuel : Nat) : Option (List α) := walk heap.prev item fuel (heap.prev item)

inductive Op (α : Type u) where
  | init (item : α)
  | addafter (item1 item2 : α)
  | addbefore (item1 item2 : α)
  | del (item : α)
  | delinit (item : α)
  | replace (item1 item2 : α)
  | replaceinit (item1 item2 : α)
  | moveafter (item1 item2 : α)
  | movebefore (item1 item2 : α)
  | rotleft (item : α)

def step (heap : Heap α) : Op α → Heap α
  | .init item => listinit heap item
  | .addafter item1 item2 => listaddafter heap item1 item2
  | .addbefore item1 item2 => listaddbefore heap item1 item2
  | .del item => listdel heap item
  | .delinit item => listdelinit heap item
  | .replace item1 item2 => listreplace heap item1 item2
  | .replaceinit item1 item2 => listreplaceinit heap item1 item2
  | .moveafter item1 item2 => listmoveafter heap item1 item2
  | .movebefore item1 item2 => listmovebefore heap item1 item2
  | .rotleft item => listrotleft heap item

-- What the comments of the header say that the macros do.
def meant (rounds : Rounds α) : Op α → Rounds α
  | .init item => alone rounds item
  | .addafter item1 item2 => behind rounds item1 item2
  | .addbefore item1 item2 => before rounds item1 item2
  | .del item => without rounds item
  | .delinit item => alone (without rounds item) item
  | .replace item1 item2 => instead rounds item1 item2
  | .replaceinit item1 item2 => alone (instead rounds item1 item2) item1
  | .moveafter item1 item2 => behind (without rounds item1) item1 item2
  | .movebefore item1 item2 => before (without rounds item1) item1 item2
  | .rotleft item =>
      if rounds.turn item = item then rounds else before (without rounds (rounds.turn item)) (rounds.turn item) item

-- An item that is put in comes alone or from no circle.
def Legal (rounds : Rounds α) : Op α → Prop
  | .init item => rounds.turn item = item
  | .addafter item1 item2 | .addbefore item1 item2 => rounds.turn item1 = item1 ∧ item1 ≠ item2 ∧ item2 ∈ rounds.linked
  | .del item | .delinit item | .rotleft item => item ∈ rounds.linked
  | .replace item1 item2 | .replaceinit item1 item2 => item1 ∈ rounds.linked ∧ rounds.turn item2 = item2 ∧ item1 ≠ item2
  | .moveafter item1 item2 | .movebefore item1 item2 => item1 ∈ rounds.linked ∧ item2 ∈ rounds.linked ∧ item1 ≠ item2

def Sound (rounds : Rounds α) : Op α → Prop
  | .addbefore _ _ | .movebefore _ _ => False
  | .rotleft item => rounds.turn item = item
  | _ => True

section Steps

variable (heap : Heap α) (rounds : Rounds α) (item anchor : α)

theorem init_carries (carries : Carries heap rounds) (fixed : rounds.turn item = item) : Carries (listinit heap item) (alone rounds item) := by
  obtain ⟨next, prev, loose⟩ := carries
  have injective : ∀ one two, rounds.turn one = rounds.turn two → one = two := fun one two same => rounds.turn.injective same
  constructor
  · intro other member
    simp only [listinit, alone, set_prev_next, set_next_next, Set.mem_insert_iff] at member ⊢
    grind
  · intro other member
    simp only [listinit, alone, set_prev_prev, set_next_prev, Set.mem_insert_iff] at member ⊢
    grind
  · intro other outside
    exact loose other fun member => outside (Set.mem_insert_of_mem item member)

theorem addafter_carries (carries : Carries heap rounds) (fixed : rounds.turn item = item) (apart : item ≠ anchor)
    (member : anchor ∈ rounds.linked) : Carries (listaddafter heap item anchor) (behind rounds item anchor) := by
  have injective : ∀ one two, rounds.turn one = rounds.turn two → one = two := fun one two same => rounds.turn.injective same
  obtain ⟨next, prev, loose⟩ := carries
  have after := next anchor member
  constructor
  · intro other inside
    rw [behind_turn rounds item anchor other fixed]
    simp only [behind, Set.mem_insert_iff] at inside
    simp only [listaddafter, listadd, set_prev_next, set_next_next]
    grind
  · intro other inside
    rw [behind_turn rounds item anchor other fixed]
    simp only [behind, Set.mem_insert_iff] at inside
    simp only [listaddafter, listadd, set_prev_next, set_prev_prev, set_next_prev]
    grind
  · intro other outside
    simp only [behind, Set.mem_insert_iff, not_or] at outside
    rw [behind_turn rounds item anchor other fixed]
    grind

theorem del_carries (carries : Carries heap rounds) (member : item ∈ rounds.linked) :
    Carries (listdel heap item) (without rounds item) := by
  have injective : ∀ one two, rounds.turn one = rounds.turn two → one = two := fun one two same => rounds.turn.injective same
  obtain ⟨inside, back⟩ := back_linked heap rounds item carries member
  have around : rounds.turn (rounds.turn.symm item) = item := Equiv.apply_symm_apply _ _
  obtain ⟨next, prev, loose⟩ := carries
  have after := next item member
  constructor
  · intro other there
    rw [without_turn]
    simp only [without, Set.mem_sdiff, Set.mem_singleton_iff] at there
    simp only [listdel, listdelbetween, set_prev_next, set_next_next, set_prev_prev]
    grind
  · intro other there
    rw [without_turn]
    simp only [without, Set.mem_sdiff, Set.mem_singleton_iff] at there
    simp only [listdel, listdelbetween, set_prev_prev, set_next_prev]
    grind
  · intro other outside
    simp only [without, Set.mem_sdiff, Set.mem_singleton_iff, not_and, not_not] at outside
    rw [without_turn]
    grind

theorem replace_carries (carries : Carries heap rounds) (member : item ∈ rounds.linked) (fixed : rounds.turn anchor = anchor)
    (apart : item ≠ anchor) : Carries (listreplace heap item anchor) (instead rounds item anchor) := by
  have injective : ∀ one two, rounds.turn one = rounds.turn two → one = two := fun one two same => rounds.turn.injective same
  obtain ⟨inside, back⟩ := back_linked heap rounds item carries member
  have around : rounds.turn (rounds.turn.symm item) = item := Equiv.apply_symm_apply _ _
  obtain ⟨next, prev, loose⟩ := carries
  have after := next item member
  constructor
  · intro other there
    rw [instead_turn rounds item anchor other fixed apart]
    simp only [instead, Set.mem_insert_iff, Set.mem_sdiff, Set.mem_singleton_iff] at there
    simp only [listreplace, set_prev_next, set_next_next, set_prev_prev, set_next_prev]
    grind
  · intro other there
    rw [instead_turn rounds item anchor other fixed apart]
    simp only [instead, Set.mem_insert_iff, Set.mem_sdiff, Set.mem_singleton_iff] at there
    simp only [listreplace, set_next_next, set_prev_prev, set_next_prev]
    grind
  · intro other outside
    simp only [instead, Set.mem_insert_iff, Set.mem_sdiff, Set.mem_singleton_iff, not_or, not_and, not_not] at outside
    rw [instead_turn rounds item anchor other fixed apart]
    grind

-- The second store is into the prev that the first one read: the item is its own
-- follower and predecessor, and the anchor's predecessor passes it by.
theorem addbefore_next (apart : item ≠ anchor) : (listaddbefore heap item anchor).next item = item := by
  simp [listaddbefore, listadd, apart.symm]

theorem addbefore_fails (fixed : rounds.turn item = item) (apart : item ≠ anchor) :
    ¬ Carries (listaddbefore heap item anchor) (before rounds item anchor) := by
  intro carries
  have next := carries.next item (Set.mem_insert item rounds.linked)
  rw [addbefore_next heap item anchor apart, before_turn, if_pos fixed] at next
  exact apart next

end Steps

theorem without_fixed (rounds : Rounds α) (item : α) : (without rounds item).turn item = item := by
  rw [without_turn, if_pos rfl]

theorem step_carries_iff (heap : Heap α) (rounds : Rounds α) (op : Op α) (carries : Carries heap rounds) (legal : Legal rounds op) :
    Carries (step heap op) (meant rounds op) ↔ Sound rounds op := by
  have left := fun item : α => without_fixed rounds item
  cases op with
  | init item => exact ⟨fun _ => trivial, fun _ => init_carries heap rounds item carries legal⟩
  | addafter item1 item2 =>
      exact ⟨fun _ => trivial, fun _ => addafter_carries heap rounds item1 item2 carries legal.1 legal.2.1 legal.2.2⟩
  | addbefore item1 item2 => exact ⟨addbefore_fails heap rounds item1 item2 legal.1 legal.2.1, False.elim⟩
  | del item => exact ⟨fun _ => trivial, fun _ => del_carries heap rounds item carries legal⟩
  | delinit item =>
      exact ⟨fun _ => trivial, fun _ => init_carries _ _ item (del_carries heap rounds item carries legal) (left item)⟩
  | replace item1 item2 =>
      exact ⟨fun _ => trivial, fun _ => replace_carries heap rounds item1 item2 carries legal.1 legal.2.1 legal.2.2⟩
  | replaceinit item1 item2 =>
      refine ⟨fun _ => trivial, fun _ => init_carries _ _ item1 (replace_carries heap rounds item1 item2 carries legal.1 legal.2.1 legal.2.2) ?_⟩
      rw [instead_turn rounds item1 item2 item1 legal.2.1 legal.2.2, if_pos rfl]
  | moveafter item1 item2 =>
      obtain ⟨member, inside, apart⟩ := legal
      exact ⟨fun _ => trivial, fun _ => addafter_carries _ _ item1 item2 (del_carries heap rounds item1 carries member) (left item1) apart
        ⟨inside, apart.symm⟩⟩
  | movebefore item1 item2 => exact ⟨addbefore_fails _ _ item1 item2 (left item1) legal.2.2, False.elim⟩
  | rotleft item =>
      have next : heap.next item = rounds.turn item := carries.next item legal
      by_cases stays : rounds.turn item = item
      · simpa [step, meant, listrotleft, listisempty, next, stays, Sound] using carries
      · have fails := addbefore_fails (listdel heap (rounds.turn item)) (without rounds (rounds.turn item)) (rounds.turn item) item
          (left _) stays
        simpa [step, meant, listrotleft, listisempty, next, stays, Sound, listmovebefore] using fails

-- A loop over a list visits the rest of its circle and comes to an end, in both directions.
def Walks (heap : Heap α) (rounds : Rounds α) : Prop :=
  ∀ item ∈ rounds.linked, ∀ fuel, Function.minimalPeriod rounds.turn item < fuel → ∃ visited,
    listiter heap item fuel = some visited ∧ listiterrev heap item fuel = some visited.reverse ∧ visited.Nodup ∧
      ∀ other, other ∈ visited ↔ other ≠ item ∧ ∃ i, rounds.turn^[i] item = other

theorem carries_walks [Finite α] (heap : Heap α) (rounds : Rounds α) (carries : Carries heap rounds) : Walks heap rounds := by
  intro item member fuel enough
  have periodic := Function.minimalPeriod_pos_of_mem_periodicPts (rounds.turn.injective.mem_periodicPts item)
  obtain ⟨forward, backward⟩ := walks_rest heap rounds item fuel carries member periodic enough
  exact ⟨rest rounds.turn item, forward, backward, rest_nodup rounds.turn item, fun other => mem_rest rounds.turn item other periodic⟩

-- Whatever the lists, the macros that add in front of an item, and they alone, break them.
theorem lists_go_round_iff [Finite α] (heap : Heap α) (rounds : Rounds α) (ops : List (Op α)) (carries : Carries heap rounds)
    (legal : Along (fun rounds op => (meant rounds op, ())) Legal rounds ops) :
    ((∀ n, Carries ((ops.take n).foldl step heap) ((ops.take n).foldl meant rounds)) ↔
        Along (fun rounds op => (meant rounds op, ())) Sound rounds ops) ∧
      ∀ n, Carries ((ops.take n).foldl step heap) ((ops.take n).foldl meant rounds) →
        Walks ((ops.take n).foldl step heap) ((ops.take n).foldl meant rounds) :=
  ⟨beginnings_iff_along step meant Carries Legal Sound step_carries_iff heap rounds ops carries legal,
    fun _ => carries_walks _ _⟩

theorem lists_go_round_iff_rotated : ¬ ∀ n, Carries
    (([.init 0, .addafter 1 0, .rotleft 0] : List (Op (Fin 3))).take n |>.foldl step ⟨fun _ => 2, fun _ => 2⟩)
    (([.init 0, .addafter 1 0, .rotleft 0] : List (Op (Fin 3))).take n |>.foldl meant ⟨1, ∅⟩) := by
  have nothing : Carries (⟨fun _ => 2, fun _ => 2⟩ : Heap (Fin 3)) ⟨1, ∅⟩ :=
    ⟨fun item member => member.elim, fun item member => member.elim, fun item _ => rfl⟩
  intro all
  have sound := (lists_go_round_iff ⟨fun _ => 2, fun _ => 2⟩ ⟨1, ∅⟩ [.init 0, .addafter 1 0, .rotleft 0] nothing
    ⟨rfl, ⟨rfl, by decide, Set.mem_insert 0 ∅⟩, Set.mem_insert_of_mem 1 (Set.mem_insert 0 ∅), trivial⟩).1.mp all
  have still : Equiv.swap (1 : Fin 3) 0 0 = 0 := sound.2.2.1
  exact absurd still (by decide)

end OsZero.Deq.Circular

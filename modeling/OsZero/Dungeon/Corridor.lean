import OsZero.Dungeon.Cell

set_option autoImplicit false

namespace OsZero.Dungeon

structure Cellcorparm where
  spacing : Nat
  minlen : Nat
  maxlen : Nat
  maxturn : Nat

def dngrevdirtab : List Nat :=
  [DNG_SOUTH, DNG_NORTH, DNG_WEST, DNG_EAST, DNG_SOUTHWEST, DNG_SOUTHEAST, DNG_NORTHEAST, DNG_NORTHWEST]

def dngrevdir (dir : Nat) : Nat := dngrevdirtab.getD dir 0

-- Random numbers come from a list; none where it ends.
def turnwhile (refused : Nat → Bool) : List Nat → Option (Nat × List Nat)
  | [] => none
  | draw :: draws =>
      let ret := dngdirtab.getD (draw % DNG_NDIR2) 0
      if refused ret then turnwhile refused draws else some (ret, draws)

def dngturncor (dir : Nat) : List Nat → Option (Nat × List Nat) := turnwhile fun ret => ret == dngrevdir dir

def dngturncornorev (dir1 dir2 : Nat) : List Nat → Option (Nat × List Nat) := turnwhile fun ret => ret == dngrevdir dir1 || ret == dir2

-- No turn of the loop reads its counter.
def dngchkcorcell (parm : Cellcorparm) (dng : Celldng) (cell : Cellcoord) (dir : Nat) : Bool :=
  let ofs := dngdirofstab.getD dir ⟨0, 0⟩
  (List.range (2 * parm.spacing + 1)).all fun _ =>
    let x1 : Cellcoord := ⟨cell.xval + parm.spacing, cell.yval⟩
    let y1 : Cellcoord := ⟨cell.xval, cell.yval + parm.spacing⟩
    if ofs.xval = 0 then !(dngiscell x1 dng.width dng.height && dnggetcellbit dng x1)
    else if ofs.yval = 0 then !(dngiscell y1 dng.width dng.height && dnggetcellbit dng y1)
    else true

-- What a try comes to: a corridor, NULL, or the end of the random numbers.
inductive Try where
  | cor (cells : List Cellcoord)
  | null
  | starved

-- The corridor so far, celltab with its entries, and the cell it has come to.
structure Trying where
  cells : List Cellcoord
  ncellmax : Nat
  cell : Cellcoord

-- A store outside of celltab is a fault.
def addcorcell (trying : Trying) (cell : Cellcoord) : Option Trying :=
  let room := if trying.cells.length = trying.ncellmax then trying.ncellmax <<< 1 else trying.ncellmax
  if trying.cells.length < room then some ⟨trying.cells ++ [cell], room, cell⟩ else none

-- The distance is looked at from (x, x), not from (x, y).
def dngtrycell (parm : Cellcorparm) (dng : Celldng) (caveid dir : Nat) (trying : Trying) : Option (Try ⊕ Trying) :=
  let cor := dngmovedir trying.cell dir
  if dngiscell cor dng.width dng.height then
    let id := dnggetcaveid dng cor
    if id ≠ none ∧ id ≠ some caveid then
      if 1 < trying.cells.length then (addcorcell trying cor).map fun trying => .inl (.cor trying.cells) else some (.inl .null)
    else if id = some caveid then some (.inl .null)
    else if dngiscell cor dng.width dng.height = false ∨ dngchkcorcell parm dng ⟨cor.xval, cor.xval⟩ dir = false then some (.inl .null)
    else (addcorcell trying cor).map .inr
  else some (.inl .null)

def dngtryleg (parm : Cellcorparm) (dng : Celldng) (caveid dir : Nat) : Nat → Trying → Option (Try ⊕ Trying)
  | 0, trying => some (.inr trying)
  | len + 1, trying => do
      match ← dngtrycell parm dng caveid dir trying with
      | .inl ended => some (.inl ended)
      | .inr trying => dngtryleg parm dng caveid dir len trying

-- The first number is nturn + 1.
def dngtrylegs (parm : Cellcorparm) (dng : Celldng) (caveid dir1 : Nat) (backtrack : Bool) : Nat → Nat → List Nat → Trying → Option Try
  | 0, _, _, _ => some .null
  | nturn + 1, dir, draws, trying =>
      if parm.maxlen + 1 = parm.minlen then none else
      match draws with
      | [] => some .starved
      | draw :: draws => do
          match ← dngtryleg parm dng caveid dir (parm.minlen + draw % (parm.maxlen - parm.minlen + 1)) trying with
          | .inl ended => some ended
          | .inr trying =>
              if 2 < nturn then
                match (if backtrack then dngturncor dir draws else dngturncornorev dir dir1 draws) with
                | none => some .starved
                | some (dir, draws) => dngtrylegs parm dng caveid dir1 backtrack nturn dir draws trying
              else dngtrylegs parm dng caveid dir1 backtrack nturn dir draws trying

def dngtrycor (parm : Cellcorparm) (dng : Celldng) (caveid : Option Nat) (cell : Cellcoord) (dir : Nat) (backtrack : Bool) (draws : List Nat) :
    Option Try :=
  dngtrylegs parm dng (caveid.getD dng.ncave) dir backtrack (parm.maxturn + 1) dir draws ⟨[cell], 16, cell⟩

-- One direction a cell, in the order the cells are come to.
def legdirs (legs : List (Nat × Nat)) : List Nat := legs.flatMap fun leg => List.replicate leg.2 leg.1

-- Between leg n and the next one.
def Turns (parm : Cellcorparm) (dir1 : Nat) (backtrack : Bool) (n dir dir2 : Nat) : Prop :=
  dir2 = dir ∨ n + 2 < parm.maxturn ∧ dir2 < DNG_NDIR2 ∧ dir2 ≠ dngrevdir dir ∧ (backtrack = false → dir2 ≠ dir1)

def Bare (dng : Celldng) (cell : Cellcoord) : Prop :=
  dngiscell cell dng.width dng.height = true ∧ dnggetcaveid dng cell = none

structure Dug (dng : Celldng) (start : Cellcoord) (dirs : List Nat) (trying : Trying) : Prop where
  cells : trying.cells = dirs.scanl dngmovedir start
  cell : trying.cell = dirs.foldl dngmovedir start
  roomy : 0 < trying.ncellmax ∧ trying.cells.length ≤ trying.ncellmax
  bare : ∀ cell ∈ trying.cells.tail, Bare dng cell

structure Joins (dng : Celldng) (caveid : Nat) (start : Cellcoord) (dirs : List Nat) (cells : List Cellcoord) : Prop where
  path : cells = dirs.scanl dngmovedir start
  long : 2 ≤ dirs.length
  bare : ∀ cell ∈ cells.tail.dropLast, Bare dng cell
  lands : ∃ last id, cells.getLast? = some last ∧ dngiscell last dng.width dng.height = true ∧
    dnggetcaveid dng last = some id ∧ id ≠ caveid

-- The legs in the order they were drawn; a corridor's last one ends early.
structure Legs (parm : Cellcorparm) (dir1 : Nat) (backtrack : Bool) (legs : List (Nat × Nat)) : Prop where
  first : ∀ leg ∈ legs.head?, leg.1 = dir1
  turns : ∀ n leg next, legs[n]? = some leg → legs[n + 1]? = some next → Turns parm dir1 backtrack n leg.1 next.1
  dirs : ∀ leg ∈ legs, leg.1 < dngdirtab.length
  short : ∀ leg ∈ legs, leg.2 ≤ parm.maxlen
  full : ∀ leg ∈ legs.dropLast, parm.minlen ≤ leg.2

def Comes (joins : List Cellcoord → Prop) (dug : Trying → Prop) : Try ⊕ Trying → Prop
  | .inl (.cor cells) => joins cells
  | .inl _ => True
  | .inr trying => dug trying

theorem scanl_snoc (start : Cellcoord) (dirs : List Nat) (dir : Nat) :
    (dirs ++ [dir]).scanl dngmovedir start = dirs.scanl dngmovedir start ++ [dngmovedir (dirs.foldl dngmovedir start) dir] := by
  simp [List.scanl_append]

theorem add_fits (trying : Trying) (cell : Cellcoord) (roomy : 0 < trying.ncellmax ∧ trying.cells.length ≤ trying.ncellmax) :
    ∃ room, addcorcell trying cell = some ⟨trying.cells ++ [cell], room, cell⟩ ∧ trying.cells.length < room := by
  by_cases full : trying.cells.length = trying.ncellmax
  · refine ⟨trying.ncellmax <<< 1, ?_, ?_⟩
    · have fits : trying.ncellmax < trying.ncellmax <<< 1 := by omega
      simp only [addcorcell, full, if_true, fits]
    · omega
  · have fits : trying.cells.length < trying.ncellmax := by omega
    exact ⟨trying.ncellmax, by simp only [addcorcell, full, if_false, fits, if_true], fits⟩

theorem tail_snoc (dirs : List Nat) (start cell : Cellcoord) :
    (dirs.scanl dngmovedir start ++ [cell]).tail = (dirs.scanl dngmovedir start).tail ++ [cell] := by
  cases dirs <;> simp

-- What one step of a leg comes to.
theorem step_comes (parm : Cellcorparm) (dng : Celldng) (caveid dir : Nat) (start : Cellcoord) (dirs : List Nat) (trying : Trying)
    (dug : Dug dng start dirs trying) :
    ∃ came, dngtrycell parm dng caveid dir trying = some came ∧
      Comes (Joins dng caveid start (dirs ++ [dir])) (Dug dng start (dirs ++ [dir])) came := by
  have nulls : ∃ came, some (.inl .null) = some came ∧
      Comes (Joins dng caveid start (dirs ++ [dir])) (Dug dng start (dirs ++ [dir])) came := ⟨_, rfl, trivial⟩
  obtain ⟨room, added, fits⟩ := add_fits trying (dngmovedir trying.cell dir) dug.roomy
  have path : trying.cells ++ [dngmovedir trying.cell dir] = (dirs ++ [dir]).scanl dngmovedir start := by
    rw [scanl_snoc, dug.cells, dug.cell]
  simp only [dngtrycell, added, Option.map_some]
  split
  next inside =>
    split
    next other =>
      split
      next longer =>
        obtain ⟨id, found⟩ := Option.ne_none_iff_exists'.mp other.1
        refine ⟨_, rfl, ⟨path, ?_, ?_, ?_⟩⟩
        · rw [dug.cells, List.length_scanl] at longer
          simp only [List.length_append, List.length_singleton]
          omega
        · rw [dug.cells, tail_snoc, List.dropLast_concat, ← dug.cells]
          exact dug.bare
        · refine ⟨_, id, List.getLast?_concat, inside, found, ?_⟩
          intro same
          exact other.2 (by rw [found, same])
      next => exact nulls
    next other =>
      split
      next => exact nulls
      next another =>
        split
        next => exact nulls
        next =>
          have bare : dnggetcaveid dng (dngmovedir trying.cell dir) = none := by
            by_contra held
            exact other ⟨held, another⟩
          refine ⟨_, rfl, ⟨path, ?_, ⟨Nat.zero_lt_of_lt fits, ?_⟩, ?_⟩⟩
          · simp [dug.cell]
          · simp only [List.length_append, List.length_singleton]
            omega
          · intro cell member
            simp only [dug.cells, tail_snoc, List.mem_append, List.mem_singleton] at member
            rcases member with member | rfl
            · exact dug.bare cell (by rw [dug.cells]; exact member)
            · exact ⟨inside, bare⟩
  next => exact nulls

theorem leg_comes (parm : Cellcorparm) (dng : Celldng) (caveid dir : Nat) (start : Cellcoord) (len : Nat) (dirs : List Nat)
    (trying : Trying) (dug : Dug dng start dirs trying) :
    ∃ came, dngtryleg parm dng caveid dir len trying = some came ∧
      Comes (fun cells => ∃ steps ≤ len, Joins dng caveid start (dirs ++ List.replicate steps dir) cells)
        (Dug dng start (dirs ++ List.replicate len dir)) came := by
  induction len generalizing dirs trying with
  | zero => exact ⟨_, rfl, by simpa only [List.replicate_zero, List.append_nil, Comes] using dug⟩
  | succ len continued =>
      obtain ⟨came, stepped, comes⟩ := step_comes parm dng caveid dir start dirs trying dug
      have longer : ∀ steps, dirs ++ [dir] ++ List.replicate steps dir = dirs ++ List.replicate (steps + 1) dir := by
        intro steps
        rw [List.append_assoc, List.replicate_succ, List.singleton_append]
      simp only [dngtryleg, stepped, Option.bind_eq_bind, Option.bind_some]
      cases came with
      | inl ended =>
          refine ⟨_, rfl, ?_⟩
          cases ended with
          | cor cells => exact ⟨1, by omega, comes⟩
          | null => trivial
          | starved => trivial
      | inr next =>
          obtain ⟨came, went, comes⟩ := continued (dirs ++ [dir]) next comes
          refine ⟨came, went, ?_⟩
          rw [longer] at comes
          cases came with
          | inl ended =>
              cases ended with
              | cor cells =>
                  obtain ⟨steps, bound, joins⟩ := comes
                  exact ⟨steps + 1, by omega, by rw [← longer]; exact joins⟩
              | null => trivial
              | starved => trivial
          | inr last => exact comes

theorem turn_allowed (refused : Nat → Bool) (draws rest : List Nat) (dir : Nat) (turned : turnwhile refused draws = some (dir, rest)) :
    dir < DNG_NDIR2 ∧ refused dir = false := by
  induction draws with
  | nil => cases turned
  | cons draw draws continued =>
      rw [turnwhile] at turned
      by_cases no : refused (dngdirtab.getD (draw % DNG_NDIR2) 0) = true
      · exact continued (by simpa only [no, if_true] using turned)
      · simp only [no, Bool.false_eq_true, if_false, Option.some.injEq, Prod.mk.injEq] at turned
        have kept : draw % DNG_NDIR2 < DNG_NDIR2 := Nat.mod_lt _ (by decide)
        have drawn : ∀ place < DNG_NDIR2, dngdirtab.getD place 0 < DNG_NDIR2 := by decide
        rw [← turned.1]
        exact ⟨drawn _ kept, Bool.eq_false_iff.mpr no⟩

theorem turns_when_turned (parm : Cellcorparm) (dir1 n dir dir2 : Nat) (backtrack : Bool) (draws rest : List Nat) (early : n + 2 < parm.maxturn)
    (turned : (if backtrack then dngturncor dir draws else dngturncornorev dir dir1 draws) = some (dir2, rest)) :
    dir2 < DNG_NDIR2 ∧ Turns parm dir1 backtrack n dir dir2 := by
  cases backtrack with
  | true =>
      obtain ⟨small, allowed⟩ := turn_allowed _ draws rest dir2 turned
      exact ⟨small, Or.inr ⟨early, small, by simpa using allowed, by simp⟩⟩
  | false =>
      obtain ⟨small, allowed⟩ := turn_allowed _ draws rest dir2 turned
      rw [Bool.or_eq_false_iff] at allowed
      exact ⟨small, Or.inr ⟨early, small, by simpa using allowed.1, fun _ => by simpa using allowed.2⟩⟩

theorem legs_turn (parm : Cellcorparm) (dir1 dir dir2 len steps : Nat) (backtrack : Bool) (legs : List (Nat × Nat))
    (ready : Legs parm dir1 backtrack (legs ++ [(dir, len)])) (full : parm.minlen ≤ len) (kept : dir2 < dngdirtab.length)
    (turns : Turns parm dir1 backtrack legs.length dir dir2) (short : steps ≤ parm.maxlen) :
    Legs parm dir1 backtrack (legs ++ [(dir, len)] ++ [(dir2, steps)]) := by
  refine ⟨?_, ?_, ?_, ?_, ?_⟩
  · intro leg member
    apply ready.first leg
    cases legs <;> exact member
  · intro n leg next here there
    have bound := (List.getElem?_eq_some_iff.mp there).1
    simp only [List.length_append, List.length_singleton] at bound
    by_cases last : n = legs.length
    · subst last
      simp only [List.append_assoc, List.singleton_append, List.getElem?_append_right (Nat.le_refl _), Nat.sub_self,
        List.getElem?_cons_zero, Option.some.injEq] at here
      rw [List.append_assoc, List.getElem?_append_right (by omega), Nat.add_sub_cancel_left] at there
      simp only [List.singleton_append, List.getElem?_cons_succ, List.getElem?_cons_zero, Option.some.injEq] at there
      rw [← here, ← there]
      exact turns
    · rw [List.getElem?_append_left (by simp; omega)] at here there
      exact ready.turns n leg next here there
  · intro leg member
    rcases List.mem_append.mp member with member | member
    · exact ready.dirs leg member
    · rw [List.mem_singleton.mp member]
      exact kept
  · intro leg member
    rcases List.mem_append.mp member with member | member
    · exact ready.short leg member
    · rw [List.mem_singleton.mp member]
      exact short
  · intro leg member
    rw [List.dropLast_concat] at member
    rcases List.mem_append.mp member with member | member
    · exact ready.full leg (by rw [List.dropLast_concat]; exact member)
    · rw [List.mem_singleton.mp member]
      exact full

theorem legdirs_snoc (legs : List (Nat × Nat)) (dir len : Nat) : legdirs (legs ++ [(dir, len)]) = legdirs legs ++ List.replicate len dir := by
  simp [legdirs]

def Corridor (parm : Cellcorparm) (dng : Celldng) (caveid dir1 : Nat) (backtrack : Bool) (start : Cellcoord) : Try → Prop
  | .cor cells => ∃ legs, legs.length ≤ parm.maxturn + 1 ∧ Legs parm dir1 backtrack legs ∧ Joins dng caveid start (legdirs legs) cells
  | _ => True

theorem legs_come (parm : Cellcorparm) (dng : Celldng) (caveid dir1 : Nat) (backtrack : Bool) (start : Cellcoord)
    (lens : parm.minlen ≤ parm.maxlen) (left : Nat) (legs : List (Nat × Nat)) (dir : Nat) (draws : List Nat) (trying : Trying)
    (counted : legs.length + left = parm.maxturn + 1) (kept : dir < dngdirtab.length)
    (ready : ∀ steps ≤ parm.maxlen, Legs parm dir1 backtrack (legs ++ [(dir, steps)])) (dug : Dug dng start (legdirs legs) trying) :
    ∃ ended, dngtrylegs parm dng caveid dir1 backtrack left dir draws trying = some ended ∧
      Corridor parm dng caveid dir1 backtrack start ended := by
  induction left generalizing legs dir draws trying with
  | zero => exact ⟨_, rfl, trivial⟩
  | succ nturn continued =>
      have divides : parm.maxlen + 1 ≠ parm.minlen := by omega
      cases draws with
      | nil => exact ⟨.starved, by simp only [dngtrylegs, if_neg divides], trivial⟩
      | cons draw draws =>
          simp only [dngtrylegs, if_neg divides]
          have drawn : draw % (parm.maxlen - parm.minlen + 1) < parm.maxlen - parm.minlen + 1 := Nat.mod_lt _ (by omega)
          generalize lenIs : parm.minlen + draw % (parm.maxlen - parm.minlen + 1) = len
          obtain ⟨came, went, comes⟩ := leg_comes parm dng caveid dir start len (legdirs legs) trying dug
          simp only [went, Option.bind_eq_bind, Option.bind_some]
          cases came with
          | inl ended =>
              refine ⟨_, rfl, ?_⟩
              cases ended with
              | cor cells =>
                  obtain ⟨steps, bound, joins⟩ := comes
                  refine ⟨legs ++ [(dir, steps)], ?_, ready steps (by omega), by rw [legdirs_snoc]; exact joins⟩
                  simp only [List.length_append, List.length_singleton]
                  omega
              | null => trivial
              | starved => trivial
          | inr next =>
              have dugOn : Dug dng start (legdirs (legs ++ [(dir, len)])) next := by rw [legdirs_snoc]; exact comes
              have onward : ∀ dir2, dir2 < dngdirtab.length → Turns parm dir1 backtrack legs.length dir dir2 → ∀ draws,
                  ∃ ended, dngtrylegs parm dng caveid dir1 backtrack nturn dir2 draws next = some ended ∧
                    Corridor parm dng caveid dir1 backtrack start ended := by
                intro dir2 small turns draws
                apply continued (legs ++ [(dir, len)]) dir2 draws next ?_ small ?_ dugOn
                · simp only [List.length_append, List.length_singleton]
                  omega
                · exact fun steps short => legs_turn parm dir1 dir dir2 len steps backtrack legs (ready len (by omega)) (by omega) small turns short
              by_cases early : 2 < nturn
              · simp only [early, if_true]
                split
                next => exact ⟨_, rfl, trivial⟩
                next dir2 rest turned =>
                  obtain ⟨small, turns⟩ := turns_when_turned parm dir1 legs.length dir dir2 backtrack draws rest (by omega) turned
                  exact onward dir2 (Nat.lt_trans small (by decide)) turns rest
              · simp only [early, if_false]
                exact onward dir kept (Or.inl rfl) draws

theorem corridors_join_caves (parm : Cellcorparm) (dng : Celldng) (caveid : Option Nat) (cell : Cellcoord) (dir : Nat) (backtrack : Bool)
    (draws : List Nat) (lens : parm.minlen ≤ parm.maxlen) (dirs : dir < dngdirtab.length) :
    ∃ ended, dngtrycor parm dng caveid cell dir backtrack draws = some ended ∧
      Corridor parm dng (caveid.getD dng.ncave) dir backtrack cell ended := by
  apply legs_come parm dng _ dir backtrack cell lens (parm.maxturn + 1) [] dir draws ⟨[cell], 16, cell⟩ (by simp) dirs
  · intro steps short
    refine ⟨by simp, ?_, by simpa using dirs, by simpa using short, by simp⟩
    intro n leg next here there
    simp at there
  · exact ⟨rfl, rfl, by simp, by simp⟩

def twoCaves : Celldng :=
  { cellinitdng 3 2 with ncave := 2, caveidtab := fun ndx => if ndx = 0 then some 0 else if ndx = 4 then some 1 else none }

theorem corridors_join_caves_round_a_bend :
    dngtrycor ⟨0, 1, 2, 5⟩ twoCaves (some 0) ⟨0, 0⟩ DNG_EAST false [0, 1, 1] = some (.cor [⟨0, 0⟩, ⟨1, 0⟩, ⟨1, 1⟩]) ∧
      ∃ ended, dngtrycor ⟨0, 1, 2, 5⟩ twoCaves (some 0) ⟨0, 0⟩ DNG_EAST false [0, 1, 1] = some ended ∧
        Corridor ⟨0, 1, 2, 5⟩ twoCaves 0 DNG_EAST false ⟨0, 0⟩ ended :=
  ⟨rfl, corridors_join_caves ⟨0, 1, 2, 5⟩ twoCaves (some 0) ⟨0, 0⟩ DNG_EAST false [0, 1, 1] (by decide) (by decide)⟩

end OsZero.Dungeon

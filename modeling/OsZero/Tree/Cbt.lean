import Mathlib.Data.List.Basic

set_option autoImplicit false

namespace OsZero.Cbtree

-- What cbtfind reads of a struct cbtnode, and NULL; data stands for the rest of it.
inductive Cbtnode where
  | null
  | node (key data : Nat) (left right : Cbtnode)
deriving DecidableEq, Repr

-- The root is part of struct cbt: there is always one.
structure Cbt where
  key : Nat
  data : Nat
  left : Cbtnode
  right : Cbtnode
deriving DecidableEq, Repr

def Cbt.root (tree : Cbt) : Cbtnode := .node tree.key tree.data tree.left tree.right

inductive Side where
  | left
  | right
deriving DecidableEq, Repr

-- One turn of either loop of the source: node becomes its child on the loop's own side,
-- whatever the key is, and then the child of that one by comparison. A loop that ends
-- with node NULL goes on to read node->key.
mutual
def forced (side : Side) (key : Nat) : Cbtnode → Option Cbtnode
  | .null => none
  | .node here data left right =>
      if key = here then some (.node here data left right)
      else if key < here then compared side key left
      else compared side key right
def compared (side : Side) (key : Nat) : Cbtnode → Option Cbtnode
  | .null => none
  | .node here data left right =>
      if key = here then some (.node here data left right)
      else match side with
        | .left => forced .left key left
        | .right => forced .right key right
end

def cbtfind (tree : Cbt) (key : Nat) : Option Cbtnode :=
  if key = tree.key then some tree.root
  else if key < tree.key ∧ tree.left ≠ .null then forced .left key tree.left
  else forced .right key tree.right

def nodes : Cbtnode → List Cbtnode
  | .null => []
  | .node key data left right => nodes left ++ .node key data left right :: nodes right

def keys : Cbtnode → List Nat
  | .null => []
  | .node key _ left right => keys left ++ key :: keys right

def Searchable (tree : Cbtnode) : Prop := (keys tree).Pairwise (· < ·)

-- The node with the key when there is one, NULL when there is none; a lookup that reads
-- through NULL has no result.
def Finds (tree : Cbt) (key : Nat) : Prop :=
  ∃ found, cbtfind tree key = some found ∧ match found with
    | .null => key ∉ keys tree.root
    | .node here data left right => here = key ∧ .node here data left right ∈ nodes tree.root

-- The sides on which the search by comparison goes on, from the top to the node with the key.
def turns (key : Nat) : Cbtnode → Option (List Side)
  | .null => none
  | .node here _ left right =>
      if key = here then some []
      else if key < here then (turns key left).map (.left :: ·)
      else (turns key right).map (.right :: ·)

-- Every second turn, beginning with the first, goes to one side.
def Alternates (side : Side) : List Side → Prop
  | [] => True
  | [turn] => turn = side
  | turn :: _ :: rest => turn = side ∧ Alternates side rest

theorem searchable_node (here data : Nat) (left right : Cbtnode) (ordered : Searchable (.node here data left right)) :
    Searchable left ∧ Searchable right ∧ (∀ key ∈ keys left, key < here) ∧ ∀ key ∈ keys right, here < key := by
  obtain ⟨first, second, across⟩ := List.pairwise_append.mp ordered
  obtain ⟨above, second⟩ := List.pairwise_cons.mp second
  exact ⟨first, second, fun key inside => across key inside here List.mem_cons_self, above⟩

theorem turns_iff (key : Nat) (tree : Cbtnode) (ordered : Searchable tree) :
    (∃ path, turns key tree = some path) ↔ key ∈ keys tree := by
  induction tree with
  | null => simp [turns, keys]
  | node here data left right leftIh rightIh =>
      obtain ⟨leftOrdered, rightOrdered, below, above⟩ := searchable_node here data left right ordered
      simp only [turns, keys, List.mem_append, List.mem_cons]
      by_cases same : key = here
      · simp [same]
      · by_cases less : key < here
        · have outside : key ∉ keys right := fun inside => by have := above key inside; omega
          simp [same, less, outside, leftIh leftOrdered]
        · have outside : key ∉ keys left := fun inside => less (below key inside)
          simp [same, less, outside, rightIh rightOrdered]

theorem turns_node (key here data : Nat) (left right : Cbtnode) (path : List Side) (different : key ≠ here) :
    turns key (.node here data left right) = some path ↔
      (key < here ∧ ∃ rest, turns key left = some rest ∧ path = .left :: rest) ∨
        (¬ key < here ∧ ∃ rest, turns key right = some rest ∧ path = .right :: rest) := by
  by_cases less : key < here
  · simp only [turns, different, less, if_true, if_false, Option.map_eq_some_iff, true_and, not_true, false_and, or_false]
    exact exists_congr fun rest => and_congr_right fun _ => eq_comm
  · simp only [turns, different, less, if_false, Option.map_eq_some_iff, false_and, not_false_iff, true_and, false_or]
    exact exists_congr fun rest => and_congr_right fun _ => eq_comm

-- A turn to the loop's own side that comparison would not take leads to a subtree
-- without the key, so there the walk ends at NULL.
theorem loops_iff (side : Side) (key : Nat) (tree : Cbtnode) (ordered : Searchable tree) :
    ((∃ found, forced side key tree = some found) ↔ ∃ path, turns key tree = some path ∧ Alternates side (side :: path)) ∧
      ((∃ found, compared side key tree = some found) ↔ ∃ path, turns key tree = some path ∧ Alternates side path) := by
  induction tree with
  | null => simp [forced, compared, turns]
  | node here data left right leftIh rightIh =>
      obtain ⟨leftOrdered, rightOrdered, below, above⟩ := searchable_node here data left right ordered
      have leftIh := leftIh leftOrdered
      have rightIh := rightIh rightOrdered
      by_cases same : key = here
      · subst same
        simp [forced, compared, turns, Alternates]
      · have leftward : ∀ path, turns key left = some path → key < here := fun path found =>
          below key ((turns_iff key left leftOrdered).mp ⟨path, found⟩)
        have rightward : ∀ path, turns key right = some path → ¬ key < here := fun path found => by
          have := above key ((turns_iff key right rightOrdered).mp ⟨path, found⟩)
          omega
        constructor
        · by_cases less : key < here
          · simp only [forced, same, less, if_true, if_false, leftIh.2, turns_node _ _ _ _ _ _ same, true_and, not_true, false_and, or_false]
            constructor
            · rintro ⟨path, found, kept⟩
              exact ⟨_, ⟨path, found, rfl⟩, rfl, kept⟩
            · rintro ⟨_, ⟨path, found, rfl⟩, -, kept⟩
              exact ⟨path, found, kept⟩
          · simp only [forced, same, less, if_false, rightIh.2, turns_node _ _ _ _ _ _ same, false_and, not_false_iff, true_and, false_or]
            constructor
            · rintro ⟨path, found, kept⟩
              exact ⟨_, ⟨path, found, rfl⟩, rfl, kept⟩
            · rintro ⟨_, ⟨path, found, rfl⟩, -, kept⟩
              exact ⟨path, found, kept⟩
        · cases side with
          | left =>
              simp only [compared, same, if_false, leftIh.1, turns_node _ _ _ _ _ _ same]
              constructor
              · rintro ⟨path, found, kept⟩
                exact ⟨_, Or.inl ⟨leftward path found, path, found, rfl⟩, kept⟩
              · rintro ⟨_, ⟨-, path, found, rfl⟩ | ⟨-, path, found, rfl⟩, kept⟩
                · exact ⟨path, found, kept⟩
                · cases path <;> simp [Alternates] at kept
          | right =>
              simp only [compared, same, if_false, rightIh.1, turns_node _ _ _ _ _ _ same]
              constructor
              · rintro ⟨path, found, kept⟩
                exact ⟨_, Or.inr ⟨rightward path found, path, found, rfl⟩, kept⟩
              · rintro ⟨_, ⟨-, path, found, rfl⟩ | ⟨-, path, found, rfl⟩, kept⟩
                · cases path <;> simp [Alternates] at kept
                · exact ⟨path, found, kept⟩

-- Whatever a loop returns is the node with the key.
def Named (tree : Cbtnode) (key : Nat) : Cbtnode → Prop
  | .null => False
  | .node here data left right => here = key ∧ .node here data left right ∈ nodes tree

theorem named_left (here data : Nat) (left right found : Cbtnode) (key : Nat) (named : Named left key found) :
    Named (.node here data left right) key found := by
  cases found with
  | null => exact named
  | node there other low high => exact ⟨named.1, List.mem_append_left _ named.2⟩

theorem named_right (here data : Nat) (left right found : Cbtnode) (key : Nat) (named : Named right key found) :
    Named (.node here data left right) key found := by
  cases found with
  | null => exact named
  | node there other low high => exact ⟨named.1, List.mem_append_right _ (List.mem_cons_of_mem _ named.2)⟩

theorem named_here (key data : Nat) (left right : Cbtnode) : Named (.node key data left right) key (.node key data left right) :=
  ⟨rfl, List.mem_append_right _ List.mem_cons_self⟩

theorem loops_named (side : Side) (key : Nat) (tree found : Cbtnode) :
    (forced side key tree = some found → Named tree key found) ∧ (compared side key tree = some found → Named tree key found) := by
  induction tree with
  | null => simp [forced, compared]
  | node here data left right leftIh rightIh =>
      by_cases same : key = here
      · subst same
        constructor
        · intro taken
          simp only [forced, if_true, Option.some.injEq] at taken
          exact taken ▸ named_here key data left right
        · intro taken
          simp only [compared, if_true, Option.some.injEq] at taken
          exact taken ▸ named_here key data left right
      · simp only [forced, compared, same, if_false]
        constructor
        · split
          · exact fun taken => named_left here data left right found key (leftIh.2 taken)
          · exact fun taken => named_right here data left right found key (rightIh.2 taken)
        · cases side with
          | left => exact fun taken => named_left here data left right found key (leftIh.1 taken)
          | right => exact fun taken => named_right here data left right found key (rightIh.1 taken)

theorem cbtfind_named (tree : Cbt) (key : Nat) (found : Cbtnode) (taken : cbtfind tree key = some found) :
    Named tree.root key found := by
  unfold cbtfind at taken
  split at taken
  next same =>
    cases taken
    exact same ▸ named_here tree.key tree.data tree.left tree.right
  · split at taken
    · exact named_left _ _ _ _ _ _ ((loops_named .left key tree.left found).1 taken)
    · exact named_right _ _ _ _ _ _ ((loops_named .right key tree.right found).1 taken)

theorem finds_iff (tree : Cbt) (key : Nat) : Finds tree key ↔ ∃ found, cbtfind tree key = some found := by
  constructor
  · rintro ⟨found, taken, -⟩
    exact ⟨found, taken⟩
  · rintro ⟨found, taken⟩
    have named := cbtfind_named tree key found taken
    cases found with
    | null => exact named.elim
    | node here data left right => exact ⟨_, taken, named⟩

-- A lookup is right exactly when the key is in the tree and every second turn on the way
-- to it, from the first one on, goes to the same side.
theorem cbtfind_finds_iff (tree : Cbt) (key : Nat) (ordered : Searchable tree.root) :
    Finds tree key ↔ ∃ path, turns key tree.root = some path ∧ ∀ side, path.head? = some side → Alternates side path := by
  obtain ⟨leftOrdered, rightOrdered, below, above⟩ := searchable_node _ _ _ _ ordered
  rw [finds_iff]
  unfold cbtfind Cbt.root
  by_cases same : key = tree.key
  · simp [same, turns]
  · simp only [same, if_false, turns_node _ _ _ _ _ _ same]
    by_cases less : key < tree.key
    · simp only [less, true_and, not_true, false_and, or_false]
      by_cases none : tree.left = .null
      · have outside : ∀ path, turns key tree.right ≠ some path := by
          intro path found
          have := above key ((turns_iff key tree.right rightOrdered).mp ⟨path, found⟩)
          omega
        simp [none, turns, (loops_iff .right key tree.right rightOrdered).1, outside]
      · rw [if_pos none, (loops_iff .left key tree.left leftOrdered).1]
        constructor
        · rintro ⟨path, found, kept⟩
          refine ⟨_, ⟨path, found, rfl⟩, fun side atHead => ?_⟩
          cases atHead
          exact kept
        · rintro ⟨_, ⟨path, found, rfl⟩, kept⟩
          exact ⟨path, found, kept .left rfl⟩
    · simp only [less, false_and, if_false, not_false_iff, true_and, false_or, (loops_iff .right key tree.right rightOrdered).1]
      constructor
      · rintro ⟨path, found, kept⟩
        refine ⟨_, ⟨path, found, rfl⟩, fun side atHead => ?_⟩
        cases atHead
        exact kept
      · rintro ⟨_, ⟨path, found, rfl⟩, kept⟩
        exact ⟨path, found, kept .right rfl⟩

theorem cbtfind_finds_inner :
    Searchable (Cbt.root ⟨4, 0, .node 2 0 .null (.node 3 0 .null .null), .null⟩) ∧
      Finds ⟨4, 0, .node 2 0 .null (.node 3 0 .null .null), .null⟩ 3 := by
  have ordered : Searchable (Cbt.root ⟨4, 0, .node 2 0 .null (.node 3 0 .null .null), .null⟩) := by
    simp [Searchable, Cbt.root, keys]
  refine ⟨ordered, (cbtfind_finds_iff _ 3 ordered).mpr ⟨[.left, .right], rfl, ?_⟩⟩
  intro side atHead
  cases atHead
  exact ⟨rfl, trivial⟩

-- Three levels suffice: on the way left, right, right to 4 the second loop turn goes left again.
theorem cbtfind_misses :
    Searchable (Cbt.root ⟨5, 0, .node 2 0 (.node 1 0 .null .null) (.node 3 0 .null (.node 4 0 .null .null)), .null⟩) ∧
      4 ∈ keys (Cbt.root ⟨5, 0, .node 2 0 (.node 1 0 .null .null) (.node 3 0 .null (.node 4 0 .null .null)), .null⟩) ∧
      cbtfind ⟨5, 0, .node 2 0 (.node 1 0 .null .null) (.node 3 0 .null (.node 4 0 .null .null)), .null⟩ 4 = none ∧
      ¬ Finds ⟨5, 0, .node 2 0 (.node 1 0 .null .null) (.node 3 0 .null (.node 4 0 .null .null)), .null⟩ 4 := by
  have faults : cbtfind ⟨5, 0, .node 2 0 (.node 1 0 .null .null) (.node 3 0 .null (.node 4 0 .null .null)), .null⟩ 4 = none := rfl
  refine ⟨by simp [Searchable, Cbt.root, keys], by simp [Cbt.root, keys], faults, ?_⟩
  rintro ⟨found, taken, -⟩
  rw [faults] at taken
  cases taken

end OsZero.Cbtree

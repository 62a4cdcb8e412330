import Mathlib.Logic.Function.Basic
import Mathlib.Tactic.SplitIfs

set_option autoImplicit false

namespace OsZero.Redblack

inductive Node
  | root
  | nil
  | item (adr : Nat)
  deriving DecidableEq, Repr

abbrev Word := BitVec 64

-- A node keeps its colour in the low bit of its data.
structure Rbt where
  key : Node → Word
  data : Node → Word
  parent : Node → Node
  left : Node → Node
  right : Node → Node

def rbtblack : Word := 0
def rbtred : Word := 1

def rbtcmpkeys (key1 key2 : Word) : Int := (key1 - key2).toInt

namespace Rbt

def setParent (tree : Rbt) (node value : Node) : Rbt := { tree with parent := Function.update tree.parent node value }

def setLeft (tree : Rbt) (node value : Node) : Rbt := { tree with left := Function.update tree.left node value }

def setRight (tree : Rbt) (node value : Node) : Rbt := { tree with right := Function.update tree.right node value }

def setData (tree : Rbt) (node : Node) (value : Word) : Rbt := { tree with data := Function.update tree.data node value }

def setKey (tree : Rbt) (node : Node) (value : Word) : Rbt := { tree with key := Function.update tree.key node value }

end Rbt

def rbtgetcolor (tree : Rbt) (node : Node) : Word := tree.data node &&& 1

def rbtsetcolor (tree : Rbt) (node : Node) (color : Word) : Rbt := tree.setData node (tree.data node ||| color)

-- The key of the header is what the memory held before.
def rbtinit (tree : Rbt) : Rbt :=
  let tree := tree.setData .nil rbtblack
  let tree := ((tree.setParent .nil .nil).setLeft .nil .nil).setRight .nil .nil
  let tree := tree.setData .root rbtblack
  ((tree.setParent .root .nil).setLeft .root .nil).setRight .root .nil

def rbtrotleft (tree : Rbt) (node : Node) : Rbt × Node :=
  let child := tree.right node
  let tree := tree.setRight node (tree.left child)
  let tree := if tree.left child ≠ .nil then tree.setParent (tree.left child) node else tree
  let tree := tree.setParent child (tree.parent node)
  let tree := if node = tree.left (tree.parent node) then tree.setLeft (tree.parent node) child else tree.setRight (tree.parent node) child
  let tree := tree.setLeft child node
  (tree.setParent node child, child)

def rbtrotright (tree : Rbt) (node : Node) : Rbt × Node :=
  let child := tree.left node
  let tree := tree.setLeft node (tree.right child)
  let tree := if tree.right child ≠ .nil then tree.setParent (tree.right child) node else tree
  let tree := tree.setParent child (tree.parent node)
  let tree := if node = tree.left (tree.parent node) then tree.setLeft (tree.parent node) child else tree.setRight (tree.parent node) child
  let tree := tree.setRight child node
  (tree.setParent node child, child)

def recolor (tree : Rbt) (parent uncle : Node) : Rbt :=
  let tree := rbtsetcolor tree parent rbtblack
  let tree := rbtsetcolor tree uncle rbtblack
  rbtsetcolor tree (tree.parent parent) rbtred

-- The branch of a left parent with a black uncle.
def fixLeft (tree : Rbt) (node parent : Node) : Rbt × Node × Node :=
  let turned := if node = tree.right parent then ((rbtrotleft tree parent).1, parent) else (tree, node)
  let tree := rbtsetcolor turned.1 parent rbtblack
  let tree := rbtsetcolor tree (tree.parent parent) rbtred
  let rotated := rbtrotright tree (tree.parent parent)
  (rotated.1, turned.2, rotated.2)

-- The branch of a right parent asks node->parent where the other asks parent.
def fixRight (tree : Rbt) (node parent : Node) : Rbt × Node × Node :=
  let turned := if node = tree.left (tree.parent node) then ((rbtrotright tree (tree.parent node)).1, tree.parent node) else (tree, node)
  let tree := rbtsetcolor turned.1 parent rbtblack
  let tree := rbtsetcolor tree (tree.parent parent) rbtred
  let rotated := rbtrotleft tree (tree.parent (tree.parent turned.2))
  (rotated.1, turned.2, rotated.2)

def fixStep (tree : Rbt) (node parent : Node) : Rbt × Node × Node :=
  let grand := tree.parent parent
  let uncle := if parent = tree.left grand then tree.right grand else tree.left grand
  if rbtgetcolor tree uncle = rbtred then
    let next := recolor tree parent uncle
    (next, next.parent parent, next.parent (next.parent parent))
  else if parent = tree.left grand then fixLeft tree node parent
  else fixRight tree node parent

def fixLoop : Nat → Rbt → Node → Node → Option Rbt
  | 0, _, _, _ => none
  | fuel + 1, tree, node, parent =>
    if rbtgetcolor tree parent = rbtred then
      let next := fixStep tree node parent
      fixLoop fuel next.1 next.2.1 next.2.2
    else some (rbtsetcolor tree .root rbtblack)

def rbtfix (fuel : Nat) (tree : Rbt) (node : Node) : Option Rbt := fixLoop fuel tree node (tree.parent node)

-- Where the search for a key ends: the node that has it, or the last node before nil.
def descend : Nat → Rbt → Word → Node → Node → Option (Node ⊕ Node)
  | 0, _, _, _, _ => none
  | fuel + 1, tree, key, parent, node =>
    if node = .nil then some (.inr parent)
    else if rbtcmpkeys key (tree.key node) = 0 then some (.inl node)
    else if rbtcmpkeys key (tree.key node) < 0 then descend fuel tree key node (tree.left node)
    else descend fuel tree key node (tree.right node)

def fresh (tree : Rbt) (node : Node) (key data : Word) : Rbt := rbtsetcolor ((tree.setKey node key).setData node data) node rbtred

-- The side is chosen by the data, and always left under the header.
def hang (tree : Rbt) (node parent : Node) (data : Word) : Rbt :=
  let tree := ((tree.setParent node parent).setLeft node .nil).setRight node .nil
  if parent = .root ∨ data < tree.data parent then tree.setLeft parent node else tree.setRight parent node

-- The node that already has the key, where there is one.
def rbtinsert (fuel : Nat) (tree : Rbt) (key data : Word) (rbtgetnode : Nat) : Option (Rbt × Option Node) := do
  match ← descend fuel tree key .root .root with
  | .inl found => some (tree, some found)
  | .inr parent =>
    let node := Node.item rbtgetnode
    let tree ← rbtfix fuel (hang (fresh tree node key data) node parent data) node
    some (tree, none)

def rbtfind (fuel : Nat) (tree : Rbt) (key : Word) : Option (Option Node) :=
  (descend fuel tree key .root .root).map (fun found => found.elim some (fun _ => none))

def leftmost : Nat → Rbt → Node → Option Node
  | 0, _, _ => none
  | fuel + 1, tree, succ => if tree.left succ ≠ .nil then leftmost fuel tree (tree.left succ) else some succ

def climb : Nat → Rbt → Node → Node → Option Node
  | 0, _, _, _ => none
  | fuel + 1, tree, node, succ => if node = tree.right succ then climb fuel tree succ (tree.parent succ) else some succ

def rbtsuccessor (fuel : Nat) (tree : Rbt) (node : Node) : Option Node :=
  if tree.right node ≠ .nil then leftmost fuel tree (tree.right node)
  else (climb fuel tree node (tree.parent node)).map (fun succ => if succ = .root then .nil else succ)

-- The two sides of rbtrepair ask the children of the sibling in one order.
def blackChildren (tree : Rbt) (sibling : Node) : Prop :=
  rbtgetcolor tree (tree.right sibling) = rbtblack ∧ rbtgetcolor tree (tree.left sibling) = rbtblack

instance (tree : Rbt) (sibling : Node) : Decidable (blackChildren tree sibling) := inferInstanceAs (Decidable (_ ∧ _))

def raiseRight (tree : Rbt) (parent sibling : Node) : Rbt :=
  if rbtgetcolor tree sibling = rbtred then (rbtrotleft (rbtsetcolor (rbtsetcolor tree sibling rbtblack) parent rbtred) parent).1 else tree

def raiseLeft (tree : Rbt) (parent sibling : Node) : Rbt :=
  if rbtgetcolor tree sibling = rbtred then (rbtrotright (rbtsetcolor (rbtsetcolor tree sibling rbtblack) parent rbtred) parent).1 else tree

def turnRight (tree : Rbt) (sibling : Node) : Rbt :=
  if rbtgetcolor tree (tree.right sibling) = rbtblack then
    (rbtrotright (rbtsetcolor (rbtsetcolor tree (tree.left sibling) rbtblack) sibling rbtred) sibling).1
  else tree

def turnLeft (tree : Rbt) (sibling : Node) : Rbt :=
  if rbtgetcolor tree (tree.left sibling) = rbtblack then
    (rbtrotleft (rbtsetcolor (rbtsetcolor tree (tree.right sibling) rbtblack) sibling rbtred) sibling).1
  else tree

def settle (tree : Rbt) (parent sibling child : Node) : Rbt :=
  rbtsetcolor (rbtsetcolor (rbtsetcolor tree sibling (rbtgetcolor tree parent)) parent rbtblack) child rbtblack

-- The tree, and the node to go on from; none where the loop breaks.
def repairLeft (tree : Rbt) (parent : Node) : Rbt × Option Node :=
  let raised := raiseRight tree parent (tree.right parent)
  let sibling := raised.right parent
  if blackChildren raised sibling then (rbtsetcolor raised sibling rbtred, some parent)
  else
    let turned := turnRight raised sibling
    ((rbtrotleft (settle turned parent (turned.right parent) (turned.right (turned.right parent))) parent).1, none)

def repairRight (tree : Rbt) (parent : Node) : Rbt × Option Node :=
  let raised := raiseLeft tree parent (tree.left parent)
  let sibling := raised.left parent
  if blackChildren raised sibling then (rbtsetcolor raised sibling rbtred, some parent)
  else
    let turned := turnLeft raised sibling
    ((rbtrotright (settle turned parent (turned.left parent) (turned.left (turned.left parent))) parent).1, none)

def rbtrepair : Nat → Rbt → Node → Option Rbt
  | 0, _, _ => none
  | fuel + 1, tree, node =>
    if rbtgetcolor tree node = rbtblack then
      let parent := tree.parent node
      let next := if node = tree.left parent then repairLeft tree parent else repairRight tree parent
      next.2.elim (some next.1) (rbtrepair fuel next.1)
    else some tree

-- The node that is taken out of its place is put in the place of the deleted one.
def replace (tree : Rbt) (node node2 : Node) : Rbt :=
  let tree := tree.setParent node2 (tree.parent node)
  let tree := tree.setLeft node2 (tree.left node)
  let tree := tree.setRight node2 (tree.right node)
  let tree := tree.setParent (tree.left node) node2
  let tree := tree.setParent (tree.right node) node2
  if node = tree.left (tree.parent node) then tree.setLeft (tree.parent node) node2 else tree.setRight (tree.parent node) node2

def takeOut (tree : Rbt) (node2 node1 : Node) : Rbt :=
  let tree := tree.setParent node1 (tree.parent node2)
  if tree.parent node1 = .root then tree.setLeft .root node1
  else if node2 = tree.left (tree.parent node2) then tree.setLeft (tree.parent node2) node1
  else tree.setRight (tree.parent node2) node1

def spare (fuel : Nat) (tree : Rbt) (node : Node) : Option Node :=
  if tree.left node = .nil ∨ tree.right node = .nil then some node else rbtsuccessor fuel tree node

def repaired (fuel : Nat) (tree : Rbt) (node2 node1 : Node) : Option Rbt :=
  if rbtgetcolor tree node2 = rbtblack then rbtrepair fuel tree node1 else some tree

def rbtdelete (fuel : Nat) (tree : Rbt) (node : Node) : Option (Rbt × Word) := do
  let data := tree.data node
  let node2 ← spare fuel tree node
  let node1 := if tree.left node2 = .nil then tree.right node2 else tree.left node2
  let tree ← repaired fuel (takeOut tree node2 node1) node2 node1
  some (if node2 ≠ node then replace tree node node2 else tree, data)

inductive Op
  | insert (key data : Word)
  | delete (key : Word)
  deriving DecidableEq

-- calls counts the nodes that rbtgetnode has handed out.
structure State where
  tree : Rbt
  calls : Nat

def step (rbtgetnode : Nat → Nat) (fuel : Nat) (state : State) : Op → Option State
  | .insert key data =>
    (rbtinsert fuel state.tree key data (rbtgetnode state.calls)).map (fun next => ⟨next.1, next.2.elim (state.calls + 1) (fun _ => state.calls)⟩)
  | .delete key =>
    (rbtfind fuel state.tree key).bind (fun found =>
      found.elim (some state) (fun node => (rbtdelete fuel state.tree node).map (fun next => ⟨next.1, state.calls⟩)))

def run (rbtgetnode : Nat → Nat) (fuel : Nat) : State → List Op → Option State
  | state, [] => some state
  | state, op :: ops => (step rbtgetnode fuel state op).bind (fun next => run rbtgetnode fuel next ops)

def start (mem : Rbt) : State := ⟨rbtinit mem, 0⟩

-- The keys that are inserted and not deleted, in what order they came.
def held : List Op → List Word → List Word
  | [], keys => keys
  | .insert key _ :: ops, keys => held ops (key :: keys)
  | .delete key :: ops, keys => held ops (keys.filter (fun other => other ≠ key))

def Finds (tree : Rbt) (keys : List Word) : Prop :=
  ∀ key, ∃ fuel found, rbtfind fuel tree key = some found ∧
    (key ∈ keys → ∃ adr, found = some (.item adr) ∧ tree.key (.item adr) = key) ∧ (key ∉ keys → found = none)

-- The nodes under a node from left to right, and the black nodes on each path
-- down to nil.
inductive Hangs (tree : Rbt) : Node → List Node → Nat → Prop
  | nil : Hangs tree .nil [] 0
  | black (node : Node) (low high : List Node) (height : Nat) : node ≠ .nil → rbtgetcolor tree node = rbtblack →
      Hangs tree (tree.left node) low height → Hangs tree (tree.right node) high height →
      Hangs tree node (low ++ node :: high) (height + 1)
  | red (node : Node) (low high : List Node) (height : Nat) : node ≠ .nil → rbtgetcolor tree node = rbtred →
      rbtgetcolor tree (tree.left node) = rbtblack → rbtgetcolor tree (tree.right node) = rbtblack →
      Hangs tree (tree.left node) low height → Hangs tree (tree.right node) high height →
      Hangs tree node (low ++ node :: high) height

-- The header keeps the tree under its left side.
def Shape (rbtgetnode : Nat → Nat) (state : State) (keys : List Word) : Prop :=
  rbtgetcolor state.tree (state.tree.left .root) = rbtblack ∧
    ∃ nodes height, Hangs state.tree (state.tree.left .root) nodes height ∧
      (∀ node ∈ nodes, ∃ call < state.calls, node = .item (rbtgetnode call)) ∧
      nodes.Pairwise (fun low high => (state.tree.key low).toInt < (state.tree.key high).toInt) ∧
      ∀ key, key ∈ keys ↔ ∃ node ∈ nodes, state.tree.key node = key

def Kept (rbtgetnode : Nat → Nat) (state : State) (keys : List Word) : Prop :=
  Shape rbtgetnode state keys ∧ Finds state.tree keys

-- rbtsetcolor only sets bits: a node that is red stays red.
def Rises (tree next : Rbt) : Prop := ∀ node, rbtgetcolor tree node = rbtred → rbtgetcolor next node = rbtred

theorem rises_refl (tree : Rbt) : Rises tree tree := fun _ red => red

theorem rises_trans (tree middle next : Rbt) (first : Rises tree middle) (second : Rises middle next) : Rises tree next :=
  fun node red => second node (first node red)

theorem rises_of_data (tree next : Rbt) (same : next.data = tree.data) : Rises tree next := by
  intro node red
  unfold rbtgetcolor at red ⊢
  rw [same]
  exact red

theorem color_or (word color : Word) (red : word &&& 1 = rbtred) : (word ||| color) &&& 1 = rbtred := by
  have split : (word ||| color) &&& 1 = (word &&& 1) ||| (color &&& 1) := by
    ext i hi
    simp [Bool.and_or_distrib_right]
  rw [split, red]
  ext i hi
  simp [rbtred]

theorem rbtsetcolor_rises (tree : Rbt) (node : Node) (color : Word) : Rises tree (rbtsetcolor tree node color) := by
  intro other red
  by_cases same : other = node
  · subst same
    simpa [rbtgetcolor, rbtsetcolor, Rbt.setData] using color_or (tree.data other) color red
  · simpa [rbtgetcolor, rbtsetcolor, Rbt.setData, same] using red

theorem rbtrotleft_data (tree : Rbt) (node : Node) : (rbtrotleft tree node).1.data = tree.data := by
  unfold rbtrotleft Rbt.setParent Rbt.setLeft Rbt.setRight
  dsimp only
  split_ifs <;> rfl

theorem rbtrotright_data (tree : Rbt) (node : Node) : (rbtrotright tree node).1.data = tree.data := by
  unfold rbtrotright Rbt.setParent Rbt.setLeft Rbt.setRight
  dsimp only
  split_ifs <;> rfl

theorem rbtrotleft_rises (tree : Rbt) (node : Node) : Rises tree (rbtrotleft tree node).1 :=
  rises_of_data tree _ (rbtrotleft_data tree node)

theorem rbtrotright_rises (tree : Rbt) (node : Node) : Rises tree (rbtrotright tree node).1 :=
  rises_of_data tree _ (rbtrotright_data tree node)

theorem recolor_rises (tree : Rbt) (parent uncle : Node) : Rises tree (recolor tree parent uncle) :=
  rises_trans _ _ _ (rises_trans _ _ _ (rbtsetcolor_rises tree parent rbtblack) (rbtsetcolor_rises _ uncle rbtblack)) (rbtsetcolor_rises _ _ rbtred)

theorem fixLeft_rises (tree : Rbt) (node parent : Node) : Rises tree (fixLeft tree node parent).1 := by
  unfold fixLeft
  refine rises_trans _ _ _ ?_ (rbtrotright_rises _ _)
  refine rises_trans _ _ _ (rises_trans _ _ _ ?_ (rbtsetcolor_rises _ _ rbtblack)) (rbtsetcolor_rises _ _ rbtred)
  split_ifs
  · exact rbtrotleft_rises tree parent
  · exact rises_refl tree

theorem fixRight_rises (tree : Rbt) (node parent : Node) : Rises tree (fixRight tree node parent).1 := by
  unfold fixRight
  refine rises_trans _ _ _ ?_ (rbtrotleft_rises _ _)
  refine rises_trans _ _ _ (rises_trans _ _ _ ?_ (rbtsetcolor_rises _ _ rbtblack)) (rbtsetcolor_rises _ _ rbtred)
  split_ifs
  · exact rbtrotright_rises tree (tree.parent node)
  · exact rises_refl tree

theorem fixStep_rises (tree : Rbt) (node parent : Node) : Rises tree (fixStep tree node parent).1 := by
  unfold fixStep
  dsimp only
  split_ifs
  · exact recolor_rises tree parent _
  · exact fixLeft_rises tree node parent
  · exact recolor_rises tree parent _
  · exact fixRight_rises tree node parent

theorem fixLoop_rises (fuel : Nat) (tree next : Rbt) (node parent : Node) (done : fixLoop fuel tree node parent = some next) :
    Rises tree next := by
  induction fuel generalizing tree node parent with
  | zero => simp [fixLoop] at done
  | succ fuel ih =>
    simp only [fixLoop] at done
    split_ifs at done with red
    · exact rises_trans _ _ _ (fixStep_rises tree node parent) (ih _ _ _ done)
    · cases done
      exact rbtsetcolor_rises tree .root rbtblack

theorem paint_rises (tree : Rbt) (first second : Node) (one two : Word) :
    Rises tree (rbtsetcolor (rbtsetcolor tree first one) second two) :=
  rises_trans _ _ _ (rbtsetcolor_rises tree first one) (rbtsetcolor_rises _ second two)

theorem raiseRight_rises (tree : Rbt) (parent sibling : Node) : Rises tree (raiseRight tree parent sibling) := by
  unfold raiseRight
  split_ifs
  · exact rises_trans _ _ _ (paint_rises tree sibling parent _ _) (rbtrotleft_rises _ _)
  · exact rises_refl tree

theorem raiseLeft_rises (tree : Rbt) (parent sibling : Node) : Rises tree (raiseLeft tree parent sibling) := by
  unfold raiseLeft
  split_ifs
  · exact rises_trans _ _ _ (paint_rises tree sibling parent _ _) (rbtrotright_rises _ _)
  · exact rises_refl tree

theorem turnRight_rises (tree : Rbt) (sibling : Node) : Rises tree (turnRight tree sibling) := by
  unfold turnRight
  split_ifs
  · exact rises_trans _ _ _ (paint_rises tree _ sibling _ _) (rbtrotright_rises _ _)
  · exact rises_refl tree

theorem turnLeft_rises (tree : Rbt) (sibling : Node) : Rises tree (turnLeft tree sibling) := by
  unfold turnLeft
  split_ifs
  · exact rises_trans _ _ _ (paint_rises tree _ sibling _ _) (rbtrotleft_rises _ _)
  · exact rises_refl tree

theorem settle_rises (tree : Rbt) (parent sibling child : Node) : Rises tree (settle tree parent sibling child) :=
  rises_trans _ _ _ (paint_rises tree sibling parent _ _) (rbtsetcolor_rises _ child rbtblack)

theorem repairLeft_rises (tree : Rbt) (parent : Node) : Rises tree (repairLeft tree parent).1 := by
  have raised := raiseRight_rises tree parent (tree.right parent)
  unfold repairLeft
  dsimp only
  split_ifs
  · exact rises_trans _ _ _ raised (rbtsetcolor_rises _ _ rbtred)
  · have turned := rises_trans _ _ _ raised (turnRight_rises _ ((raiseRight tree parent (tree.right parent)).right parent))
    exact rises_trans _ _ _ (rises_trans _ _ _ turned (settle_rises _ _ _ _)) (rbtrotleft_rises _ _)

theorem repairRight_rises (tree : Rbt) (parent : Node) : Rises tree (repairRight tree parent).1 := by
  have raised := raiseLeft_rises tree parent (tree.left parent)
  unfold repairRight
  dsimp only
  split_ifs
  · exact rises_trans _ _ _ raised (rbtsetcolor_rises _ _ rbtred)
  · have turned := rises_trans _ _ _ raised (turnLeft_rises _ ((raiseLeft tree parent (tree.left parent)).left parent))
    exact rises_trans _ _ _ (rises_trans _ _ _ turned (settle_rises _ _ _ _)) (rbtrotright_rises _ _)

theorem rbtrepair_rises (fuel : Nat) (tree next : Rbt) (node : Node) (done : rbtrepair fuel tree node = some next) : Rises tree next := by
  induction fuel generalizing tree node with
  | zero => simp [rbtrepair] at done
  | succ fuel ih =>
    have left := repairLeft_rises tree (tree.parent node)
    have right := repairRight_rises tree (tree.parent node)
    simp only [rbtrepair] at done
    split_ifs at done with black side
    · cases goes : (repairLeft tree (tree.parent node)).2 with
      | none =>
        simp only [goes, Option.elim_none, Option.some.injEq] at done
        exact done ▸ left
      | some later =>
        simp only [goes, Option.elim_some] at done
        exact rises_trans _ _ _ left (ih _ later done)
    · cases goes : (repairRight tree (tree.parent node)).2 with
      | none =>
        simp only [goes, Option.elim_none, Option.some.injEq] at done
        exact done ▸ right
      | some later =>
        simp only [goes, Option.elim_some] at done
        exact rises_trans _ _ _ right (ih _ later done)
    · cases done
      exact rises_refl _

theorem takeOut_data (tree : Rbt) (node2 node1 : Node) : (takeOut tree node2 node1).data = tree.data := by
  unfold takeOut Rbt.setParent Rbt.setLeft Rbt.setRight
  dsimp only
  split_ifs <;> rfl

theorem replace_data (tree : Rbt) (node node2 : Node) : (replace tree node node2).data = tree.data := by
  unfold replace Rbt.setParent Rbt.setLeft Rbt.setRight
  dsimp only
  split_ifs <;> rfl

theorem repaired_rises (fuel : Nat) (tree next : Rbt) (node2 node1 : Node) (done : repaired fuel tree node2 node1 = some next) :
    Rises tree next := by
  unfold repaired at done
  split_ifs at done
  · exact rbtrepair_rises fuel tree next node1 done
  · cases done
    exact rises_refl _

theorem rbtdelete_rises (fuel : Nat) (tree : Rbt) (node : Node) (next : Rbt × Word) (done : rbtdelete fuel tree node = some next) :
    Rises tree next.1 := by
  simp only [rbtdelete, Option.bind_eq_bind, Option.bind_eq_some_iff, Option.some.injEq] at done
  obtain ⟨node2, -, fixed, repair, rfl⟩ := done
  have taken := rises_trans _ _ _ (rises_of_data tree _ (takeOut_data tree node2 _)) (repaired_rises _ _ _ _ _ repair)
  dsimp only
  split_ifs
  · exact rises_trans _ _ _ taken (rises_of_data fixed _ (replace_data fixed node node2))
  · exact taken

theorem fresh_red (tree : Rbt) (node : Node) (key data : Word) : rbtgetcolor (fresh tree node key data) node = rbtred := by
  have low : rbtred &&& 1 = rbtred := by decide
  simpa [fresh, rbtgetcolor, rbtsetcolor, Rbt.setData, BitVec.or_comm] using color_or rbtred data low

theorem fresh_rises (tree : Rbt) (node : Node) (key data : Word) : Rises tree (fresh tree node key data) := by
  intro other old
  by_cases same : other = node
  · rw [same]
    exact fresh_red tree node key data
  · simpa [fresh, rbtgetcolor, rbtsetcolor, Rbt.setData, Rbt.setKey, same] using old

theorem hang_data (tree : Rbt) (node parent : Node) (data : Word) : (hang tree node parent data).data = tree.data := by
  unfold hang Rbt.setParent Rbt.setLeft Rbt.setRight
  dsimp only
  split_ifs <;> rfl

theorem rbtinsert_lost (fuel adr : Nat) (tree : Rbt) (key data : Word) (search : descend fuel tree key .root .root = none) :
    rbtinsert fuel tree key data adr = none := by
  unfold rbtinsert
  rw [search]
  rfl

theorem rbtinsert_found (fuel adr : Nat) (tree : Rbt) (key data : Word) (found : Node)
    (search : descend fuel tree key .root .root = some (.inl found)) : rbtinsert fuel tree key data adr = some (tree, some found) := by
  unfold rbtinsert
  rw [search]
  rfl

theorem rbtinsert_new (fuel adr : Nat) (tree : Rbt) (key data : Word) (parent : Node)
    (search : descend fuel tree key .root .root = some (.inr parent)) : rbtinsert fuel tree key data adr =
      (rbtfix fuel (hang (fresh tree (.item adr) key data) (.item adr) parent data) (.item adr)).map (fun tree => (tree, none)) := by
  unfold rbtinsert
  rw [search]
  cases fixed : rbtfix fuel (hang (fresh tree (.item adr) key data) (.item adr) parent data) (.item adr) with
  | none => simp [fixed]
  | some tree => simp [fixed]

theorem rbtinsert_rises (fuel adr : Nat) (tree : Rbt) (key data : Word) (next : Rbt × Option Node)
    (done : rbtinsert fuel tree key data adr = some next) :
    Rises tree next.1 ∧ (next.2 = none → rbtgetcolor next.1 (.item adr) = rbtred) := by
  cases search : descend fuel tree key .root .root with
  | none =>
    rw [rbtinsert_lost fuel adr tree key data search] at done
    cases done
  | some place =>
    cases place with
    | inl found =>
      rw [rbtinsert_found fuel adr tree key data found search] at done
      cases done
      exact ⟨rises_refl tree, by simp⟩
    | inr parent =>
      rw [rbtinsert_new fuel adr tree key data parent search] at done
      obtain ⟨fixed, fix, rfl⟩ := Option.map_eq_some_iff.mp done
      have later := rises_trans _ _ _ (rises_of_data _ _ (hang_data (fresh tree (.item adr) key data) (.item adr) parent data)) (fixLoop_rises _ _ _ _ _ fix)
      exact ⟨rises_trans _ _ _ (fresh_rises tree (.item adr) key data) later, fun _ => later _ (fresh_red tree (.item adr) key data)⟩

-- Every node that was handed out is red from then on.
def Reds (rbtgetnode : Nat → Nat) (state : State) : Prop :=
  ∀ call < state.calls, rbtgetcolor state.tree (.item (rbtgetnode call)) = rbtred

theorem start_reds (rbtgetnode : Nat → Nat) (mem : Rbt) : Reds rbtgetnode (start mem) := by
  intro call early
  cases early

theorem step_reds (rbtgetnode : Nat → Nat) (fuel : Nat) (state next : State) (op : Op) (reds : Reds rbtgetnode state)
    (taken : step rbtgetnode fuel state op = some next) : Reds rbtgetnode next := by
  cases op with
  | insert key data =>
    obtain ⟨after, done, rfl⟩ := Option.map_eq_some_iff.mp taken
    obtain ⟨kept, new⟩ := rbtinsert_rises fuel (rbtgetnode state.calls) state.tree key data after done
    intro call early
    obtain ⟨tree, found⟩ := after
    cases found with
    | none =>
      rcases Nat.lt_succ_iff_lt_or_eq.mp early with old | rfl
      · exact kept _ (reds call old)
      · exact new rfl
    | some found => exact kept _ (reds call early)
  | delete key =>
    obtain ⟨found, -, done⟩ := Option.bind_eq_some_iff.mp taken
    cases found with
    | none =>
      cases done
      exact reds
    | some node =>
      obtain ⟨after, deleted, rfl⟩ := Option.map_eq_some_iff.mp done
      exact fun call early => rbtdelete_rises fuel state.tree node after deleted _ (reds call early)

theorem run_reds (rbtgetnode : Nat → Nat) (fuel : Nat) (state last : State) (ops : List Op) (reds : Reds rbtgetnode state)
    (done : run rbtgetnode fuel state ops = some last) : Reds rbtgetnode last := by
  induction ops generalizing state with
  | nil =>
    cases done
    exact reds
  | cons op ops ih =>
    obtain ⟨next, taken, rest⟩ := Option.bind_eq_some_iff.mp done
    exact ih next (step_reds rbtgetnode fuel state next op reds taken) rest

-- So the topmost node of a tree that holds a key is red.
theorem shape_empty (rbtgetnode : Nat → Nat) (state : State) (keys : List Word) (reds : Reds rbtgetnode state)
    (shape : Shape rbtgetnode state keys) : keys = [] := by
  obtain ⟨black, nodes, height, hangs, items, -, exactly⟩ := shape
  have bare : nodes = [] := by
    generalize state.tree.left .root = top at black hangs
    cases hangs with
    | nil => rfl
    | black _ low high height some_node _ left right =>
      obtain ⟨call, early, same⟩ := items top (by simp)
      rw [same, reds call early] at black
      cases black
    | red _ low high _ some_node red leftBlack rightBlack left right =>
      rw [red] at black
      cases black
  subst bare
  exact List.eq_nil_iff_forall_not_mem.mpr fun key inside => by simpa using (exactly key).mp inside

theorem shape_never (rbtgetnode : Nat → Nat) (fuel : Nat) (mem : Rbt) (ops : List Op) (last : State)
    (done : run rbtgetnode fuel (start mem) ops = some last) (some_key : held ops [] ≠ []) : ¬Shape rbtgetnode last (held ops []) := fun shape =>
  some_key (shape_empty rbtgetnode last _ (run_reds rbtgetnode fuel _ last ops (start_reds rbtgetnode mem) done) shape)

theorem descend_header (fuel : Nat) (tree : Rbt) : descend (fuel + 1) tree (tree.key .root) .root .root = some (.inl .root) := by
  simp [descend, rbtcmpkeys]

-- A search starts at the header and compares its key, which no insertion wrote.
theorem rbtfind_header (fuel : Nat) (tree : Rbt) (found : Option Node) (done : rbtfind fuel tree (tree.key .root) = some found) :
    found = some .root := by
  cases fuel with
  | zero => simp [rbtfind, descend] at done
  | succ fuel => simpa [rbtfind, descend_header] using done.symm

theorem finds_never (tree : Rbt) (keys : List Word) : ¬Finds tree keys := by
  intro finds
  obtain ⟨fuel, found, done, present, absent⟩ := finds (tree.key .root)
  have header := rbtfind_header fuel tree found done
  subst header
  by_cases inside : tree.key .root ∈ keys
  · obtain ⟨adr, same, -⟩ := present inside
    cases same
  · cases absent inside

theorem rbt_never (mem : Rbt) (rbtgetnode : Nat → Nat) (ops : List Op) :
    (¬∃ fuel state, run rbtgetnode fuel (start mem) ops = some state ∧ Kept rbtgetnode state (held ops [])) ∧
      (held ops [] ≠ [] → ¬∃ fuel state, run rbtgetnode fuel (start mem) ops = some state ∧ Shape rbtgetnode state (held ops [])) := by
  constructor
  · rintro ⟨fuel, state, -, kept⟩
    exact finds_never state.tree (held ops []) kept.2
  · rintro some_key ⟨fuel, state, done, shape⟩
    exact shape_never rbtgetnode fuel mem ops state done some_key shape

def fixes : Nat → Rbt × Node × Node → Rbt × Node × Node
  | 0, point => point
  | count + 1, point => fixes count (fixStep point.1 point.2.1 point.2.2)

-- A red node that is its own parent and left child, with nil red on its right.
structure Stuck (tree : Rbt) (node : Node) : Prop where
  red : rbtgetcolor tree node = rbtred
  nilRed : rbtgetcolor tree .nil = rbtred
  parent : tree.parent node = node
  left : tree.left node = node
  right : tree.right node = .nil

theorem stuck_hangs (fuel : Nat) (tree : Rbt) (node : Node) (stuck : Stuck tree node) : fixLoop fuel tree node node = none := by
  induction fuel generalizing tree with
  | zero => rfl
  | succ fuel ih =>
    have same : fixStep tree node node = (recolor tree node .nil, node, node) := by
      have back : (recolor tree node .nil).parent node = node := stuck.parent
      simp [fixStep, stuck.parent, stuck.left, stuck.right, stuck.nilRed, back]
    have risen := recolor_rises tree node .nil
    have again : Stuck (recolor tree node .nil) node :=
      ⟨risen node stuck.red, risen .nil stuck.nilRed, stuck.parent, stuck.left, stuck.right⟩
    simp only [fixLoop, stuck.red, if_true, same]
    exact ih _ again

theorem fixes_hang (count : Nat) (point : Rbt × Node × Node)
    (red : ∀ turn < count, rbtgetcolor (fixes turn point).1 (fixes turn point).2.2 = rbtred)
    (later : ∀ fuel, fixLoop fuel (fixes count point).1 (fixes count point).2.1 (fixes count point).2.2 = none) (fuel : Nat) :
    fixLoop fuel point.1 point.2.1 point.2.2 = none := by
  induction count generalizing point fuel with
  | zero => exact later fuel
  | succ count ih =>
    cases fuel with
    | zero => rfl
    | succ fuel =>
      have now : rbtgetcolor point.1 point.2.2 = rbtred := red 0 (Nat.succ_pos count)
      simp only [fixLoop, now, if_true]
      exact ih (fixStep point.1 point.2.1 point.2.2) (fun turn early => red (turn + 1) (Nat.succ_lt_succ early)) later fuel

def zeroed : Rbt := ⟨fun _ => 0, fun _ => 0, fun _ => .nil, fun _ => .nil, fun _ => .nil⟩

def firstItem : Rbt := rbtsetcolor (hang (fresh (rbtinit zeroed) (.item 0) (-1) 8) (.item 0) .root 8) .root rbtblack

def secondItem : Rbt := hang (fresh firstItem (.item 1) (-2) 4) (.item 1) (.item 0) 4

theorem secondItem_hangs (fuel : Nat) : rbtfix fuel secondItem (.item 1) = none := by
  have reaches : (fixes 5 (secondItem, .item 1, .item 0)).2 = (.item 1, .item 1) := by decide +kernel
  have stuck : Stuck (fixes 5 (secondItem, .item 1, .item 0)).1 (.item 1) :=
    ⟨by decide +kernel, by decide +kernel, by decide +kernel, by decide +kernel, by decide +kernel⟩
  refine fixes_hang 5 (secondItem, .item 1, .item 0) (by decide +kernel) (fun fuel => ?_) fuel
  rw [reaches]
  exact stuck_hangs fuel _ _ stuck

theorem descend_same (fuel other : Nat) (tree : Rbt) (key : Word) (parent node : Node) (found alike : Node ⊕ Node)
    (done : descend fuel tree key parent node = some found) (also : descend other tree key parent node = some alike) : found = alike := by
  induction fuel generalizing other parent node with
  | zero => cases done
  | succ fuel ih =>
    cases other with
    | zero => cases also
    | succ other =>
      simp only [descend] at done also
      split_ifs at done also with bottom equal below
      · exact Option.some.inj (done.symm.trans also)
      · exact Option.some.inj (done.symm.trans also)
      · exact ih other node _ done also
      · exact ih other node _ done also

theorem firstItem_inserted (fuel : Nat) (next : State) (taken : step id fuel (start zeroed) (.insert (-1) 8) = some next) :
    next = ⟨firstItem, 1⟩ := by
  obtain ⟨after, done, rfl⟩ := Option.map_eq_some_iff.mp taken
  cases search : descend fuel (start zeroed).tree (-1) .root .root with
  | none =>
    rw [rbtinsert_lost fuel _ _ _ _ search] at done
    cases done
  | some place =>
    have under := descend_same fuel 2 _ _ _ _ place (.inr .root) search (by decide +kernel)
    subst under
    rw [rbtinsert_new fuel _ _ _ _ .root search] at done
    obtain ⟨fixed, fix, rfl⟩ := Option.map_eq_some_iff.mp done
    cases fuel with
    | zero => cases search
    | succ fuel =>
      have same : some firstItem = some fixed := fix
      cases same
      rfl

-- The second insertion under a red parent never comes out of the fix-up.
theorem secondItem_never (fuel : Nat) : step id fuel ⟨firstItem, 1⟩ (.insert (-2) 4) = none := by
  refine Option.map_eq_none_iff.mpr ?_
  cases search : descend fuel firstItem (-2) .root .root with
  | none => exact rbtinsert_lost fuel 1 firstItem (-2) 4 search
  | some place =>
    have under := descend_same fuel 3 _ _ _ _ place (.inr (.item 0)) search (by decide +kernel)
    subst under
    have hangs : rbtfix fuel (hang (fresh firstItem (.item 1) (-2) 4) (.item 1) (.item 0) 4) (.item 1) = none := secondItem_hangs fuel
    exact (rbtinsert_new fuel 1 firstItem (-2) 4 (.item 0) search).trans (by rw [hangs]; rfl)

theorem rbt_fails : ¬∀ (mem : Rbt) (rbtgetnode : Nat → Nat) (ops : List Op),
    ∃ fuel state, run rbtgetnode fuel (start mem) ops = some state ∧ Kept rbtgetnode state (held ops []) := by
  intro all
  obtain ⟨fuel, state, done, -⟩ := all zeroed id [.insert (-1) 8, .insert (-2) 4]
  obtain ⟨first, taken, rest⟩ := Option.bind_eq_some_iff.mp done
  obtain ⟨second, other, -⟩ := Option.bind_eq_some_iff.mp rest
  rw [firstItem_inserted fuel first taken, secondItem_never fuel] at other
  cases other

end OsZero.Redblack

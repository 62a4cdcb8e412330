import Mathlib.Data.List.TakeWhile
import Mathlib.Data.List.Perm.Basic

set_option autoImplicit false

namespace Yard

universe u

inductive Kind where
  | value
  | unary
  | binary
  | opening
  | closing
deriving DecidableEq

variable {α : Type u} (kind : α → Kind) (pops : α → α → Bool)

def isop (t : α) : Bool := kind t = .unary || kind t = .binary

-- The token lists of the grammar: an operand (true), or operands with binary operators
-- between them (false).
inductive Infix : Bool → List α → Prop
  | value (t : α) : kind t = .value → Infix true [t]
  | paren (lp rp : α) (ts : List α) : kind lp = .opening → kind rp = .closing → Infix false ts → Infix true (lp :: ts ++ [rp])
  | unary (t : α) (ts : List α) : kind t = .unary → Infix true ts → Infix true (t :: ts)
  | one (ts : List α) : Infix true ts → Infix false ts
  | more (t : α) (ts us : List α) : kind t = .binary → Infix true ts → Infix false us → Infix false (ts ++ t :: us)

inductive Expr (α : Type u) where
  | value (t : α)
  | paren (lp rp : α) (e : Expr α)
  | unary (t : α) (e : Expr α)
  | binary (t : α) (l r : Expr α)

namespace Expr

def tokens : Expr α → List α
  | value t => [t]
  | paren lp rp e => lp :: e.tokens ++ [rp]
  | unary t e => t :: e.tokens
  | binary t l r => l.tokens ++ t :: r.tokens

def rpn : Expr α → List α
  | value t => [t]
  | paren _ _ e => e.rpn
  | unary t e => e.rpn ++ [t]
  | binary t l r => l.rpn ++ r.rpn ++ [t]

-- The operators outside of parentheses.
def exposed : Expr α → List α
  | value _ => []
  | paren _ _ _ => []
  | unary t e => t :: e.exposed
  | binary t l r => l.exposed ++ t :: r.exposed

def Typed : Expr α → Prop
  | value t => kind t = .value
  | paren lp rp e => kind lp = .opening ∧ kind rp = .closing ∧ e.Typed
  | unary t e => kind t = .unary ∧ e.Typed
  | binary t l r => kind t = .binary ∧ l.Typed ∧ r.Typed

-- A property of every node of a tree.
def Every (unaries : α → Expr α → Prop) (binaries : α → Expr α → Expr α → Prop) : Expr α → Prop
  | value _ => True
  | paren _ _ e => e.Every unaries binaries
  | unary t e => e.Every unaries binaries ∧ unaries t e
  | binary t l r => l.Every unaries binaries ∧ r.Every unaries binaries ∧ binaries t l r

-- The operators on the left are popped when t comes, those on the right do not pop t.
def Shaped : Expr α → Prop :=
  Every (fun t e => ∀ o ∈ e.exposed, pops t o = false) fun t l r => (∀ o ∈ l.exposed, pops o t = true) ∧ ∀ o ∈ r.exposed, pops t o = false

-- No operator is bare on the right of one that it is bad for.
def Calm (bad : α → α → Prop) : Expr α → Prop := Every (fun _ _ => True) fun t _ r => ∀ o ∈ r.exposed, ¬bad t o

end Expr

-- The output and the stack after a token; none for a closing one without an opening one.
def step (t : α) (state : List α × List α) : Option (List α × List α) :=
  match kind t with
  | .value => some (state.1 ++ [t], state.2)
  | .opening => some (state.1, t :: state.2)
  | .closing =>
      match state.2.dropWhile fun o => kind o ≠ .opening with
      | [] => none
      | _ :: rest => some (state.1 ++ state.2.takeWhile fun o => kind o ≠ .opening, rest)
  | _ => some (state.1 ++ state.2.takeWhile fun o => isop kind o && pops o t, t :: state.2.dropWhile fun o => isop kind o && pops o t)

def run : List α → List α × List α → Option (List α × List α)
  | [], state => some state
  | t :: ts, state => step kind pops t state >>= run ts

def finish (state : List α × List α) : Option (List α) :=
  if state.2.all fun o => kind o ≠ .opening then some (state.1 ++ state.2) else none

def yard (ts : List α) : Option (List α) :=
  run kind pops ts ([], []) >>= finish kind

-- How many more opening than closing tokens there are.
def depth : List α → Int
  | [] => 0
  | t :: ts => (if kind t = .opening then 1 else if kind t = .closing then -1 else 0) + depth ts

def Level (ts : List α) : Prop := depth kind ts = 0 ∧ ∀ us vs, ts = us ++ vs → 0 ≤ depth kind us

-- A pair of operators of one group of parentheses, the first bad for the second, with
-- none but certain operators of the group between.
def Pair (bad between : α → α → Prop) (ts x : List α) (p : α) (y : List α) (a : α) (z : List α) : Prop :=
  ts = x ++ p :: (y ++ a :: z) ∧ bad p a ∧ Level kind y ∧ ∀ y₁ o y₂, y = y₁ ++ o :: y₂ → depth kind y₁ = 0 → isop kind o = true → between p o

def Clash (bad between : α → α → Prop) (ts : List α) : Prop := ∃ x p y a z, Pair kind bad between ts x p y a z

def balanced : Nat → List α → Bool
  | depth, [] => depth = 0
  | depth, t :: ts =>
      match kind t with
      | .opening => balanced (depth + 1) ts
      | .closing => depth ≠ 0 && balanced (depth - 1) ts
      | _ => balanced depth ts

section Runs

variable {kind : α → Kind} {pops : α → α → Bool}

theorem isop_unary (t : α) (unary : kind t = .unary) : isop kind t = true := by
  rw [isop, unary]
  rfl

theorem isop_binary (t : α) (binary : kind t = .binary) : isop kind t = true := by
  rw [isop, binary]
  rfl

theorem exposed_isop (e : Expr α) (typed : e.Typed kind) (o : α) (bare : o ∈ e.exposed) : isop kind o = true := by
  induction e with
  | value t => contradiction
  | paren lp rp e => contradiction
  | unary t e ih =>
    rcases List.mem_cons.mp bare with rfl | inner
    · exact isop_unary _ typed.1
    · exact ih typed.2 inner
  | binary t l r ihl ihr =>
    rw [Expr.exposed, List.mem_append, List.mem_cons] at bare
    rcases bare with left | rfl | right
    · exact ihl typed.2.1 left
    · exact isop_binary _ typed.1
    · exact ihr typed.2.2 right

theorem isop_not_opening (o : α) (operator : isop kind o = true) : kind o ≠ .opening := by
  intro opening
  rw [isop, opening] at operator
  contradiction

theorem run_append (first second : List α) (state : List α × List α) :
    run kind pops (first ++ second) state = run kind pops first state >>= run kind pops second := by
  induction first generalizing state with
  | nil => rfl
  | cons t first ih =>
    rw [List.cons_append, run, run]
    cases step kind pops t state with
    | none => rfl
    | some later => exact ih later

theorem step_value (t : α) (value : kind t = .value) (queue stack : List α) : step kind pops t (queue, stack) = some (queue ++ [t], stack) := by
  rw [step, value]

theorem step_opening (t : α) (opening : kind t = .opening) (queue stack : List α) : step kind pops t (queue, stack) = some (queue, t :: stack) := by
  rw [step, opening]

-- A closing token pops what is pending behind the last opening one.
theorem step_closing (t lp : α) (closing : kind t = .closing) (opening : kind lp = .opening) (queue pending stack : List α)
    (operators : ∀ o ∈ pending, isop kind o = true) :
    step kind pops t (queue, pending ++ lp :: stack) = some (queue ++ pending, stack) := by
  have inner : ∀ o ∈ pending, decide (kind o ≠ .opening) = true := fun o member => decide_eq_true (isop_not_opening o (operators o member))
  have outer : ¬decide (kind lp ≠ .opening) = true := by
    rw [opening]
    decide
  have none : (lp :: stack).takeWhile (fun o => decide (kind o ≠ .opening)) = [] := List.takeWhile_cons_of_neg outer
  have whole : (lp :: stack).dropWhile (fun o => decide (kind o ≠ .opening)) = lp :: stack := List.dropWhile_cons_of_neg outer
  rw [step, closing]
  simp only [List.dropWhile_append_of_pos inner, List.takeWhile_append_of_pos inner, none, whole, List.append_nil]

theorem step_pops (t : α) (operator : isop kind t = true) (queue stack : List α) :
    step kind pops t (queue, stack) = some (queue ++ stack.takeWhile (fun o => isop kind o && pops o t),
      t :: stack.dropWhile fun o => isop kind o && pops o t) := by
  rw [step]
  rw [isop, Bool.or_eq_true, decide_eq_true_eq, decide_eq_true_eq] at operator
  rcases operator with unary | binary
  · rw [unary]
  · rw [binary]

-- An operator pops what is pending and leaves what is behind it.
theorem step_operator (t : α) (operator : isop kind t = true) (queue pending stack : List α)
    (popped : ∀ o ∈ pending, isop kind o = true ∧ pops o t = true)
    (kept : ∀ o rest, stack = o :: rest → isop kind o = true → pops o t = false) :
    step kind pops t (queue, pending ++ stack) = some (queue ++ pending, t :: stack) := by
  have inner : ∀ o ∈ pending, (isop kind o && pops o t) = true := fun o member => Bool.and_eq_true_iff.mpr (popped o member)
  have outer : stack.takeWhile (fun o => isop kind o && pops o t) = [] ∧ stack.dropWhile (fun o => isop kind o && pops o t) = stack := by
    cases stack with
    | nil => exact ⟨rfl, rfl⟩
    | cons o rest =>
      have stays : ¬(isop kind o && pops o t) = true := by
        intro both
        obtain ⟨first, second⟩ := Bool.and_eq_true_iff.mp both
        rw [kept o rest rfl first] at second
        contradiction
      exact ⟨List.takeWhile_cons_of_neg stays, List.dropWhile_cons_of_neg stays⟩
  rw [step_pops t operator, List.takeWhile_append_of_pos inner, List.dropWhile_append_of_pos inner, outer.1, outer.2, List.append_nil]

-- The tokens of a shaped tree leave its reverse Polish form, the last operators still
-- on the stack.
theorem run_tokens (e : Expr α) (typed : e.Typed kind) (shaped : e.Shaped pops) (queue stack rest : List α)
    (kept : ∀ o below, stack = o :: below → isop kind o = true → ∀ t ∈ e.exposed, pops o t = false) :
    ∃ out pending, run kind pops (e.tokens ++ rest) (queue, stack) = run kind pops rest (queue ++ out, pending ++ stack) ∧
      out ++ pending = e.rpn ∧ ∀ o ∈ pending, o ∈ e.exposed := by
  induction e generalizing queue stack rest with
  | value t =>
    refine ⟨[t], [], ?_, rfl, fun o none => by contradiction⟩
    rw [Expr.tokens, List.singleton_append, run, step_value t typed]
    rfl
  | paren lp rp e ih =>
    obtain ⟨opening, closing, inner⟩ := typed
    have bare : ∀ o below, lp :: stack = o :: below → isop kind o = true → ∀ t ∈ e.exposed, pops o t = false := by
      intro o below same operator
      obtain ⟨rfl, rfl⟩ := List.cons.inj same
      exact absurd opening (isop_not_opening lp operator)
    obtain ⟨out, pending, ran, whole, exposed⟩ := ih inner shaped queue (lp :: stack) (rp :: rest) bare
    have operators : ∀ o ∈ pending, isop kind o = true := fun o member => exposed_isop e inner o (exposed o member)
    refine ⟨out ++ pending, [], ?_, (List.append_nil _).trans whole, fun o none => by contradiction⟩
    rw [Expr.tokens, List.append_assoc, List.cons_append, run, step_opening lp opening, Option.bind_eq_bind, Option.bind_some,
      List.singleton_append, ran, run, step_closing rp lp closing opening _ _ _ operators, List.append_assoc]
    rfl
  | unary t e ih =>
    obtain ⟨unary, inner⟩ := typed
    have operator := isop_unary t unary
    have bare : ∀ o below, t :: stack = o :: below → isop kind o = true → ∀ u ∈ e.exposed, pops o u = false := by
      intro o below same _
      obtain ⟨rfl, rfl⟩ := List.cons.inj same
      exact shaped.2
    have first := step_operator t operator queue [] stack (fun o none => by contradiction)
      fun o below same op => kept o below same op t (List.mem_cons_self ..)
    obtain ⟨out, pending, ran, whole, exposed⟩ := ih inner shaped.1 queue (t :: stack) rest bare
    refine ⟨out, pending ++ [t], ?_, ?_, ?_⟩
    · rw [Expr.tokens, List.cons_append, run, show step kind pops t (queue, stack) = _ from first, Option.bind_eq_bind, Option.bind_some,
        List.append_nil, ran, List.append_assoc, List.singleton_append]
    · rw [← List.append_assoc, whole]
      rfl
    · intro o member
      rcases List.mem_append.mp member with before | last
      · exact List.mem_cons_of_mem _ (exposed o before)
      · rw [List.mem_singleton.mp last]
        exact List.mem_cons_self ..
  | binary t l r ihl ihr =>
    obtain ⟨binary, typedl, typedr⟩ := typed
    obtain ⟨shapedl, shapedr, popped, stays⟩ := shaped
    have operator := isop_binary t binary
    obtain ⟨out, pending, ran, whole, exposed⟩ := ihl typedl shapedl queue stack (t :: r.tokens ++ rest)
      fun o below same op u member => kept o below same op u (List.mem_append_left _ member)
    have second := step_operator t operator (queue ++ out) pending stack
      (fun o member => ⟨exposed_isop l typedl o (exposed o member), popped o (exposed o member)⟩)
      fun o below same op => kept o below same op t (List.mem_append_right _ (List.mem_cons_self ..))
    obtain ⟨out', pending', ran', whole', exposed'⟩ := ihr typedr shapedr (queue ++ out ++ pending) (t :: stack) rest (by
      intro o below same _
      obtain ⟨rfl, rfl⟩ := List.cons.inj same
      exact stays)
    refine ⟨l.rpn ++ out', pending' ++ [t], ?_, ?_, ?_⟩
    · rw [Expr.tokens, List.append_assoc, ran, List.cons_append, run, second, Option.bind_eq_bind, Option.bind_some, ran', List.append_assoc,
        List.append_assoc, ← List.append_assoc out, whole, List.append_assoc, List.singleton_append]
    · rw [Expr.rpn, ← whole']
      simp only [List.append_assoc]
    · intro o member
      rw [Expr.exposed, List.mem_append, List.mem_cons]
      rcases List.mem_append.mp member with before | last
      · exact .inr (.inr (exposed' o before))
      · exact .inr (.inl (List.mem_singleton.mp last))

theorem yard_tokens (e : Expr α) (typed : e.Typed kind) (shaped : e.Shaped pops) : yard kind pops e.tokens = some e.rpn := by
  obtain ⟨out, pending, ran, whole, exposed⟩ := run_tokens e typed shaped [] [] [] fun o below same => by contradiction
  rw [List.append_nil, List.nil_append, List.append_nil] at ran
  have operators : (pending.all fun o => decide (kind o ≠ .opening)) = true :=
    List.all_eq_true.mpr fun o member => decide_eq_true (isop_not_opening o (exposed_isop e typed o (exposed o member)))
  rw [yard, ran, run, Option.bind_eq_bind, Option.bind_some, finish, if_pos operators, whole]

end Runs

-- What makes a list of the grammar have a shaped tree.
structure Precedence (kind : α → Kind) (pops : α → α → Bool) : Prop where
  right : ∀ o t u, pops o t = true → pops o u = false → pops u t = true
  left : ∀ u o t, pops u o = true → pops o t = true → pops u t = true
  keeps : ∀ o t, kind t = .unary → pops o t = false
  binds : ∀ o t, kind o = .unary → kind t = .binary → pops o t = true

section Shapes

variable {kind : α → Kind} {pops : α → α → Bool} (order : Precedence kind pops)
include order

theorem exposed_popped (o t : α) (l r : Expr α) (popped : pops o t = true) (below : ∀ u ∈ l.exposed, pops u o = true)
    (above : ∀ u ∈ r.exposed, pops o u = false) : ∀ u ∈ (Expr.binary o l r).exposed, pops u t = true := by
  intro u member
  rw [Expr.exposed, List.mem_append, List.mem_cons] at member
  rcases member with left | rfl | right
  · exact order.left u o t (below u left) popped
  · exact popped
  · exact order.right o t u popped (above u right)

-- A binary operator and an operand behind a shaped tree.
theorem attach (e x : Expr α) (t : α) (binary : kind t = .binary) (typed : e.Typed kind) (shaped : e.Shaped pops) (operand : x.Typed kind)
    (shape : x.Shaped pops) (bare : ∀ o ∈ x.exposed, kind o = .unary) :
    ∃ e' : Expr α, e'.tokens = e.tokens ++ t :: x.tokens ∧ e'.Typed kind ∧ e'.Shaped pops ∧
      ∀ o ∈ e'.exposed, o ∈ e.exposed ∨ o = t ∨ kind o = .unary := by
  have top : ∀ l : Expr α, l.Typed kind → l.Shaped pops → (∀ o ∈ l.exposed, pops o t = true) →
      ∃ e' : Expr α, e'.tokens = l.tokens ++ t :: x.tokens ∧ e'.Typed kind ∧ e'.Shaped pops ∧
        ∀ o ∈ e'.exposed, o ∈ l.exposed ∨ o = t ∨ kind o = .unary := by
    intro l typedl shapedl popped
    refine ⟨.binary t l x, rfl, ⟨binary, typedl, operand⟩, ⟨shapedl, shape, popped, fun o member => order.keeps t o (bare o member)⟩, ?_⟩
    intro o member
    rw [Expr.exposed, List.mem_append, List.mem_cons] at member
    exact member.imp_right fun rest => rest.imp_right fun inner => bare o inner
  induction e with
  | value u => exact top _ typed shaped fun o none => by contradiction
  | paren lp rp e => exact top _ typed shaped fun o none => by contradiction
  | unary u e =>
    refine top _ typed shaped fun o member => ?_
    have first := order.binds u t typed.1 binary
    rcases List.mem_cons.mp member with rfl | inner
    · exact first
    · exact order.right u t o first (shaped.2 o inner)
  | binary u l r _ ihr =>
    obtain ⟨kindu, typedl, typedr⟩ := typed
    obtain ⟨shapedl, shapedr, below, above⟩ := shaped
    by_cases popped : pops u t = true
    · exact top _ ⟨kindu, typedl, typedr⟩ ⟨shapedl, shapedr, below, above⟩ (exposed_popped order u t l r popped below above)
    · obtain ⟨r', tokens, typed', shaped', exposed⟩ := ihr typedr shapedr
      have kept : ∀ o ∈ r'.exposed, pops u o = false := by
        intro o member
        rcases exposed o member with before | rfl | prefixed
        · exact above o before
        · exact Bool.not_eq_true _ ▸ popped
        · exact order.keeps u o prefixed
      refine ⟨.binary u l r', ?_, ⟨kindu, typedl, typed'⟩, ⟨shapedl, shaped', below, kept⟩, ?_⟩
      · rw [Expr.tokens, Expr.tokens, tokens, List.append_assoc, List.cons_append]
      · intro o member
        rw [Expr.exposed, List.mem_append, List.mem_cons] at member ⊢
        rcases member with left | rfl | right
        · exact .inl (.inl left)
        · exact .inl (.inr (.inl rfl))
        · exact (exposed o right).imp_left fun inner => .inr (.inr inner)

theorem infix_tree (sort : Bool) (ts : List α) (wellformed : Infix kind sort ts) :
    (∃ e : Expr α, e.tokens = ts ∧ e.Typed kind ∧ e.Shaped pops ∧ (sort = true → ∀ o ∈ e.exposed, kind o = .unary)) ∧
    (sort = false → ∀ (e : Expr α) (t : α), e.Typed kind → e.Shaped pops → kind t = .binary →
      ∃ e' : Expr α, e'.tokens = e.tokens ++ t :: ts ∧ e'.Typed kind ∧ e'.Shaped pops) := by
  induction wellformed with
  | value t value => exact ⟨⟨.value t, rfl, value, trivial, fun _ o none => by contradiction⟩, fun no => by contradiction⟩
  | paren lp rp ts opening closing _ ih =>
    obtain ⟨⟨e, tokens, typed, shaped, -⟩, -⟩ := ih
    refine ⟨⟨.paren lp rp e, ?_, ⟨opening, closing, typed⟩, shaped, fun _ o none => by contradiction⟩, fun no => by contradiction⟩
    rw [Expr.tokens, tokens]
  | unary t ts unary _ ih =>
    obtain ⟨⟨e, tokens, typed, shaped, bare⟩, -⟩ := ih
    refine ⟨⟨.unary t e, ?_, ⟨unary, typed⟩, ⟨shaped, fun o member => order.keeps t o (bare rfl o member)⟩, fun _ o member => ?_⟩,
      fun no => by contradiction⟩
    · rw [Expr.tokens, tokens]
    · rcases List.mem_cons.mp member with rfl | inner
      · exact unary
      · exact bare rfl o inner
  | one ts _ ih =>
    obtain ⟨⟨x, tokens, typed, shaped, bare⟩, -⟩ := ih
    refine ⟨⟨x, tokens, typed, shaped, fun no => by contradiction⟩, fun _ e t typede shapede binary => ?_⟩
    obtain ⟨e', whole, typed', shaped', -⟩ := attach order e x t binary typede shapede typed shaped (bare rfl)
    exact ⟨e', tokens ▸ whole, typed', shaped'⟩
  | more t ts us binary _ _ ihx ihe =>
    obtain ⟨⟨x, tokens, typed, shaped, bare⟩, -⟩ := ihx
    obtain ⟨-, graft⟩ := ihe
    refine ⟨?_, fun _ e u typede shapede binaryu => ?_⟩
    · obtain ⟨e, whole, typed', shaped'⟩ := graft rfl x t typed shaped binary
      exact ⟨e, tokens ▸ whole, typed', shaped', fun no => by contradiction⟩
    · obtain ⟨e', front, typed', shaped', -⟩ := attach order e x u binaryu typede shapede typed shaped (bare rfl)
      obtain ⟨all, whole, typed'', shaped''⟩ := graft rfl e' t typed' shaped' binary
      refine ⟨all, ?_, typed'', shaped''⟩
      rw [whole, front, tokens, List.append_assoc, List.cons_append]

end Shapes

section Positions

variable {kind : α → Kind}

theorem split_at (l r x z : List α) (t a : α) (same : l ++ t :: r = x ++ a :: z) :
    (∃ l', l = x ++ a :: l' ∧ z = l' ++ t :: r) ∨ (x = l ∧ a = t ∧ z = r) ∨ ∃ x', x = l ++ t :: x' ∧ r = x' ++ a :: z := by
  rcases List.append_eq_append_iff.mp same with ⟨front, back, rest⟩ | ⟨front, back, rest⟩
  · cases front with
    | nil =>
      obtain ⟨rfl, rfl⟩ := List.cons.inj rest
      exact .inr (.inl ⟨by rw [back, List.append_nil], rfl, rfl⟩)
    | cons u front =>
      obtain ⟨rfl, right⟩ := List.cons.inj rest
      exact .inr (.inr ⟨front, back, right⟩)
  · cases front with
    | nil =>
      obtain ⟨rfl, rfl⟩ := List.cons.inj rest
      exact .inr (.inl ⟨by rw [back, List.append_nil], rfl, rfl⟩)
    | cons u front =>
      obtain ⟨rfl, right⟩ := List.cons.inj rest
      exact .inl ⟨front, back, right⟩

theorem depth_append (us vs : List α) : depth kind (us ++ vs) = depth kind us + depth kind vs := by
  induction us with
  | nil => exact (Int.zero_add _).symm
  | cons t us ih =>
    rw [List.cons_append, depth, depth, ih]
    omega

theorem depth_plain (t : α) (ts : List α) (plain : kind t ≠ .opening ∧ kind t ≠ .closing) : depth kind (t :: ts) = depth kind ts := by
  rw [depth, if_neg plain.1, if_neg plain.2, Int.zero_add]

theorem isop_plain (t : α) (operator : isop kind t = true) : kind t ≠ .opening ∧ kind t ≠ .closing := by
  refine ⟨isop_not_opening t operator, ?_⟩
  intro closing
  rw [isop, closing] at operator
  contradiction

theorem depth_operator (t : α) (ts : List α) (operator : isop kind t = true) : depth kind (t :: ts) = depth kind ts :=
  depth_plain t ts (isop_plain t operator)

theorem level_nil : Level kind ([] : List α) := by
  refine ⟨rfl, ?_⟩
  intro us vs same
  rw [(List.append_eq_nil_iff.mp same.symm).1]
  exact Int.le_refl 0

theorem level_plain (t : α) (ts : List α) (plain : kind t ≠ .opening ∧ kind t ≠ .closing) (level : Level kind ts) : Level kind (t :: ts) := by
  refine ⟨(depth_plain t ts plain).trans level.1, ?_⟩
  intro us vs same
  cases us with
  | nil => exact Int.le_refl 0
  | cons u us =>
    obtain ⟨rfl, rest⟩ := List.cons.inj same
    rw [depth_plain t us plain]
    exact level.2 us vs rest

theorem level_operator (t : α) (ts : List α) (operator : isop kind t = true) (level : Level kind ts) : Level kind (t :: ts) :=
  level_plain t ts (isop_plain t operator) level

theorem level_append (us vs : List α) (first : Level kind us) (second : Level kind vs) : Level kind (us ++ vs) := by
  refine ⟨by rw [depth_append, first.1, second.1]; rfl, ?_⟩
  intro front back same
  rcases List.append_eq_append_iff.mp same with ⟨more, whole, rest⟩ | ⟨more, inner, -⟩
  · rw [whole, depth_append, first.1, Int.zero_add]
    exact second.2 more back rest
  · exact first.2 front more inner

theorem tokens_level (e : Expr α) (typed : e.Typed kind) : Level kind e.tokens := by
  induction e with
  | value t => exact level_plain t [] (by rw [show kind t = .value from typed]; decide) level_nil
  | paren lp rp e ih =>
    obtain ⟨opening, closing, inner⟩ := typed
    obtain ⟨zero, before⟩ := ih inner
    have up : ∀ ts, depth kind (lp :: ts) = 1 + depth kind ts := fun ts => by rw [depth, if_pos opening]
    have down : depth kind [rp] = -1 := by
      rw [depth, closing]
      rfl
    have whole : depth kind (lp :: e.tokens ++ [rp]) = 0 := by
      rw [depth_append, up, zero, down]
      rfl
    refine ⟨whole, ?_⟩
    intro us vs same
    cases us with
    | nil => exact Int.le_refl 0
    | cons u us =>
      obtain ⟨rfl, rest⟩ := List.cons.inj same
      cases vs with
      | nil =>
        rw [show us = e.tokens ++ [rp] from (List.append_nil us).symm.trans rest.symm]
        exact Int.le_of_eq whole.symm
      | cons v vs =>
        have low : 0 ≤ depth kind us := by
          rcases split_at e.tokens [] us vs rp v rest with ⟨more, front, -⟩ | ⟨all, -, -⟩ | ⟨more, -, none⟩
          · exact before us (v :: more) front
          · rw [all]
            exact Int.le_of_eq zero.symm
          · exact absurd none.symm (by simp)
        rw [up]
        omega
  | unary t e ih => exact level_operator t e.tokens (isop_unary t typed.1) (ih typed.2)
  | binary t l r ihl ihr =>
    exact level_append _ _ (ihl typed.2.1) (level_operator t r.tokens (isop_binary t typed.1) (ihr typed.2.2))

-- An operator outside of parentheses is exposed.
theorem bare_at (e : Expr α) (typed : e.Typed kind) (y z : List α) (a : α) (operator : isop kind a = true) (same : e.tokens = y ++ a :: z)
    (level : depth kind y = 0) : a ∈ e.exposed := by
  induction e generalizing y z with
  | value t =>
    have front : a = t := by
      have member : a ∈ (Expr.value t).tokens := by
        rw [same]
        exact List.mem_append_right _ (List.mem_cons_self ..)
      exact List.mem_singleton.mp member
    rw [isop, front, show kind t = .value from typed] at operator
    contradiction
  | paren lp rp e =>
    obtain ⟨opening, closing, inner⟩ := typed
    cases y with
    | nil =>
      obtain ⟨rfl, -⟩ := List.cons.inj same
      exact absurd opening (isop_not_opening lp operator)
    | cons u y =>
      obtain ⟨rfl, rest⟩ := List.cons.inj same
      rw [depth, if_pos opening] at level
      rcases split_at e.tokens [] y z rp a rest with ⟨more, front, -⟩ | ⟨-, rfl, -⟩ | ⟨more, -, none⟩
      · have low := (tokens_level e inner).2 y (a :: more) front
        omega
      · rw [isop, closing] at operator
        contradiction
      · exact absurd none.symm (by simp)
  | unary t e ih =>
    obtain ⟨unary, inner⟩ := typed
    have first := isop_unary t unary
    cases y with
    | nil =>
      obtain ⟨rfl, -⟩ := List.cons.inj same
      exact List.mem_cons_self ..
    | cons u y =>
      obtain ⟨rfl, rest⟩ := List.cons.inj same
      rw [depth_operator t y first] at level
      exact List.mem_cons_of_mem _ (ih inner y z rest level)
  | binary t l r ihl ihr =>
    obtain ⟨binary, typedl, typedr⟩ := typed
    have root := isop_binary t binary
    rw [Expr.exposed, List.mem_append, List.mem_cons]
    rcases split_at l.tokens r.tokens y z t a same with ⟨more, front, -⟩ | ⟨-, rfl, -⟩ | ⟨more, front, back⟩
    · exact .inl (ihl typedl y more front level)
    · exact .inr (.inl rfl)
    · rw [front, depth_append, (tokens_level l typedl).1, depth_operator t more root, Int.zero_add] at level
      exact .inr (.inr (ihr typedr more z back level))

end Positions

section Orders

variable {kind : α → Kind} {pops : α → α → Bool}

def token (kind : α → Kind) (t : α) : Bool := kind t ≠ .opening && kind t ≠ .closing

theorem isop_token (t : α) (operator : isop kind t = true) : token kind t = true := by
  obtain ⟨opening, closing⟩ := isop_plain t operator
  exact Bool.and_eq_true_iff.mpr ⟨decide_eq_true opening, decide_eq_true closing⟩

-- All tokens but the parentheses, once each.
theorem rpn_perm (e : Expr α) (typed : e.Typed kind) : e.rpn.Perm (e.tokens.filter (token kind)) := by
  induction e with
  | value t =>
    have kept : token kind t = true := by
      rw [token, show kind t = .value from typed]
      rfl
    rw [Expr.rpn, Expr.tokens, List.filter_cons_of_pos kept]
    exact List.Perm.refl _
  | paren lp rp e ih =>
    have first : ¬token kind lp = true := by
      rw [token, typed.1]
      decide
    have last : ¬token kind rp = true := by
      rw [token, typed.2.1]
      decide
    rw [Expr.rpn, Expr.tokens, List.filter_append, List.filter_cons_of_neg first, List.filter_cons_of_neg last, List.filter_nil, List.append_nil]
    exact ih typed.2.2
  | unary t e ih =>
    have kept := isop_token t (isop_unary t typed.1)
    rw [Expr.rpn, Expr.tokens, List.filter_cons_of_pos kept]
    exact (List.perm_append_singleton t _).trans ((ih typed.2).cons t)
  | binary t l r ihl ihr =>
    have kept := isop_token t (isop_binary t typed.1)
    rw [Expr.rpn, Expr.tokens, List.filter_append, List.filter_cons_of_pos kept, List.append_assoc]
    exact (ihl typed.2.1).append ((List.perm_append_singleton t _).trans ((ihr typed.2.2).cons t))

theorem mem_rpn (e : Expr α) (typed : e.Typed kind) (t : α) (operator : isop kind t = true) (member : t ∈ e.tokens) : t ∈ e.rpn :=
  (rpn_perm e typed).mem_iff.mpr (List.mem_filter.mpr ⟨member, isop_token t operator⟩)

theorem exposed_level (e : Expr α) (typed : e.Typed kind) (t : α) (bare : t ∈ e.exposed) : ∃ y z, e.tokens = y ++ t :: z ∧ Level kind y := by
  induction e with
  | value u => contradiction
  | paren lp rp e => contradiction
  | unary u e ih =>
    rcases List.mem_cons.mp bare with rfl | inner
    · exact ⟨[], e.tokens, rfl, level_nil⟩
    · obtain ⟨y, z, same, level⟩ := ih typed.2 inner
      exact ⟨u :: y, z, by rw [Expr.tokens, same, List.cons_append], level_operator u y (isop_unary u typed.1) level⟩
  | binary u l r ihl ihr =>
    obtain ⟨binary, typedl, typedr⟩ := typed
    rw [Expr.exposed, List.mem_append, List.mem_cons] at bare
    rcases bare with left | rfl | right
    · obtain ⟨y, z, same, level⟩ := ihl typedl left
      exact ⟨y, z ++ u :: r.tokens, by rw [Expr.tokens, same, List.append_assoc, List.cons_append], level⟩
    · exact ⟨l.tokens, r.tokens, rfl, tokens_level l typedl⟩
    · obtain ⟨y, z, same, level⟩ := ihr typedr right
      exact ⟨l.tokens ++ u :: y, z, by rw [Expr.tokens, same, List.append_assoc, List.cons_append],
        level_append _ _ (tokens_level l typedl) (level_operator u y (isop_binary u binary) level)⟩

theorem sublist_pair (l : List α) (p a : α) (nodup : l.Nodup) (first : [p, a].Sublist l) (second : [a, p].Sublist l) : False := by
  induction l with
  | nil => exact absurd (List.sublist_nil.mp first) (List.cons_ne_nil _ _)
  | cons t l ih =>
    obtain ⟨fresh, nodup⟩ := List.nodup_cons.mp nodup
    rcases List.sublist_cons_iff.mp first with inner | ⟨r, same, rest⟩
    · rcases List.sublist_cons_iff.mp second with inner' | ⟨r, same, -⟩
      · exact ih nodup inner inner'
      · obtain ⟨rfl, -⟩ := List.cons.inj same
        exact fresh (inner.subset (List.mem_cons_of_mem _ (List.mem_singleton_self _)))
    · obtain ⟨rfl, rfl⟩ := List.cons.inj same
      rcases List.sublist_cons_iff.mp second with inner | ⟨r, same, -⟩
      · exact fresh (inner.subset (List.mem_cons_of_mem _ (List.mem_singleton_self _)))
      · obtain ⟨rfl, -⟩ := List.cons.inj same
        exact fresh (List.singleton_sublist.mp rest)

variable (bad : α → α → Prop) (between : α → α → Prop)

variable (binary : ∀ p a, bad p a → kind p = .binary ∧ isop kind a = true)
include binary

-- Where no operator is bare on the right of one it is bad for, the first of such a
-- pair comes first.
theorem calm_order (e : Expr α) (typed : e.Typed kind) (calm : e.Calm bad) (x y z : List α) (p a : α) (pair : bad p a)
    (same : e.tokens = x ++ p :: (y ++ a :: z)) (level : depth kind y = 0) : [p, a].Sublist e.rpn := by
  obtain ⟨binaryp, operator⟩ := binary p a pair
  have operatorp := isop_binary p binaryp
  induction e generalizing x y z with
  | value t =>
    have lengths := congrArg List.length same
    simp only [Expr.tokens, List.length_append, List.length_cons, List.length_nil] at lengths
    omega
  | paren lp rp e ih =>
    obtain ⟨opening, closing, inner⟩ := typed
    cases x with
    | nil =>
      obtain ⟨rfl, -⟩ := List.cons.inj same
      exact absurd opening (isop_not_opening lp operatorp)
    | cons u x =>
      obtain ⟨rfl, rest⟩ := List.cons.inj same
      rcases split_at e.tokens [] (x ++ p :: y) z rp a (by rw [List.append_assoc]; exact rest) with ⟨more, front, -⟩ | ⟨-, rfl, -⟩ | ⟨more, -, none⟩
      · rw [List.append_assoc, List.cons_append] at front
        exact ih inner calm x y more front level
      · rw [isop, closing] at operator
        contradiction
      · exact absurd none.symm (by simp)
  | unary t e ih =>
    cases x with
    | nil =>
      obtain ⟨rfl, -⟩ := List.cons.inj same
      rw [typed.1] at binaryp
      contradiction
    | cons u x =>
      obtain ⟨rfl, rest⟩ := List.cons.inj same
      exact (ih typed.2 calm.1 x y z rest level).trans (List.sublist_append_left _ _)
  | binary t l r ihl ihr =>
    obtain ⟨binaryt, typedl, typedr⟩ := typed
    obtain ⟨calml, calmr, quiet⟩ := calm
    rw [Expr.rpn, List.append_assoc]
    rcases split_at l.tokens r.tokens x _ t p same with ⟨more, front, back⟩ | ⟨-, rfl, back⟩ | ⟨more, -, back⟩
    · have first : [p].Sublist l.rpn :=
        List.singleton_sublist.mpr (mem_rpn l typedl p operatorp (by rw [front]; exact List.mem_append_right _ (List.mem_cons_self ..)))
      rcases split_at more r.tokens y z t a back.symm with ⟨rest, inner, -⟩ | ⟨-, rfl, -⟩ | ⟨rest, -, right⟩
      · rw [inner] at front
        exact (ihl typedl calml x y rest front level).trans (List.sublist_append_left _ _)
      · exact first.append (List.singleton_sublist.mpr (List.mem_append_right _ (List.mem_singleton_self a)))
      · have second : a ∈ r.rpn := mem_rpn r typedr a operator (by rw [right]; exact List.mem_append_right _ (List.mem_cons_self ..))
        exact first.append (List.singleton_sublist.mpr (List.mem_append_left _ second))
    · exact absurd pair (quiet a (bare_at r typedr y z a operator back.symm level))
    · exact ((ihr typedr calmr more y z back level).trans (List.sublist_append_left _ _)).trans (List.sublist_append_right _ _)

-- In a shaped tree with an operator bare on the right of one it is bad for, the second
-- of the pair comes first.
theorem shaped_order (through : ∀ p o, pops p o = false → between p o) (e : Expr α) (typed : e.Typed kind) (shaped : e.Shaped pops) :
    e.Calm bad ∨ ∃ x p y a z, Pair kind bad between e.tokens x p y a z ∧ [a, p].Sublist e.rpn := by
  induction e with
  | value t => exact .inl trivial
  | paren lp rp e ih =>
    rcases ih typed.2.2 shaped with calm | ⟨x, p, y, a, z, ⟨same, rest⟩, order⟩
    · exact .inl calm
    · refine .inr ⟨lp :: x, p, y, a, z ++ [rp], ⟨?_, rest⟩, order⟩
      rw [Expr.tokens, same]
      simp only [List.append_assoc, List.cons_append]
  | unary t e ih =>
    rcases ih typed.2 shaped.1 with calm | ⟨x, p, y, a, z, ⟨same, rest⟩, order⟩
    · exact .inl ⟨calm, trivial⟩
    · refine .inr ⟨t :: x, p, y, a, z, ⟨?_, rest⟩, order.trans (List.sublist_append_left _ _)⟩
      rw [Expr.tokens, same]
      rfl
  | binary t l r ihl ihr =>
    obtain ⟨binaryt, typedl, typedr⟩ := typed
    obtain ⟨shapedl, shapedr, -, stays⟩ := shaped
    rcases ihl typedl shapedl with calml | ⟨x, p, y, a, z, ⟨same, rest⟩, order⟩
    · rcases ihr typedr shapedr with calmr | ⟨x, p, y, a, z, ⟨same, rest⟩, order⟩
      · by_cases quiet : ∀ o ∈ r.exposed, ¬bad t o
        · exact .inl ⟨calml, calmr, quiet⟩
        · rw [not_forall] at quiet
          obtain ⟨a, found⟩ := quiet
          rw [Classical.not_imp, not_not] at found
          obtain ⟨bare, pair⟩ := found
          obtain ⟨y, z, right, level⟩ := exposed_level r typedr a bare
          have operator := (binary t a pair).2
          refine .inr ⟨l.tokens, t, y, a, z, ⟨by rw [Expr.tokens, right], pair, level, ?_⟩, ?_⟩
          · intro y₁ o y₂ inner zero operator'
            apply through
            apply stays
            apply bare_at r typedr y₁ (y₂ ++ a :: z) o operator' ?_ zero
            rw [right, inner, List.append_assoc, List.cons_append]
          · have second : a ∈ r.rpn := mem_rpn r typedr a operator (by rw [right]; exact List.mem_append_right _ (List.mem_cons_self ..))
            have both : ([a] ++ [t]).Sublist (r.rpn ++ [t]) := (List.singleton_sublist.mpr second).append (List.Sublist.refl _)
            rw [Expr.rpn, List.append_assoc]
            exact both.trans (List.sublist_append_right _ _)
      · refine .inr ⟨l.tokens ++ t :: x, p, y, a, z, ⟨?_, rest⟩, ?_⟩
        · rw [Expr.tokens, same, List.append_assoc, List.cons_append]
        · rw [Expr.rpn, List.append_assoc]
          exact (order.trans (List.sublist_append_left _ _)).trans (List.sublist_append_right _ _)
    · refine .inr ⟨x, p, y, a, z ++ t :: r.tokens, ⟨?_, rest⟩, ?_⟩
      · rw [Expr.tokens, same]
        simp only [List.append_assoc, List.cons_append]
      · rw [Expr.rpn, List.append_assoc]
        exact order.trans (List.sublist_append_left _ _)

-- Where the tree is calm there is no such pair.
theorem calm_clear (stays : ∀ p a, bad p a → pops p a = false) (passes : ∀ p o a, between p o → pops p o = true → bad p a → bad o a)
    (e : Expr α) (typed : e.Typed kind) (shaped : e.Shaped pops) (calm : e.Calm bad) (x y z : List α) (p a : α) :
    ¬Pair kind bad between e.tokens x p y a z := by
  induction e generalizing x y z with
  | value t =>
    rintro ⟨same, -⟩
    have lengths := congrArg List.length same
    simp only [Expr.tokens, List.length_append, List.length_cons, List.length_nil] at lengths
    omega
  | paren lp rp e ih =>
    rintro ⟨same, pair, rest⟩
    obtain ⟨binaryp, operator⟩ := binary p a pair
    obtain ⟨opening, closing, inner⟩ := typed
    cases x with
    | nil =>
      obtain ⟨rfl, -⟩ := List.cons.inj same
      exact absurd opening (isop_not_opening lp (isop_binary lp binaryp))
    | cons u x =>
      obtain ⟨rfl, whole⟩ := List.cons.inj same
      rcases split_at e.tokens [] (x ++ p :: y) z rp a (by rw [List.append_assoc]; exact whole) with ⟨more, front, -⟩ | ⟨-, rfl, -⟩ | ⟨more, -, none⟩
      · rw [List.append_assoc, List.cons_append] at front
        exact ih inner shaped calm x y more ⟨front, pair, rest⟩
      · exact absurd closing (isop_plain a operator).2
      · exact absurd none.symm (by simp)
  | unary t e ih =>
    rintro ⟨same, pair, rest⟩
    cases x with
    | nil =>
      obtain ⟨rfl, -⟩ := List.cons.inj same
      have binaryp := (binary t a pair).1
      rw [typed.1] at binaryp
      contradiction
    | cons u x =>
      obtain ⟨rfl, whole⟩ := List.cons.inj same
      exact ih typed.2 shaped.1 calm.1 x y z ⟨whole, pair, rest⟩
  | binary t l r ihl ihr =>
    rintro ⟨same, pair, level, certain⟩
    obtain ⟨binaryp, operator⟩ := binary p a pair
    obtain ⟨binaryt, typedl, typedr⟩ := typed
    obtain ⟨shapedl, shapedr, popped, kept⟩ := shaped
    obtain ⟨calml, calmr, quiet⟩ := calm
    rcases split_at l.tokens r.tokens x _ t p same with ⟨more, front, back⟩ | ⟨-, rfl, back⟩ | ⟨more, -, back⟩
    · have total : depth kind x + depth kind more = 0 := by
        rw [← (tokens_level l typedl).1, front, depth_append, depth_operator p more (isop_binary p binaryp)]
      have low := (tokens_level l typedl).2 x _ front
      rcases split_at more r.tokens y z t a back.symm with ⟨rest, inner, -⟩ | ⟨rfl, rfl, -⟩ | ⟨rest, inner, right⟩
      · rw [inner] at front
        exact ihl typedl shapedl calml x y rest ⟨front, pair, level, certain⟩
      · have bare := bare_at l typedl x y p (isop_binary p binaryp) front (by have zero := level.1; omega)
        have both := (popped p bare).symm.trans (stays p a pair)
        contradiction
      · have zero := level.1
        have lowest := level.2 more (t :: rest) inner
        rw [inner, depth_append, depth_operator t rest (isop_binary t binaryt)] at zero
        have outer : depth kind more = 0 := by omega
        have bare := bare_at l typedl x more p (isop_binary p binaryp) front (by omega)
        have root := certain more t rest inner outer (isop_binary t binaryt)
        have second := bare_at r typedr rest z a operator right (by omega)
        exact quiet a second (passes p t a root (popped p bare) pair)
    · exact quiet a (bare_at r typedr y z a operator back.symm level.1) pair
    · exact ihr typedr shapedr calmr more y z ⟨back, pair, level, certain⟩

end Orders

section Balance

variable {kind : α → Kind} {pops : α → α → Bool}

def openings (kind : α → Kind) (stack : List α) : Nat := stack.countP fun o => kind o = .opening

theorem openings_popped (cond : α → Bool) (stack : List α) (popped : ∀ o, cond o = true → kind o ≠ .opening) :
    openings kind (stack.dropWhile cond) = openings kind stack := by
  have front : (stack.takeWhile cond).countP (fun o => decide (kind o = .opening)) = 0 := by
    rw [List.countP_eq_zero]
    intro o member
    rw [decide_eq_true_eq]
    exact popped o (List.mem_takeWhile_imp member)
  have whole := congrArg (List.countP fun o => decide (kind o = .opening)) (List.takeWhile_append_dropWhile : stack.takeWhile cond ++ stack.dropWhile cond = stack)
  rw [List.countP_append, front, Nat.zero_add] at whole
  exact whole

-- As many opening tokens are on the stack as are not closed.
theorem unbalanced_fails (ts queue stack : List α) (unbalanced : balanced kind (openings kind stack) ts = false) :
    (run kind pops ts (queue, stack) >>= finish kind) = none := by
  induction ts generalizing queue stack with
  | nil =>
    have left : openings kind stack ≠ 0 := of_decide_eq_false unbalanced
    have blocked : ¬(stack.all fun o => decide (kind o ≠ .opening)) = true := by
      intro none
      apply left
      rw [openings, List.countP_eq_zero]
      intro o member
      have other := of_decide_eq_true (List.all_eq_true.mp none o member)
      rwa [decide_eq_true_eq]
    rw [run, Option.bind_eq_bind, Option.bind_some, finish, if_neg blocked]
  | cons t ts ih =>
    -- An operator leaves the opening tokens alone.
    have operators : isop kind t = true → balanced kind (openings kind stack) ts = false →
        (run kind pops (t :: ts) (queue, stack) >>= finish kind) = none := by
      intro operator later
      have same : openings kind (t :: stack.dropWhile fun o => isop kind o && pops o t) = openings kind stack := by
        rw [openings, List.countP_cons_of_neg (by rw [decide_eq_true_eq]; exact isop_not_opening t operator)]
        exact openings_popped _ stack fun o both => isop_not_opening o (Bool.and_eq_true_iff.mp both).1
      rw [run, step_pops t operator]
      exact ih _ _ (same.symm ▸ later)
    rw [balanced] at unbalanced
    cases shape : kind t with
    | value =>
      rw [shape] at unbalanced
      rw [run, step_value t shape]
      exact ih _ _ unbalanced
    | unary =>
      rw [shape] at unbalanced
      exact operators (isop_unary t shape) unbalanced
    | binary =>
      rw [shape] at unbalanced
      exact operators (isop_binary t shape) unbalanced
    | opening =>
      have more : openings kind (t :: stack) = openings kind stack + 1 := List.countP_cons_of_pos (decide_eq_true shape)
      rw [shape] at unbalanced
      rw [run, step_opening t shape]
      exact ih _ _ (more.symm ▸ unbalanced)
    | closing =>
      have kept := openings_popped (fun o => decide (kind o ≠ .opening)) stack fun o => of_decide_eq_true
      rw [shape] at unbalanced
      rw [run, step, shape]
      cases rest : stack.dropWhile fun o => decide (kind o ≠ .opening) with
      | nil => rfl
      | cons lp below =>
        have opening : kind lp = .opening := by
          have top := List.head?_dropWhile_not (fun o => decide (kind o ≠ .opening)) stack
          rw [rest] at top
          exact not_not.mp (of_decide_eq_false (by simpa using top))
        have more : openings kind (lp :: below) = openings kind below + 1 := List.countP_cons_of_pos (decide_eq_true opening)
        rw [rest, more] at kept
        rw [← kept] at unbalanced
        exact ih _ _ unbalanced

end Balance

end Yard

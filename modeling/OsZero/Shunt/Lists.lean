import OsZero.Shunt.Parse

set_option autoImplicit false

namespace OsZero.Shunt

open Chains
open Yard

section Kinds

variable {P : Type} (type : P → Nat)

def kind (tok : P) : Kind :=
  if type tok = SHUNTCINT ∨ type tok = SHUNTCUINT then .value
  else if type tok = SHUNTCNOT then .unary
  else if SHUNTCNOT ≤ type tok ∧ type tok ≤ SHUNTCASSIGN then .binary
  else if type tok = SHUNTCLEFTPAREN then .opening
  else if type tok = SHUNTCRIGHTPAREN then .closing
  else .value

-- Does tok2 on the stack go before tok?
def pops (tok2 tok : P) : Bool := shuntcpops type tok tok2

-- Integer values, operators with two arguments, NOT and parentheses.
def Known (tok : P) : Prop :=
  type tok = SHUNTCNOT ∨ (SHUNTCSHL ≤ type tok ∧ type tok ≤ SHUNTCSAR) ∨ (SHUNTCLEFTPAREN ≤ type tok ∧ type tok ≤ SHUNTCUINT)

theorem isop_kind (tok : P) : isop (kind type) tok = shuntcisop type tok := by
  have outer : shuntcisop type tok = decide (1 ≤ type tok ∧ type tok ≤ 15) := (Bool.decide_and ..).symm
  rw [outer, isop, kind]
  simp only [SHUNTCINT, SHUNTCUINT, SHUNTCNOT, SHUNTCASSIGN, SHUNTCLEFTPAREN, SHUNTCRIGHTPAREN]
  by_cases value : type tok = 20 ∨ type tok = 21
  · rw [if_pos value, decide_eq_false (show ¬(1 ≤ type tok ∧ type tok ≤ 15) by omega)]
    rfl
  · rw [if_neg value]
    by_cases prefixed : type tok = 1
    · rw [if_pos prefixed, prefixed]
      rfl
    · rw [if_neg prefixed]
      by_cases operator : 1 ≤ type tok ∧ type tok ≤ 15
      · rw [if_pos operator, decide_eq_true operator]
        rfl
      · rw [if_neg operator, decide_eq_false operator]
        split_ifs <;> rfl

theorem kind_opening (tok : P) : kind type tok = .opening ↔ type tok = SHUNTCLEFTPAREN := by
  rw [kind]
  simp only [SHUNTCINT, SHUNTCUINT, SHUNTCNOT, SHUNTCASSIGN, SHUNTCLEFTPAREN, SHUNTCRIGHTPAREN]
  constructor
  · intro opening
    by_contra other
    rw [if_neg other] at opening
    split_ifs at opening
  · intro left
    rw [left]
    rfl

theorem shuntcisvalue_iff (tok : P) : shuntcisvalue type tok = true ↔ type tok = 20 ∨ type tok = 21 := by
  rw [shuntcisvalue, Bool.or_eq_true, decide_eq_true_eq, decide_eq_true_eq]

theorem shuntcisop_iff (tok : P) : shuntcisop type tok = true ↔ 1 ≤ type tok ∧ type tok ≤ 15 := by
  rw [shuntcisop, Bool.and_eq_true, decide_eq_true_eq, decide_eq_true_eq]

theorem known_cases (tok : P) (known : Known type tok) :
    (shuntcisvalue type tok = true ∧ kind type tok = .value) ∨ shuntcisop type tok = true ∨ type tok = 18 ∨ type tok = 19 := by
  have among : type tok = 1 ∨ (4 ≤ type tok ∧ type tok ≤ 14) ∨ (18 ≤ type tok ∧ type tok ≤ 21) := known
  rw [shuntcisvalue_iff, shuntcisop_iff]
  by_cases number : type tok = 20 ∨ type tok = 21
  · exact .inl ⟨number, if_pos number⟩
  · omega

-- The tests before the one for operators, or the one for the parentheses, fail.
theorem plain_tests (tok : P) (small : type tok ≤ 15 ∨ type tok = 18 ∨ type tok = 19) :
    shuntcisvalue type tok = false ∧ shuntcisfunc type tok = false ∧ shuntcissep type tok = false := by
  refine ⟨Bool.eq_false_iff.mpr fun value => ?_, decide_eq_false (show ¬type tok = 27 by omega), decide_eq_false (show ¬type tok = 17 by omega)⟩
  have number := (shuntcisvalue_iff type tok).mp value
  omega

theorem paren_test (tok : P) (paren : type tok = 18 ∨ type tok = 19) : shuntcisop type tok = false := by
  refine Bool.eq_false_iff.mpr fun operator => ?_
  have low := (shuntcisop_iff type tok).mp operator
  omega

theorem takeWhile_operators (tok : P) (stack : List P) :
    stack.takeWhile (fun tok2 => shuntcisop type tok2 && shuntcpops type tok tok2) =
        stack.takeWhile (fun o => isop (kind type) o && pops type o tok) ∧
      stack.dropWhile (fun tok2 => shuntcisop type tok2 && shuntcpops type tok tok2) =
        stack.dropWhile (fun o => isop (kind type) o && pops type o tok) := by
  simp only [isop_kind, pops, and_self]

theorem takeWhile_parens (stack : List P) :
    stack.takeWhile (fun tok2 => decide (type tok2 ≠ SHUNTCLEFTPAREN)) = stack.takeWhile (fun o => decide (kind type o ≠ .opening)) ∧
      stack.dropWhile (fun tok2 => decide (type tok2 ≠ SHUNTCLEFTPAREN)) = stack.dropWhile (fun o => decide (kind type o ≠ .opening)) := by
  simp only [ne_eq, kind_opening, and_self]

end Kinds

section Links

variable {P : Type} [DecidableEq P]

-- The tokens still to read, the queue and the stack are lists over one link field.
structure Lists (m : Tokens P) (tok1 : Option P) (rest queue stack : List P) : Prop where
  input : Seg m.next tok1 rest none
  output : Seg m.next m.queue queue none
  last : m.tail = queue.tail.getLast?
  stacked : Seg m.next m.stack stack none
  nodup : (rest ++ (queue ++ stack)).Nodup

omit [DecidableEq P] in
theorem mem_lists (rest queue stack : List P) (tok : P) : tok ∉ rest ++ (queue ++ stack) ↔ tok ∉ rest ∧ tok ∉ queue ∧ tok ∉ stack := by
  simp only [List.mem_append, not_or]

theorem shuntqueue_lists (m : Tokens P) (tok1 : Option P) (rest queue stack : List P) (tok : P) (lists : Lists m tok1 rest queue stack)
    (fresh : tok ∉ rest ++ (queue ++ stack)) : Lists (shuntqueue (some tok) m) tok1 rest (queue ++ [tok]) stack := by
  obtain ⟨input, output, last, stacked, nodup⟩ := lists
  obtain ⟨freshi, fresho, freshs⟩ := (mem_lists rest queue stack tok).mp fresh
  have perm : (tok :: (rest ++ (queue ++ stack))).Perm (rest ++ (queue ++ [tok] ++ stack)) := by
    rw [List.append_assoc, List.singleton_append]
    exact (List.perm_middle.symm).trans (List.perm_middle.symm.append_left rest)
  have nodup' := perm.nodup_iff.mp (List.nodup_cons.mpr ⟨fresh, nodup⟩)
  cases queue with
  | nil =>
    have empty : m.queue = none := output
    have same : shuntqueue (some tok) m =
        { m with next := Function.update m.next tok none, prev := Function.update m.prev tok none, queue := some tok } := by
      rw [shuntqueue, empty]
    rw [same]
    exact ⟨seg_update _ _ _ _ _ _ input freshi, ⟨rfl, Function.update_self ..⟩, last, seg_update _ _ _ _ _ _ stacked freshs, nodup'⟩
  | cons first queue =>
    have head : m.queue = some first := output.1
    -- The token goes behind the last one, which is the first of a queue without a tail.
    have behind : ∃ front back, first :: queue = front ++ [back] ∧ shuntqueue (some tok) m =
        { m with next := Function.update (Function.update m.next tok none) back (some tok),
                 prev := Function.update m.prev tok (some back), tail := some tok } := by
      rcases queue.eq_nil_or_concat with rfl | ⟨front, back, rfl⟩
      · have empty : m.tail = none := last
        refine ⟨[], first, rfl, ?_⟩
        simp only [shuntqueue, head, empty]
      · have tail : m.tail = some back := last.trans (by simp)
        refine ⟨first :: front, back, by simp, ?_⟩
        simp only [shuntqueue, head, tail]
    obtain ⟨front, back, whole, same⟩ := behind
    have member : back ∈ first :: queue := whole ▸ List.mem_append_right _ (List.mem_singleton_self back)
    obtain ⟨-, lower, apart⟩ := List.nodup_append.mp nodup
    obtain ⟨nodupq, -, apart'⟩ := List.nodup_append.mp lower
    have backi : back ∉ rest := fun inside => apart back inside back (List.mem_append_left _ member) rfl
    have backs : back ∉ stack := fun inside => apart' back member back inside rfl
    have other : tok ≠ back := fun equal => fresho (equal ▸ member)
    rw [same]
    refine ⟨seg_update _ _ _ _ _ _ (seg_update _ _ _ _ _ _ input freshi) backi, ?_, ?_,
      seg_update _ _ _ _ _ _ (seg_update _ _ _ _ _ _ stacked freshs) backs, nodup'⟩
    · refine (seg_append _ _ _ _ _).mpr ⟨some tok, ?_, rfl, ?_⟩
      · have before := seg_update _ _ _ none _ _ output fresho
        rw [whole] at before nodupq ⊢
        exact seg_redirect _ _ _ _ _ _ before nodupq
      · exact (Function.update_of_ne other ..).trans (Function.update_self ..)
    · rw [List.cons_append, List.tail_cons, List.getLast?_append]
      rfl

theorem shuntpush_lists (m : Tokens P) (tok1 : Option P) (rest queue stack : List P) (tok : P) (lists : Lists m tok1 rest queue stack)
    (fresh : tok ∉ rest ++ (queue ++ stack)) : Lists (shuntpush tok m) tok1 rest queue (tok :: stack) := by
  obtain ⟨input, output, last, stacked, nodup⟩ := lists
  obtain ⟨freshi, fresho, freshs⟩ := (mem_lists rest queue stack tok).mp fresh
  have perm : (tok :: (rest ++ (queue ++ stack))).Perm (rest ++ (queue ++ tok :: stack)) :=
    (List.perm_middle.symm).trans (List.perm_middle.symm.append_left rest)
  refine ⟨seg_update _ _ _ _ _ _ input freshi, seg_update _ _ _ _ _ _ output fresho, last, ⟨rfl, ?_⟩, perm.nodup_iff.mp (List.nodup_cons.mpr ⟨fresh, nodup⟩)⟩
  rw [show (shuntpush tok m).next tok = m.stack from Function.update_self ..]
  exact seg_update _ _ _ _ _ _ stacked freshs

omit [DecidableEq P] in
theorem shuntpop_lists (m : Tokens P) (tok1 : Option P) (rest queue stack : List P) (tok : P) (lists : Lists m tok1 rest queue (tok :: stack)) :
    (shuntpop m).1 = some tok ∧ Lists (shuntpop m).2 tok1 rest queue stack ∧ tok ∉ rest ++ (queue ++ stack) := by
  obtain ⟨input, output, last, stacked, nodup⟩ := lists
  have perm : (tok :: (rest ++ (queue ++ stack))).Perm (rest ++ (queue ++ tok :: stack)) :=
    (List.perm_middle.symm).trans (List.perm_middle.symm.append_left rest)
  obtain ⟨fresh, nodup'⟩ := List.nodup_cons.mp (perm.nodup_iff.mpr nodup)
  have popped : shuntpop m = (some tok, { m with stack := m.next tok }) := by
    rw [shuntpop, stacked.1]
  rw [popped]
  exact ⟨rfl, ⟨input, output, last, stacked.2, nodup'⟩, fresh⟩

-- One turn of a loop that pops.
theorem popqueue_lists (m : Tokens P) (tok1 : Option P) (rest queue stack : List P) (tok : P) (lists : Lists m tok1 rest queue (tok :: stack)) :
    Lists (shuntqueue (shuntpop m).1 (shuntpop m).2) tok1 rest (queue ++ [tok]) stack := by
  obtain ⟨popped, later, fresh⟩ := shuntpop_lists m tok1 rest queue stack tok lists
  rw [popped]
  exact shuntqueue_lists (shuntpop m).2 tok1 rest queue stack tok later fresh

theorem popwhile_lists (p : P → Bool) (m : Tokens P) (tok1 : Option P) (rest queue stack : List P) (lists : Lists m tok1 rest queue stack) :
    ∃ m', Lists m' tok1 rest (queue ++ stack.takeWhile p) (stack.dropWhile p) ∧ ∀ fuel, stack.length < fuel → popwhile p fuel m = some m' := by
  induction stack generalizing m queue with
  | nil =>
    have empty : m.stack = none := lists.stacked
    refine ⟨m, by rw [List.takeWhile_nil, List.dropWhile_nil, List.append_nil]; exact lists, fun fuel more => ?_⟩
    obtain ⟨turns, rfl⟩ : ∃ turns, fuel = turns + 1 := ⟨fuel - 1, (Nat.succ_pred_eq_of_pos more).symm⟩
    rw [popwhile, empty]
    rfl
  | cons tok stack ih =>
    have top : m.stack.any p = p tok := by
      rw [lists.stacked.1]
      rfl
    by_cases taken : p tok = true
    · obtain ⟨m', later, runs⟩ := ih _ _ (popqueue_lists m tok1 rest queue stack tok lists)
      refine ⟨m', ?_, fun fuel more => ?_⟩
      · rw [List.takeWhile_cons_of_pos taken, List.dropWhile_cons_of_pos taken]
        rwa [List.append_assoc] at later
      · obtain ⟨turns, rfl⟩ : ∃ turns, fuel = turns + 1 := ⟨fuel - 1, (Nat.succ_pred_eq_of_pos (Nat.zero_lt_of_lt more)).symm⟩
        rw [popwhile, top, if_pos taken]
        exact runs turns (Nat.lt_of_succ_lt_succ more)
    · refine ⟨m, ?_, fun fuel more => ?_⟩
      · rw [List.takeWhile_cons_of_neg taken, List.dropWhile_cons_of_neg taken, List.append_nil]
        exact lists
      · obtain ⟨turns, rfl⟩ : ∃ turns, fuel = turns + 1 := ⟨fuel - 1, (Nat.succ_pred_eq_of_pos (Nat.zero_lt_of_lt more)).symm⟩
        rw [popwhile, top, if_neg taken]

variable (type : P → Nat)

-- An operator or a left parenthesis.
def Stackable (tok : P) : Prop := shuntcisop type tok = true ∨ type tok = SHUNTCLEFTPAREN

-- What the lists say of the queue that is returned and the links then.
def Answers (out : Option (List P)) (r : Option P × Tokens P) : Prop :=
  (∀ queue, out = some queue → Seg r.2.next r.1 queue none) ∧ (out = none → r.1 = none)

theorem shuntrest_lists (m : Tokens P) (queue stack : List P) (lists : Lists m none [] queue stack) (stackable : ∀ tok ∈ stack, Stackable type tok) :
    ∃ r, Answers (finish (kind type) (queue, stack)) r ∧ ∀ fuel, stack.length < fuel → shuntrest type fuel m = some r := by
  induction stack generalizing m queue with
  | nil =>
    have empty : m.stack = none := lists.stacked
    refine ⟨(m.queue, m), ⟨?_, fun none => by contradiction⟩, fun fuel more => ?_⟩
    · intro out same
      obtain rfl := Option.some.inj same
      rw [List.append_nil]
      exact lists.output
    · obtain ⟨turns, rfl⟩ : ∃ turns, fuel = turns + 1 := ⟨fuel - 1, (Nat.succ_pred_eq_of_pos more).symm⟩
      rw [shuntrest, empty]
      rfl
  | cons tok stack ih =>
    have top : m.stack = some tok := lists.stacked.1
    by_cases operator : shuntcisop type tok = true
    · obtain ⟨r, answers, runs⟩ := ih _ _ (popqueue_lists m none [] queue stack tok lists) fun other member => stackable other (List.mem_cons_of_mem _ member)
      have same : finish (kind type) (queue, tok :: stack) = finish (kind type) (queue ++ [tok], stack) := by
        have plain : decide (kind type tok ≠ .opening) = true := decide_eq_true (isop_not_opening tok ((isop_kind type tok).trans operator))
        simp only [finish, List.all_cons, plain, Bool.true_and, List.append_assoc, List.singleton_append]
      refine ⟨r, same ▸ answers, fun fuel more => ?_⟩
      obtain ⟨turns, rfl⟩ : ∃ turns, fuel = turns + 1 := ⟨fuel - 1, (Nat.succ_pred_eq_of_pos (Nat.zero_lt_of_lt more)).symm⟩
      rw [shuntrest, top, Option.any_some, if_pos operator]
      exact runs turns (Nat.lt_of_succ_lt_succ more)
    · have left : type tok = SHUNTCLEFTPAREN := (stackable tok (List.mem_cons_self ..)).resolve_left operator
      have fails : finish (kind type) (queue, tok :: stack) = none := by
        have opening : decide (kind type tok ≠ .opening) = false := decide_eq_false (not_not.mpr ((kind_opening type tok).mpr left))
        rw [finish, List.all_cons, opening, Bool.false_and]
        rfl
      rw [fails]
      refine ⟨(none, m), ⟨fun out same => by contradiction, fun _ => rfl⟩, fun fuel more => ?_⟩
      obtain ⟨turns, rfl⟩ : ∃ turns, fuel = turns + 1 := ⟨fuel - 1, (Nat.succ_pred_eq_of_pos (Nat.zero_lt_of_lt more)).symm⟩
      rw [shuntrest, top, Option.any_some, if_neg operator, Option.any_some, left]
      rfl

omit [DecidableEq P] in
theorem stack_function (m : Tokens P) (tok1 : Option P) (rest queue stack : List P) (lists : Lists m tok1 rest queue stack)
    (stackable : ∀ tok ∈ stack, Stackable type tok) : m.stack.any (shuntcisfunc type) = false := by
  cases stack with
  | nil =>
    rw [show m.stack = none from lists.stacked]
    rfl
  | cons tok stack =>
    rw [lists.stacked.1, Option.any_some]
    rcases stackable tok (List.mem_cons_self ..) with operator | left
    · exact (plain_tests type tok (.inl ((shuntcisop_iff type tok).mp operator).2)).2.1
    · exact (plain_tests type tok (.inr (.inl left))).2.1

-- The parser does on its links what the run does on lists.
theorem shuntloop_lists (m : Tokens P) (tok1 : Option P) (rest queue stack : List P) (lists : Lists m tok1 rest queue stack)
    (known : ∀ tok ∈ rest, Known type tok) (stackable : ∀ tok ∈ stack, Stackable type tok) :
    ∃ r enough, Answers (run (kind type) (pops type) rest (queue, stack) >>= finish (kind type)) r ∧
      ∀ fuel, enough ≤ fuel → shuntloop type fuel tok1 m = some r := by
  induction rest generalizing m tok1 queue stack with
  | nil =>
    have ended : tok1 = none := lists.input
    subst ended
    obtain ⟨r, answers, runs⟩ := shuntrest_lists type m queue stack lists stackable
    refine ⟨r, stack.length + 2, answers, fun fuel more => ?_⟩
    obtain ⟨turns, rfl⟩ : ∃ turns, fuel = turns + 1 := ⟨fuel - 1, by omega⟩
    rw [shuntloop]
    exact runs turns (by omega)
  | cons tok rest ih =>
    obtain ⟨⟨rfl, input⟩, output, last, stacked, nodup⟩ := lists
    obtain ⟨fresh, nodup⟩ := List.nodup_cons.mp nodup
    have base : Lists m (m.next tok) rest queue stack := ⟨input, output, last, stacked, nodup⟩
    have later := fun other member => known other (List.mem_cons_of_mem tok member)
    rcases known_cases type tok (known tok (List.mem_cons_self ..)) with ⟨value, shape⟩ | operator | left | right
    · obtain ⟨r, enough, answers, runs⟩ := ih _ _ _ _ (shuntqueue_lists m _ rest queue stack tok base fresh) later stackable
      refine ⟨r, enough + 1, ?_, fun fuel more => ?_⟩
      · rw [run, step_value tok shape]
        exact answers
      · obtain ⟨turns, rfl⟩ : ∃ turns, fuel = turns + 1 := ⟨fuel - 1, by omega⟩
        rw [shuntloop, if_pos value]
        exact runs turns (by omega)
    · obtain ⟨plainv, plainf, plains⟩ := plain_tests type tok (.inl ((shuntcisop_iff type tok).mp operator).2)
      obtain ⟨m', popped, pops⟩ := popwhile_lists (fun tok2 => shuntcisop type tok2 && shuntcpops type tok tok2) m _ rest queue stack base
      obtain ⟨front, back⟩ := takeWhile_operators type tok stack
      rw [front, back] at popped
      have fresh' : tok ∉ rest ++ (queue ++ stack.takeWhile (fun o => isop (kind type) o && Shunt.pops type o tok) ++
          stack.dropWhile (fun o => isop (kind type) o && Shunt.pops type o tok)) := by
        rw [List.append_assoc, List.takeWhile_append_dropWhile]
        exact fresh
      have stackable' : ∀ other ∈ tok :: stack.dropWhile (fun o => isop (kind type) o && Shunt.pops type o tok), Stackable type other := by
        intro other member
        rcases List.mem_cons.mp member with rfl | inner
        · exact .inl operator
        · exact stackable other ((List.dropWhile_suffix _).subset inner)
      obtain ⟨r, enough, answers, runs⟩ := ih _ _ _ _ (shuntpush_lists m' _ rest _ _ tok popped fresh') later stackable'
      refine ⟨r, enough + stack.length + 2, ?_, fun fuel more => ?_⟩
      · rw [run, step_pops tok ((isop_kind type tok).trans operator)]
        exact answers
      · obtain ⟨turns, rfl⟩ : ∃ turns, fuel = turns + 1 := ⟨fuel - 1, by omega⟩
        simp only [shuntloop, plainv, plainf, plains, operator, if_true, Bool.false_eq_true, if_false, pops turns (by omega)]
        exact runs turns (by omega)
    · obtain ⟨plainv, plainf, plains⟩ := plain_tests type tok (.inr (.inl left))
      have plaino := paren_test type tok (.inl left)
      have stackable' : ∀ other ∈ tok :: stack, Stackable type other := by
        intro other member
        rcases List.mem_cons.mp member with rfl | inner
        · exact .inr left
        · exact stackable other inner
      obtain ⟨r, enough, answers, runs⟩ := ih _ _ _ _ (shuntpush_lists m _ rest queue stack tok base fresh) later stackable'
      refine ⟨r, enough + 1, ?_, fun fuel more => ?_⟩
      · rw [run, step_opening tok ((kind_opening type tok).mpr left)]
        exact answers
      · obtain ⟨turns, rfl⟩ : ∃ turns, fuel = turns + 1 := ⟨fuel - 1, by omega⟩
        simp only [shuntloop, plainv, plainf, plains, plaino, left, if_true, Bool.false_eq_true, if_false]
        exact runs turns (by omega)
    · obtain ⟨plainv, plainf, plains⟩ := plain_tests type tok (.inr (.inr right))
      have plaino := paren_test type tok (.inr right)
      have plainl : ¬type tok = SHUNTCLEFTPAREN := by
        rw [right]
        decide
      have closing : kind type tok = .closing := by
        rw [kind, right]
        rfl
      obtain ⟨m', popped, pops⟩ := popwhile_lists (fun tok2 => type tok2 ≠ SHUNTCLEFTPAREN) m _ rest queue stack base
      obtain ⟨front, back⟩ := takeWhile_parens type stack
      rw [front, back] at popped
      cases below : stack.dropWhile fun o => decide (kind type o ≠ .opening) with
      | nil =>
        rw [below] at popped
        have empty : m'.stack = none := popped.stacked
        have fails : (run (kind type) (Shunt.pops type) (tok :: rest) (queue, stack) >>= finish (kind type)) = none := by
          rw [run, step, closing]
          simp only [below]
          rfl
        rw [fails]
        refine ⟨(none, m'), stack.length + 2, ⟨fun out same => by contradiction, fun _ => rfl⟩, fun fuel more => ?_⟩
        obtain ⟨turns, rfl⟩ : ∃ turns, fuel = turns + 1 := ⟨fuel - 1, by omega⟩
        simp only [shuntloop, plainv, plainf, plains, plaino, Bool.false_eq_true, if_false]
        rw [if_neg plainl, if_pos right, pops turns (by omega), Option.bind_eq_bind, Option.bind_some, empty]
        rfl
      | cons lp inner =>
        rw [below] at popped
        have suffix : ∀ other ∈ lp :: inner, other ∈ stack := fun other member => (List.dropWhile_suffix _).subset (below ▸ member)
        obtain ⟨-, under, -⟩ := shuntpop_lists m' _ rest _ inner lp popped
        have stackable' : ∀ other ∈ inner, Stackable type other := fun other member => stackable other (suffix other (List.mem_cons_of_mem _ member))
        have function : (shuntpop m').2.stack.any (shuntcisfunc type) = false := stack_function type _ _ _ _ _ under stackable'
        obtain ⟨r, enough, answers, runs⟩ := ih _ _ _ _ under later stackable'
        refine ⟨r, enough + stack.length + 2, ?_, fun fuel more => ?_⟩
        · rw [run, step, closing]
          simp only [below]
          exact answers
        · obtain ⟨turns, rfl⟩ : ∃ turns, fuel = turns + 1 := ⟨fuel - 1, by omega⟩
          simp only [shuntloop, plainv, plainf, plains, plaino, Bool.false_eq_true, if_false]
          rw [if_neg plainl, if_pos right, pops turns (by omega), Option.bind_eq_bind, Option.bind_some, popped.stacked.1, function]
          exact runs turns (by omega)

end Links

end OsZero.Shunt

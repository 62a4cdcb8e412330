import OsZero.Shunt.Lists

set_option autoImplicit false

namespace OsZero.Shunt

open Chains
open Yard

section Groups

variable {P : Type} (type : P → Nat)

def prec (tok : P) : Nat := shuntcopprec (type tok)

-- The operators whose runs at one level are grouped from the left.
def LeftRun (tok : P) : Prop := SHUNTCADD ≤ type tok ∧ type tok ≤ SHUNTCMOD

-- Each operator binds no tighter than those bare in its operands, and less tight than
-- those on its right where it is one of such a run.
def Right : Expr P → Prop :=
  Expr.Every (fun t e => ∀ o ∈ e.exposed, prec type t ≤ prec type o) fun t l r =>
    (∀ o ∈ l.exposed, prec type t ≤ prec type o) ∧ ∀ o ∈ r.exposed, prec type t ≤ prec type o ∧ (LeftRun type t → prec type t < prec type o)

-- A + behind a + or a - of its own parentheses, with no weaker operator between.
def Follows (p a : P) : Prop := (type p = SHUNTCADD ∨ type p = SHUNTCSUB) ∧ type a = SHUNTCADD

def Behind (ts : List P) : Prop := Clash (kind type) (Follows type) (fun p o => prec type p ≤ prec type o) ts

variable [DecidableEq P]

-- Each value and operator once, and no other token.
def Once (ts out : List P) : Prop := ∀ tok, out.count tok = if tok ∈ ts ∧ token (kind type) tok = true then 1 else 0

def Returns (next prev : P → Option P) (tokqueue : Option P) (r : Option P × Tokens P) : Prop :=
  ∃ enough, ∀ fuel, enough ≤ fuel → shuntparse type fuel tokqueue next prev = some r

-- The queue returned is the reverse Polish form of the tokens as a rightly grouped tree.
def Parsed (next prev : P → Option P) (tokqueue : Option P) (ts : List P) : Prop :=
  ∃ queue m e, Returns type next prev tokqueue (queue, m) ∧ Seg m.next queue (Expr.rpn e) none ∧ e.tokens = ts ∧ e.Typed (kind type) ∧
    Right type e ∧ Once type ts e.rpn

end Groups

section Tables

theorem table_past (n : Nat) : shuntcopprectab (n + 16) = 0 := rfl

-- What the table says of every type: that of the types of operators, and of zero entries behind.
theorem table_entries (fact : Nat → Nat → Prop) (entries : ∀ n < 16, fact n (shuntcopprectab n)) (past : ∀ n, 16 ≤ n → fact n 0) (n : Nat) :
    fact n (shuntcopprectab n) := by
  by_cases small : n < 16
  · exact entries n small
  · obtain ⟨k, rfl⟩ : ∃ k, n = k + 16 := ⟨n - 16, by omega⟩
    rw [table_past]
    exact past _ (by omega)

theorem prec_le (n : Nat) : shuntcopprec n ≤ 8 :=
  table_entries (fun _ entry => entry &&& (2 ^ 32 - 1 - SHUNTCRTOL) ≤ 8) (by decide) (fun _ _ => by decide) n

theorem prec_binary (n : Nat) (low : 2 ≤ n) (high : n ≤ 15) : shuntcopprec n < 8 ∨ shuntcopprec n = 8 ∧ shuntcisrtol n = false :=
  table_entries (fun n entry => 2 ≤ n → n ≤ 15 → entry &&& (2 ^ 32 - 1 - SHUNTCRTOL) < 8 ∨
    entry &&& (2 ^ 32 - 1 - SHUNTCRTOL) = 8 ∧ decide (entry &&& SHUNTCRTOL ≠ 0) = false) (by decide) (fun n past low high => by omega) n low high

theorem prec_additive (n : Nat) : shuntcopprec n = 2 ↔ n = 9 ∨ n = 10 :=
  table_entries (fun n entry => entry &&& (2 ^ 32 - 1 - SHUNTCRTOL) = 2 ↔ n = 9 ∨ n = 10) (by decide)
    (fun n past => iff_of_false (by decide) (by omega)) n

theorem prec_run (n : Nat) (low : 9 ≤ n) (high : n ≤ 13) : shuntcopprec n ≤ 3 :=
  table_entries (fun n entry => 9 ≤ n → n ≤ 13 → entry &&& (2 ^ 32 - 1 - SHUNTCRTOL) ≤ 3) (by decide) (fun _ _ _ _ => by decide) n low high

-- NOT, XOR and ADD have the flag.
theorem rtol_types (n : Nat) (rtol : shuntcisrtol n = true) : shuntcopprec n = 8 ∨ shuntcopprec n = 5 ∨ n = 9 :=
  table_entries (fun n entry => decide (entry &&& SHUNTCRTOL ≠ 0) = true →
    entry &&& (2 ^ 32 - 1 - SHUNTCRTOL) = 8 ∨ entry &&& (2 ^ 32 - 1 - SHUNTCRTOL) = 5 ∨ n = 9) (by decide) (fun _ _ flag => absurd flag (by decide)) n rtol

variable {P : Type} (type : P → Nat)

theorem pops_iff (o t : P) : pops type o t = true ↔ prec type t < prec type o ∨ prec type t = prec type o ∧ shuntcisrtol (type t) = false := by
  rw [pops, shuntcpops, prec, prec, Bool.or_eq_true, Bool.and_eq_true, decide_eq_true_eq, decide_eq_true_eq, Bool.not_eq_true']
  grind

theorem stays_iff (o t : P) : pops type o t = false ↔ prec type o < prec type t ∨ prec type o = prec type t ∧ shuntcisrtol (type t) = true := by
  rw [← Bool.not_eq_true, pops_iff]
  grind

theorem kind_unary (tok : P) (unary : kind type tok = .unary) : type tok = 1 := by
  by_contra other
  rw [kind] at unary
  split_ifs at unary

theorem kind_binary (tok : P) (binary : kind type tok = .binary) : 2 ≤ type tok ∧ type tok ≤ 15 := by
  have operator := (shuntcisop_iff type tok).mp ((isop_kind type tok).symm.trans (isop_binary tok binary))
  have other : type tok ≠ 1 := by
    intro prefixed
    rw [kind, prefixed] at binary
    contradiction
  omega

theorem precedence : Precedence (kind type) (pops type) := by
  refine ⟨?_, ?_, ?_, ?_⟩
  · intro o t u popped stays
    rw [pops_iff] at popped ⊢
    rw [stays_iff] at stays
    grind
  · intro u o t first second
    rw [pops_iff] at first second ⊢
    grind
  · intro o t unary
    have bound := prec_le (type o)
    rw [stays_iff, prec, prec, kind_unary type t unary, show shuntcopprec 1 = 8 from rfl]
    rcases Nat.lt_or_eq_of_le bound with less | same
    · exact .inl less
    · exact .inr ⟨same, rfl⟩
  · intro o t unary binary
    obtain ⟨low, high⟩ := kind_binary type t binary
    rw [pops_iff, prec, prec, kind_unary type o unary, show shuntcopprec 1 = 8 from rfl]
    exact prec_binary (type t) low high

theorem follows_binary (p a : P) (follows : Follows type p a) : kind type p = .binary ∧ isop (kind type) a = true := by
  obtain ⟨additive, add⟩ := follows
  refine ⟨?_, by rw [isop_kind, shuntcisop, add]; rfl⟩
  rcases additive with same | same
  · rw [kind, same]
    rfl
  · rw [kind, same]
    rfl

theorem follows_prec (p a : P) (follows : Follows type p a) : prec type p = 2 ∧ prec type a = 2 ∧ shuntcisrtol (type a) = true := by
  obtain ⟨additive, add⟩ := follows
  refine ⟨(prec_additive _).mpr additive, (prec_additive _).mpr (.inl add), ?_⟩
  rw [add]
  rfl

-- A + pops neither a + nor a -.
theorem follows_stays (p a : P) (follows : Follows type p a) : pops type p a = false := by
  obtain ⟨precp, preca, rtol⟩ := follows_prec type p a follows
  exact (stays_iff type p a).mpr (.inr ⟨precp.trans preca.symm, rtol⟩)

-- What pops one of them without being weaker is one of them.
theorem follows_passes (p o a : P) (strong : prec type p ≤ prec type o) (popped : pops type p o = true) (follows : Follows type p a) :
    Follows type o a := by
  have first := (pops_iff type p o).mp popped
  have two : prec type o = 2 := by
    have precp := (follows_prec type p a follows).1
    omega
  exact ⟨(prec_additive _).mp two, follows.2⟩

theorem right_calm (e : Expr P) (right : Right type e) : e.Calm (Follows type) := by
  induction e with
  | value t => trivial
  | paren lp rp e ih => exact ih right
  | unary t e ih => exact ⟨ih right.1, trivial⟩
  | binary t l r ihl ihr =>
    obtain ⟨rightl, rightr, -, tighter⟩ := right
    refine ⟨ihl rightl, ihr rightr, fun o bare follows => ?_⟩
    obtain ⟨precp, preca, -⟩ := follows_prec type t o follows
    have run : LeftRun type t := by
      have low : 9 ≤ type t ∧ type t ≤ 13 := by
        rcases follows.1 with same | same
        · rw [same]
          decide
        · rw [same]
          decide
      exact low
    have less := (tighter o bare).2 run
    omega

theorem calm_right (e : Expr P) (shaped : e.Shaped (pops type)) (calm : e.Calm (Follows type)) : Right type e := by
  induction e with
  | value t => trivial
  | paren lp rp e ih => exact ih shaped calm
  | unary t e ih =>
    refine ⟨ih shaped.1 calm.1, fun o bare => ?_⟩
    have stays := (stays_iff type t o).mp (shaped.2 o bare)
    omega
  | binary t l r ihl ihr =>
    obtain ⟨shapedl, shapedr, popped, stays⟩ := shaped
    obtain ⟨calml, calmr, quiet⟩ := calm
    refine ⟨ihl shapedl calml, ihr shapedr calmr, fun o bare => ?_, fun o bare => ?_⟩
    · have first := (pops_iff type o t).mp (popped o bare)
      omega
    · have second := (stays_iff type t o).mp (stays o bare)
      refine ⟨by omega, fun run => ?_⟩
      rcases second with less | ⟨same, rtol⟩
      · exact less
      · have bound : prec type t ≤ 3 := prec_run _ run.1 run.2
        have types : prec type o = 8 ∨ prec type o = 5 ∨ type o = 9 := rtol_types _ rtol
        rcases types with high | high | add
        · omega
        · omega
        · have two : prec type o = 2 := (prec_additive _).mpr (.inl add)
          exact absurd ⟨(prec_additive _).mp (same.trans two), add⟩ (quiet o bare)

end Tables

section Results

variable {P : Type} [DecidableEq P] (type : P → Nat) (next prev : P → Option P) (tokqueue : Option P) (ts : List P)

theorem returns_unique (r r' : Option P × Tokens P) (first : Returns type next prev tokqueue r) (second : Returns type next prev tokqueue r') : r = r' := by
  obtain ⟨enough, runs⟩ := first
  obtain ⟨enough', runs'⟩ := second
  have same := (runs (max enough enough') (Nat.le_max_left ..)).symm.trans (runs' (max enough enough') (Nat.le_max_right ..))
  exact Option.some.inj same

variable (listed : Seg next tokqueue ts none) (known : ∀ tok ∈ ts, Known type tok)
include listed known

theorem shuntparse_lists : ∃ r, Returns type next prev tokqueue r ∧ Answers (yard (kind type) (pops type) ts) r := by
  have start : Lists (⟨next, prev, none, none, none⟩ : Tokens P) tokqueue ts [] [] := by
    refine ⟨listed, rfl, rfl, rfl, ?_⟩
    rw [List.append_nil, List.append_nil]
    exact seg_nodup next tokqueue ts listed
  obtain ⟨r, enough, answers, runs⟩ := shuntloop_lists type _ _ ts [] [] start known fun tok none => by contradiction
  exact ⟨r, ⟨enough, runs⟩, answers⟩

theorem unbalanced_null (unbalanced : balanced (kind type) 0 ts = false) : ∃ m, Returns type next prev tokqueue (none, m) := by
  obtain ⟨r, returns, -, fails⟩ := shuntparse_lists type next prev tokqueue ts listed known
  have none := fails (unbalanced_fails ts [] [] unbalanced)
  exact ⟨r.2, none ▸ returns⟩

omit known in
theorem once_rpn (e : Expr P) (tokens : e.tokens = ts) (typed : e.Typed (kind type)) : Once type ts e.rpn := by
  intro tok
  have nodup := seg_nodup next tokqueue ts listed
  rw [(rpn_perm e typed).count_eq, tokens]
  by_cases member : tok ∈ ts ∧ token (kind type) tok = true
  · rw [if_pos member]
    exact List.count_eq_one_of_mem (nodup.filter _) (List.mem_filter.mpr member)
  · rw [if_neg member]
    exact List.count_eq_zero.mpr fun inside => member (List.mem_filter.mp inside)

variable (wellformed : Infix (kind type) false ts)
include wellformed

-- The queue returned is the reverse Polish form of the tree that the table groups.
theorem shuntparse_shaped : ∃ queue m e, Returns type next prev tokqueue (queue, m) ∧ Seg m.next queue (Expr.rpn e) none ∧ e.tokens = ts ∧
    e.Typed (kind type) ∧ e.Shaped (pops type) := by
  obtain ⟨⟨e, tokens, typed, shaped, -⟩, -⟩ := infix_tree (precedence type) false ts wellformed
  obtain ⟨r, returns, answers, -⟩ := shuntparse_lists type next prev tokqueue ts listed known
  have result : yard (kind type) (pops type) ts = some e.rpn := tokens ▸ yard_tokens e typed shaped
  exact ⟨r.1, r.2, e, returns, answers e.rpn result, tokens, typed, shaped⟩

theorem parsed_iff : Parsed type next prev tokqueue ts ↔ ¬Behind type ts := by
  obtain ⟨queue, m, e, returns, links, tokens, typed, shaped⟩ := shuntparse_shaped type next prev tokqueue ts listed known wellformed
  have order := shaped_order (Follows type) (fun p o => prec type p ≤ prec type o) (follows_binary type)
    (fun p o stays => by have first := (stays_iff type p o).mp stays; omega) e typed shaped
  constructor
  · rintro ⟨queue', m', e', returns', links', tokens', typed', right, once⟩ ⟨x, p, y, a, z, pair⟩
    obtain ⟨rfl, rfl⟩ := Prod.mk.inj (returns_unique type next prev tokqueue _ _ returns returns')
    have same : e.rpn = e'.rpn := seg_unique _ _ _ _ links links'
    have calm' := right_calm type e' right
    have nodup : e.rpn.Nodup := (rpn_perm e typed).nodup_iff.mpr ((tokens ▸ seg_nodup next tokqueue ts listed).filter _)
    rcases order with calm | ⟨x', p', y', a', z', ⟨place, bad, level, -⟩, second⟩
    · exact calm_clear (Follows type) _ (follows_binary type) (follows_stays type) (follows_passes type) e typed shaped calm x y z p a (tokens ▸ pair)
    · have first := calm_order (Follows type) (follows_binary type) e' typed' calm' x' y' z' p' a' bad ((tokens'.trans tokens.symm).trans place) level.1
      exact sublist_pair e.rpn p' a' nodup (same ▸ first) second
  · intro clear
    rcases order with calm | ⟨x, p, y, a, z, pair, -⟩
    · exact ⟨queue, m, e, returns, links, tokens, typed, calm_right type e shaped calm, once_rpn type next tokqueue ts listed e tokens typed⟩
    · exact absurd ⟨x, p, y, a, z, tokens ▸ pair⟩ clear

omit wellformed in
-- Every well-formed list is parsed, each token once; rightly if no + is behind a + or a -
-- of its group. Unbalanced parentheses are found out.
theorem shuntparse_parses_iff :
    (Infix (kind type) false ts →
      (∃ queue m out, Returns type next prev tokqueue (queue, m) ∧ Seg m.next queue out none ∧ Once type ts out) ∧
        (Parsed type next prev tokqueue ts ↔ ¬Behind type ts)) ∧
    (balanced (kind type) 0 ts = false → ∃ m, Returns type next prev tokqueue (none, m)) := by
  refine ⟨fun wellformed => ⟨?_, parsed_iff type next prev tokqueue ts listed known wellformed⟩,
    unbalanced_null type next prev tokqueue ts listed known⟩
  obtain ⟨queue, m, e, returns, links, tokens, typed, -⟩ := shuntparse_shaped type next prev tokqueue ts listed known wellformed
  exact ⟨queue, m, e.rpn, returns, links, once_rpn type next tokqueue ts listed e tokens typed⟩

end Results

section Sums

def table (types : List Nat) (tok : Nat) : Nat := types.getD tok 0

def chain (last tok : Nat) : Option Nat := if tok < last then some (tok + 1) else none

instance (types : List Nat) (tok : Nat) : Decidable (Known (table types) tok) := inferInstanceAs (Decidable (_ ∨ _))

-- (1 + 2) * 3 - 4 * 5
def mixedtypes : List Nat := [18, 20, 9, 20, 19, 11, 20, 10, 20, 11, 20]

def mixedtokens : List Nat := [0, 1, 2, 3, 4, 5, 6, 7, 8, 9, 10]

theorem infix_mixed : Infix (kind (table mixedtypes)) false mixedtokens := by
  have sum : Infix (kind (table mixedtypes)) false [1, 2, 3] := .more 2 [1] [3] (by decide) (.value 1 (by decide)) (.one [3] (.value 3 (by decide)))
  have product : Infix (kind (table mixedtypes)) false [8, 9, 10] := .more 9 [8] [10] (by decide) (.value 8 (by decide)) (.one [10] (.value 10 (by decide)))
  have rest : Infix (kind (table mixedtypes)) false [6, 7, 8, 9, 10] := .more 7 [6] [8, 9, 10] (by decide) (.value 6 (by decide)) product
  exact .more 5 [0, 1, 2, 3, 4] [6, 7, 8, 9, 10] (by decide) (.paren 0 4 [1, 2, 3] (by decide) (by decide) sum) rest

-- The only + is the first operator of its parentheses.
theorem mixed_apart : ¬Behind (table mixedtypes) mixedtokens := by
  rintro ⟨x, p, y, a, z, split, follows, -⟩
  have first : mixedtokens[x.length]? = some p := by simp [split]
  have second : mixedtokens[x.length + 1 + y.length]? = some a := by
    rw [split, List.getElem?_append_right (by omega)]
    simp [Nat.add_assoc, Nat.add_comm 1]
  have inside : x.length + 1 + y.length < 11 := (List.getElem?_eq_some_iff.mp second).1
  have numbered : ∀ i < 11, mixedtokens[i]? = some i := by decide
  have none : ∀ j < 11, ∀ i < j, ¬Follows (table mixedtypes) i j := by
    unfold Follows
    decide
  rw [numbered _ (by omega)] at first second
  cases first
  cases second
  exact none _ inside _ (by omega) follows

theorem shuntparse_parses_iff_mixed :
    (∃ queue m out, Returns (table mixedtypes) (chain 10) (fun _ => none) (some 0) (queue, m) ∧ Seg m.next queue out none ∧ Once (table mixedtypes) mixedtokens out) ∧
    Parsed (table mixedtypes) (chain 10) (fun _ => none) (some 0) mixedtokens := by
  have listed : Seg (chain 10) (some 0) mixedtokens none := ⟨rfl, rfl, rfl, rfl, rfl, rfl, rfl, rfl, rfl, rfl, rfl, rfl⟩
  obtain ⟨returned, parsed⟩ := (shuntparse_parses_iff (table mixedtypes) (chain 10) (fun _ => none) (some 0) mixedtokens listed (by decide)).1 infix_mixed
  exact ⟨returned, parsed.mpr mixed_apart⟩

-- 1 - 2 + 3 comes out as 1 2 3 + -.
theorem shuntparse_groups_right :
    ((shuntparse (table [20, 10, 20, 9, 20]) 12 (some 0) (chain 4) fun _ => none).map fun r => follow r.2.next 5 r.1) = some [0, 2, 4, 3, 1] ∧
      ¬Parsed (table [20, 10, 20, 9, 20]) (chain 4) (fun _ => none) (some 0) [0, 1, 2, 3, 4] := by
  refine ⟨by decide, fun parsed => ?_⟩
  have listed : Seg (chain 4) (some 0) [0, 1, 2, 3, 4] none := ⟨rfl, rfl, rfl, rfl, rfl, rfl⟩
  have wellformed : Infix (kind (table [20, 10, 20, 9, 20])) false [0, 1, 2, 3, 4] :=
    .more 1 [0] [2, 3, 4] (by decide) (.value 0 (by decide)) (.more 3 [2] [4] (by decide) (.value 2 (by decide)) (.one [4] (.value 4 (by decide))))
  refine (parsed_iff _ _ _ _ _ listed (by decide) wellformed).mp parsed
    ⟨[0], 1, [2], 3, [4], rfl, ⟨.inr rfl, rfl⟩, level_plain 2 [] (by decide) level_nil, ?_⟩
  intro y₁ o y₂ same _ operator
  have member : o ∈ [2] := same ▸ List.mem_append_right _ (List.mem_cons_self ..)
  rw [List.mem_singleton.mp member] at operator
  contradiction

end Sums

end OsZero.Shunt

import OsZero.Shunt.Lists

set_option autoImplicit false

namespace OsZero.Shunt

open Chains
open Yard

-- As shuntcinitop leaves it; the other entries are zero.
def shuntcopnargtab : Nat → Nat
  | SHUNTCNOT => 1
  | SHUNTCINC => 1
  | SHUNTCDEC => 1
  | SHUNTCSHL => 2
  | SHUNTCSHR => 2
  | SHUNTCAND => 2
  | SHUNTCXOR => 2
  | SHUNTCOR => 2
  | SHUNTCMUL => 2
  | SHUNTCDIV => 2
  | SHUNTCMOD => 2
  | SHUNTCADD => 2
  | SHUNTCSUB => 2
  | _ => 0

abbrev Shuntint := BitVec 64

-- The helpers get data.i64 of their arguments; a shift takes its count modulo 64.
def shuntcnot64 (src _ : Shuntint) : Shuntint := ~~~src
def shuntcand64 (src res : Shuntint) : Shuntint := res &&& src
def shuntcor64 (src res : Shuntint) : Shuntint := res ||| src
def shuntcxor64 (src res : Shuntint) : Shuntint := res ^^^ src
def shuntcshl64 (cnt res : Shuntint) : Shuntint := res <<< (cnt.toNat % 64)
def shuntcsar64 (cnt res : Shuntint) : Shuntint :=
  let sign := (res &&& 0x8000000000000000) <<< ((64 - cnt).toNat % 64)
  res.sshiftRight (cnt.toNat % 64) ||| sign
def shuntcshr64 (cnt res : Shuntint) : Shuntint :=
  let mask := (0xffffffffffffffff : Shuntint) >>> (cnt.toNat % 64)
  res.sshiftRight (cnt.toNat % 64) &&& mask
def shuntcinc64 (src _ : Shuntint) : Shuntint := src + 1
def shuntcdec64 (src _ : Shuntint) : Shuntint := src - 1
def shuntcadd64 (src res : Shuntint) : Shuntint := res + src
def shuntcsub64 (src res : Shuntint) : Shuntint := res - src
def shuntcmul64 (src res : Shuntint) : Shuntint := res * src
def shuntcdiv64 (src res : Shuntint) : Shuntint := res.sdiv src
def shuntcmod64 (src res : Shuntint) : Shuntint := res.srem src

def shuntcevaltab : Nat → Option (Shuntint → Shuntint → Shuntint)
  | SHUNTCNOT => some shuntcnot64
  | SHUNTCINC => some shuntcinc64
  | SHUNTCDEC => some shuntcdec64
  | SHUNTCSHL => some shuntcshl64
  | SHUNTCSHR => some shuntcshr64
  | SHUNTCAND => some shuntcand64
  | SHUNTCXOR => some shuntcxor64
  | SHUNTCOR => some shuntcor64
  | SHUNTCMUL => some shuntcmul64
  | SHUNTCDIV => some shuntcdiv64
  | SHUNTCMOD => some shuntcmod64
  | SHUNTCADD => some shuntcadd64
  | SHUNTCSUB => some shuntcsub64
  | SHUNTCSAR => some shuntcsar64
  | _ => none

-- What a binary operator means for its operands as they are written.
def binary : Nat → Shuntint → Shuntint → Option Shuntint
  | SHUNTCSHL, l, r => if r.toNat < 64 then some (l <<< r.toNat) else none
  | SHUNTCSHR, l, r => if r.toNat < 64 then some (l >>> r.toNat) else none
  | SHUNTCSAR, l, r => if r.toNat < 64 then some (l.sshiftRight r.toNat) else none
  | SHUNTCAND, l, r => some (l &&& r)
  | SHUNTCOR, l, r => some (l ||| r)
  | SHUNTCXOR, l, r => some (l ^^^ r)
  | SHUNTCADD, l, r => some (l + r)
  | SHUNTCSUB, l, r => some (l - r)
  | SHUNTCMUL, l, r => some (l * r)
  | SHUNTCDIV, l, r => if r = 0 then none else some (l.sdiv r)
  | SHUNTCMOD, l, r => if r = 0 then none else some (l.srem r)
  | _, _, _ => none

structure Values (P : Type) extends Tokens P where
  data : P → Shuntint

section Eval

variable {P : Type} (type : P → Nat)

-- The only unary operator of an expression is NOT.
def exprval (data : P → Shuntint) : Expr P → Option Shuntint
  | .value t => some (data t)
  | .paren _ _ e => exprval data e
  | .unary _ e => (exprval data e).map fun v => ~~~v
  | .binary t l r => exprval data l >>= fun l => exprval data r >>= fun r => binary (type t) l r

-- Each case of the switch falls through into the next, and the default one returns NULL.
def shuntargs (narg : Nat) (arg1 arg2 : Option P) : Bool :=
  if narg = 2 ∧ arg2 = none then false
  else if (narg = 2 ∨ narg = 1) ∧ arg1 = none then false
  else false

variable [DecidableEq P]

-- The code behind the switch; the radix and the text of the result are left out.
def shuntapply (tok arg1 : P) (arg2 : Option P) (m : Values P) : Values P :=
  match shuntcevaltab (type tok) with
  | none => m
  | some func =>
      match arg2 with
      | some arg2 => { m with data := Function.update m.data arg1 (func (m.data arg2) (m.data arg1)) }
      | none => { m with data := Function.update m.data arg1 (func (m.data arg1) 0) }

def evalloop (tok1 : Option P) : Nat → Option P → Values P → Option (Option P × Values P)
  | 0, _, _ => none
  | _ + 1, none, m =>
      let queued := shuntqueue tok1 m.toTokens
      some (queued.queue, ⟨queued, m.data⟩)
  | fuel + 1, some tok, m =>
      let tok2 := m.next tok
      if shuntcisvalue type tok then evalloop tok1 fuel tok2 ⟨shuntpush tok m.toTokens, m.data⟩
      else if shuntcisop type tok then
        match tok1 with
        | none => some (none, m)
        | some arg1 =>
            let narg := shuntcopnargtab (type tok)
            let popped := if narg = 2 then shuntpop m.toTokens else (none, m.toTokens)
            if narg = 2 ∧ popped.1 = none then some (none, ⟨popped.2, m.data⟩)
            else if shuntargs narg tok1 popped.1 then evalloop tok1 fuel tok2 (shuntapply type tok arg1 popped.1 ⟨popped.2, m.data⟩)
            else some (none, ⟨popped.2, m.data⟩)
      else evalloop tok1 fuel tok2 m

def shunteval (fuel : Nat) (tokqueue : Option P) (next prev : P → Option P) (data : P → Shuntint) : Option (Option P × Values P) :=
  evalloop type tokqueue fuel tokqueue ⟨⟨next, prev, none, none, none⟩, data⟩

def Evaluates (next prev : P → Option P) (data : P → Shuntint) (tokqueue : Option P) (v : Shuntint) : Prop :=
  ∃ fuel tok m, shunteval type fuel tokqueue next prev data = some (some tok, m) ∧ m.next tok = none ∧ m.data tok = v

end Eval

section Operands

-- Bits that the sign was shifted into are cleared.
theorem shr_value (cnt res : Shuntint) (less : cnt.toNat < 64) : shuntcshr64 cnt res = res >>> cnt.toNat := by
  rw [shuntcshr64, Nat.mod_eq_of_lt less]
  ext i inside
  have mask : (0xffffffffffffffff : Shuntint) = BitVec.allOnes 64 := rfl
  simp only [mask, BitVec.getElem_and, BitVec.getElem_sshiftRight, BitVec.getElem_ushiftRight, BitVec.getLsbD_allOnes]
  by_cases low : cnt.toNat + i < 64
  · simp only [low, ↓reduceDIte, decide_true, Bool.and_true]
    rfl
  · simp only [low, decide_false, Bool.and_false]
    exact (BitVec.getLsbD_of_ge res _ (Nat.le_of_not_lt low)).symm

-- The sign goes out at the top, or stays where it is if the count is 0.
theorem sar_value (cnt res : Shuntint) (less : cnt.toNat < 64) : shuntcsar64 cnt res = res.sshiftRight cnt.toNat := by
  rw [shuntcsar64, Nat.mod_eq_of_lt less]
  ext i inside
  have sign : (0x8000000000000000 : Shuntint) = BitVec.twoPow 64 63 := rfl
  have back : (64 - cnt).toNat % 64 = if cnt.toNat = 0 then 0 else 64 - cnt.toNat := by
    rw [BitVec.toNat_sub]
    have width : (64 : Shuntint).toNat = 64 := rfl
    split_ifs <;> omega
  rw [sign, back, BitVec.getElem_or, BitVec.getElem_sshiftRight, BitVec.getElem_shiftLeft, Bool.or_eq_left_iff_imp, BitVec.getElem_and,
    BitVec.getElem_twoPow]
  intro shifted
  simp only [Bool.and_eq_true, Bool.not_eq_true', decide_eq_false_iff_not, decide_eq_true_eq] at shifted
  obtain ⟨above, signed, top⟩ := shifted
  have zero : cnt.toNat = 0 := by
    split_ifs at top above <;> omega
  simp only [zero, if_true, Nat.sub_zero, Nat.zero_add, inside, dite_true] at signed ⊢
  exact signed

-- Called with the right operand first, a helper computes what its operator means.
theorem evaltab_binary (t : Nat) (l r v : Shuntint) (defined : binary t l r = some v) : ∃ func, shuntcevaltab t = some func ∧ func r l = v := by
  unfold binary at defined
  split at defined
  · obtain ⟨less, value⟩ := Option.ite_none_right_eq_some.mp defined
    exact ⟨_, rfl, (congrArg (l <<< ·) (Nat.mod_eq_of_lt less)).trans (Option.some.inj value)⟩
  · obtain ⟨less, value⟩ := Option.ite_none_right_eq_some.mp defined
    exact ⟨_, rfl, (shr_value r l less).trans (Option.some.inj value)⟩
  · obtain ⟨less, value⟩ := Option.ite_none_right_eq_some.mp defined
    exact ⟨_, rfl, (sar_value r l less).trans (Option.some.inj value)⟩
  · exact ⟨_, rfl, Option.some.inj defined⟩
  · exact ⟨_, rfl, Option.some.inj defined⟩
  · exact ⟨_, rfl, Option.some.inj defined⟩
  · exact ⟨_, rfl, Option.some.inj defined⟩
  · exact ⟨_, rfl, Option.some.inj defined⟩
  · exact ⟨_, rfl, Option.some.inj defined⟩
  · exact ⟨_, rfl, Option.some.inj (Option.ite_none_left_eq_some.mp defined).2⟩
  · exact ⟨_, rfl, Option.some.inj (Option.ite_none_left_eq_some.mp defined).2⟩
  · contradiction

end Operands

section Results

variable {P : Type} [DecidableEq P] (type : P → Nat)

omit [DecidableEq P] in
theorem args_stop (narg : Nat) (arg1 arg2 : Option P) : shuntargs narg arg1 arg2 = false := by
  unfold shuntargs
  split_ifs <;> rfl

theorem operator_null (tok1 : Option P) (fuel : Nat) (tok : P) (m : Values P) (r : Option P × Values P)
    (plain : shuntcisvalue type tok = false) (operator : shuntcisop type tok = true) (done : evalloop type tok1 fuel (some tok) m = some r) :
    r.1 = none := by
  cases fuel with
  | zero => contradiction
  | succ fuel =>
    cases tok1 with
    | none =>
      simp only [evalloop, plain, operator, Bool.false_eq_true, if_false, if_true, Option.some.injEq] at done
      rw [← done]
    | some arg1 =>
      simp only [evalloop, plain, operator, args_stop, Bool.false_eq_true, if_false, if_true] at done
      split_ifs at done <;> exact (Option.some.inj done) ▸ rfl

-- The first operator ends the evaluation with NULL.
theorem evalloop_null (tok1 : Option P) (fuel : Nat) (tok : Option P) (ts : List P) (m : Values P) (r : Option P × Values P)
    (linked : Seg m.next tok ts none) (nodup : ts.Nodup) (operator : ∃ t ∈ ts, shuntcisvalue type t = false ∧ shuntcisop type t = true)
    (done : evalloop type tok1 fuel tok m = some r) : r.1 = none := by
  induction ts generalizing fuel tok m with
  | nil =>
    obtain ⟨t, none, -⟩ := operator
    contradiction
  | cons t ts ih =>
    obtain ⟨rfl, rest⟩ := linked
    have behind : ¬(shuntcisvalue type t = false ∧ shuntcisop type t = true) → ∃ t ∈ ts, shuntcisvalue type t = false ∧ shuntcisop type t = true := by
      intro other
      obtain ⟨t', member, found⟩ := operator
      rcases List.mem_cons.mp member with rfl | later
      · exact absurd found other
      · exact ⟨t', later, found⟩
    cases fuel with
    | zero => contradiction
    | succ fuel =>
      cases value : shuntcisvalue type t with
      | true =>
        simp only [evalloop, value, if_true] at done
        refine ih fuel _ _ ?_ nodup.tail (behind fun found => absurd (found.1.symm.trans value) (by decide)) done
        exact seg_update m.next _ none m.stack ts t rest (List.nodup_cons.mp nodup).1
      | false =>
        cases op : shuntcisop type t with
        | true => exact operator_null type tok1 (fuel + 1) t m r value op done
        | false =>
          simp only [evalloop, value, op, Bool.false_eq_true, if_false] at done
          exact ih fuel _ _ rest nodup.tail (behind fun found => absurd (found.2.symm.trans op) (by decide)) done

omit [DecidableEq P] in
theorem operator_plain (t : P) (operator : isop (kind type) t = true) : shuntcisvalue type t = false ∧ shuntcisop type t = true := by
  have among : shuntcisop type t = true := (isop_kind type t).symm.trans operator
  refine ⟨Bool.eq_false_iff.mpr fun value => ?_, among⟩
  have number := (shuntcisvalue_iff type t).mp value
  have small := (shuntcisop_iff type t).mp among
  omega

omit [DecidableEq P] in
-- Without an operator an expression is one value.
theorem rpn_single (e : Expr P) (typed : e.Typed (kind type)) (values : ∀ t ∈ e.rpn, shuntcisvalue type t = true) :
    ∃ t, e.rpn = [t] ∧ ∀ data, exprval type data e = some (data t) := by
  induction e with
  | value t => exact ⟨t, rfl, fun data => rfl⟩
  | paren lp rp e ih => exact ih typed.2.2 values
  | unary t e =>
    have plain := (operator_plain type t (isop_unary t typed.1)).1
    have value := values t (List.mem_append_right _ (List.mem_singleton_self t))
    exact absurd (plain.symm.trans value) (by decide)
  | binary t l r =>
    have plain := (operator_plain type t (isop_binary t typed.1)).1
    have value := values t (List.mem_append_right _ (List.mem_singleton_self t))
    exact absurd (plain.symm.trans value) (by decide)

omit [DecidableEq P] in
theorem rpn_tokens (e : Expr P) (typed : e.Typed (kind type)) (t : P) (member : t ∈ e.rpn) : kind type t = .value ∨ isop (kind type) t = true := by
  induction e with
  | value t' => exact .inl (List.mem_singleton.mp member ▸ typed)
  | paren lp rp e ih => exact ih typed.2.2 member
  | unary t' e ih =>
    rcases List.mem_append.mp member with inner | last
    · exact ih typed.2 inner
    · exact .inr (List.mem_singleton.mp last ▸ isop_unary t' typed.1)
  | binary t' l r ihl ihr =>
    rcases List.mem_append.mp member with inner | last
    · rcases List.mem_append.mp inner with left | right
      · exact ihl typed.2.1 left
      · exact ihr typed.2.2 right
    · exact .inr (List.mem_singleton.mp last ▸ isop_binary t' typed.1)

-- A value comes back as it is; no expression with an operator is evaluated.
theorem shunteval_evaluates_iff (next prev : P → Option P) (data : P → Shuntint) (tokqueue : Option P) (e : Expr P) (v : Shuntint)
    (linked : Seg next tokqueue e.rpn none) (typed : e.Typed (kind type)) (known : ∀ t ∈ e.rpn, Known type t)
    (defined : exprval type data e = some v) :
    Evaluates type next prev data tokqueue v ↔ ∀ t ∈ e.rpn, shuntcisvalue type t = true := by
  have nodup := seg_nodup next tokqueue e.rpn linked
  constructor
  · rintro ⟨fuel, tok, m, done, -, -⟩ t member
    by_contra other
    have operator := operator_plain type t ((rpn_tokens type e typed t member).resolve_left fun value => ?_)
    · have null := evalloop_null type tokqueue fuel tokqueue e.rpn _ _ linked nodup ⟨t, member, operator⟩ done
      contradiction
    · rcases known_cases type t (known t member) with ⟨number, -⟩ | op | paren
      · exact other number
      · rw [← isop_kind, isop, value] at op
        contradiction
      · rcases paren with left | right
        · rw [kind, left] at value
          contradiction
        · rw [kind, right] at value
          contradiction
  · intro values
    obtain ⟨t, single, value⟩ := rpn_single type e typed values
    rw [single] at linked values
    obtain ⟨rfl, last⟩ := linked
    have number := values t (List.mem_singleton_self t)
    have link : next t = none := last
    have same : data t = v := Option.some.inj ((value data).symm.trans defined)
    refine ⟨2, t, ⟨shuntqueue (some t) (shuntpush t ⟨next, prev, none, none, none⟩), data⟩, ?_, ?_, same⟩
    · simp only [shunteval, evalloop, number, link, if_true]
      rfl
    · exact Function.update_self ..

end Results

section Sums

-- 3
theorem shunteval_evaluates_iff_value : Evaluates (fun _ : Unit => SHUNTCINT) (fun _ => none) (fun _ => none) (fun _ => 3) (some ()) 3 ↔
    ∀ t ∈ [()], shuntcisvalue (fun _ : Unit => SHUNTCINT) t = true :=
  shunteval_evaluates_iff (fun _ : Unit => SHUNTCINT) (fun _ => none) (fun _ => none) (fun _ => 3) (some ()) (.value ()) 3 ⟨rfl, rfl⟩ rfl
    (fun _ _ => .inr (.inr ⟨Nat.le_of_ble_eq_true rfl, Nat.le_of_ble_eq_true rfl⟩)) rfl

def sum : Expr Nat := .binary 2 (.value 0) (.value 1)

def sumtype (t : Nat) : Nat := if t = 2 then SHUNTCADD else SHUNTCINT

def sumnext (t : Nat) : Option Nat := if t < 2 then some (t + 1) else none

-- 1 2 +
theorem shunteval_sum_null :
    Seg sumnext (some 0) sum.rpn none ∧ sum.Typed (kind sumtype) ∧ exprval sumtype (fun t => BitVec.ofNat 64 (t + 1)) sum = some 3 ∧
      (shunteval sumtype 4 (some 0) sumnext (fun _ => none) fun t => BitVec.ofNat 64 (t + 1)).map (fun r => r.1) = some none ∧
      ¬Evaluates sumtype sumnext (fun _ => none) (fun t => BitVec.ofNat 64 (t + 1)) (some 0) 3 := by
  have linked : Seg sumnext (some 0) sum.rpn none := ⟨rfl, rfl, rfl, rfl⟩
  refine ⟨linked, ⟨by decide, rfl, rfl⟩, by decide, by decide, ?_⟩
  rintro ⟨fuel, tok, m, done, -, -⟩
  have null := evalloop_null sumtype (some 0) fuel (some 0) sum.rpn _ _ linked (by decide) ⟨2, by decide, by decide⟩ done
  contradiction

end Sums

end OsZero.Shunt

import Mathlib.Algebra.Group.Nat.Defs
import OsZero.Lib.Chains
import OsZero.Lib.Yard

set_option autoImplicit false

namespace OsZero.Shunt

open Chains
open Yard

@[match_pattern] abbrev SHUNTCNOT : Nat := 1
@[match_pattern] abbrev SHUNTCINC : Nat := 2
@[match_pattern] abbrev SHUNTCDEC : Nat := 3
@[match_pattern] abbrev SHUNTCSHL : Nat := 4
@[match_pattern] abbrev SHUNTCSHR : Nat := 5
@[match_pattern] abbrev SHUNTCAND : Nat := 6
@[match_pattern] abbrev SHUNTCOR : Nat := 7
@[match_pattern] abbrev SHUNTCXOR : Nat := 8
@[match_pattern] abbrev SHUNTCADD : Nat := 9
@[match_pattern] abbrev SHUNTCSUB : Nat := 10
@[match_pattern] abbrev SHUNTCMUL : Nat := 11
@[match_pattern] abbrev SHUNTCDIV : Nat := 12
@[match_pattern] abbrev SHUNTCMOD : Nat := 13
@[match_pattern] abbrev SHUNTCSAR : Nat := 14
@[match_pattern] abbrev SHUNTCASSIGN : Nat := 15
abbrev SHUNTCSEP : Nat := 17
abbrev SHUNTCLEFTPAREN : Nat := 18
abbrev SHUNTCRIGHTPAREN : Nat := 19
abbrev SHUNTCINT : Nat := 20
abbrev SHUNTCUINT : Nat := 21
abbrev SHUNTCFUNC : Nat := 27
abbrev SHUNTCRTOL : Nat := 1 <<< 7

-- As shuntcinitop leaves it; the other entries are zero.
def shuntcopprectab : Nat → Nat
  | SHUNTCNOT => SHUNTCRTOL ||| 8
  | SHUNTCINC => 8
  | SHUNTCDEC => 8
  | SHUNTCSHL => 7
  | SHUNTCSHR => 7
  | SHUNTCAND => 6
  | SHUNTCXOR => SHUNTCRTOL ||| 5
  | SHUNTCOR => 4
  | SHUNTCMUL => 3
  | SHUNTCDIV => 3
  | SHUNTCMOD => 3
  | SHUNTCADD => SHUNTCRTOL ||| 2
  | SHUNTCSUB => 2
  | SHUNTCASSIGN => 1
  | _ => 0

-- ~SHUNTCRTOL is an unsigned int.
def shuntcopprec (type : Nat) : Nat := shuntcopprectab type &&& (2 ^ 32 - 1 - SHUNTCRTOL)

def shuntcisrtol (type : Nat) : Bool := shuntcopprectab type &&& SHUNTCRTOL ≠ 0

-- The links of the tokens and the pointers of shuntparse. No token's type is written.
structure Tokens (P : Type) where
  next : P → Option P
  prev : P → Option P
  queue : Option P
  tail : Option P
  stack : Option P

section Parse

variable {P : Type} (type : P → Nat)

def shuntcisvalue (tok : P) : Bool := type tok = SHUNTCINT || type tok = SHUNTCUINT
def shuntcisfunc (tok : P) : Bool := type tok = SHUNTCFUNC
def shuntcissep (tok : P) : Bool := type tok = SHUNTCSEP
def shuntcisop (tok : P) : Bool := SHUNTCNOT ≤ type tok && type tok ≤ SHUNTCASSIGN

variable [DecidableEq P]

def shuntqueue (token : Option P) (m : Tokens P) : Tokens P :=
  match token with
  | none => m
  | some token =>
      match m.queue with
      | none => { m with next := Function.update m.next token none, prev := Function.update m.prev token none, queue := some token }
      | some queue =>
          match m.tail with
          | some tail =>
              { m with next := Function.update (Function.update m.next token none) tail (some token),
                       prev := Function.update m.prev token (some tail), tail := some token }
          | none =>
              { m with next := Function.update (Function.update m.next token none) queue (some token),
                       prev := Function.update m.prev token (some queue), tail := some token }

def shuntpush (tok : P) (m : Tokens P) : Tokens P :=
  { m with next := Function.update m.next tok m.stack, prev := Function.update m.prev tok none, stack := some tok }

omit [DecidableEq P] in
def shuntpop (m : Tokens P) : Option P × Tokens P :=
  match m.stack with
  | none => (none, m)
  | some token => (some token, { m with stack := m.next token })

-- while (p(tok2)) { tok2 = shuntpop(&stack); shuntqueue(tok2, &queue, &tail); tok2 = stack; }
def popwhile (p : P → Bool) : Nat → Tokens P → Option (Tokens P)
  | 0, _ => none
  | fuel + 1, m => if m.stack.any p then popwhile p fuel (shuntqueue (shuntpop m).1 (shuntpop m).2) else some m

-- The loop of a separator pops twice at each turn.
def popsep : Nat → Option P → Tokens P → Option (Option P × Tokens P)
  | 0, _, _ => none
  | fuel + 1, tok2, m =>
      if tok2.any fun tok2 => type tok2 ≠ SHUNTCLEFTPAREN then
        let popped := shuntpop (shuntqueue (shuntpop m).1 (shuntpop m).2)
        popsep fuel popped.1 popped.2
      else some (tok2, m)

-- do { ... } while (stack): a function token that is left is never popped.
def shuntrest : Nat → Tokens P → Option (Option P × Tokens P)
  | 0, _ => none
  | fuel + 1, m =>
      if m.stack.any (shuntcisop type) then shuntrest fuel (shuntqueue (shuntpop m).1 (shuntpop m).2)
      else if m.stack.any fun tok1 => type tok1 = SHUNTCLEFTPAREN || type tok1 = SHUNTCRIGHTPAREN then some (none, m)
      else if m.stack = none then some (m.queue, m)
      else shuntrest fuel m

def shuntcpops (tok tok2 : P) : Bool :=
  (!shuntcisrtol (type tok) && shuntcopprec (type tok) ≤ shuntcopprec (type tok2)) || shuntcopprec (type tok) < shuntcopprec (type tok2)

-- The queue that is returned and the links behind it. A separator without a left
-- parenthesis reads the text of a null token; one with it comes again.
def shuntloop : Nat → Option P → Tokens P → Option (Option P × Tokens P)
  | 0, _, _ => none
  | fuel + 1, none, m => shuntrest type fuel m
  | fuel + 1, some tok, m =>
      let tok3 := m.next tok
      if shuntcisvalue type tok then shuntloop fuel tok3 (shuntqueue (some tok) m)
      else if shuntcisfunc type tok then shuntloop fuel tok3 (shuntpush tok m)
      else if shuntcissep type tok then
        popsep type fuel m.stack m >>= fun popped => if popped.1.isSome then shuntloop fuel (some tok) popped.2 else none
      else if shuntcisop type tok then
        popwhile (fun tok2 => shuntcisop type tok2 && shuntcpops type tok tok2) fuel m >>= fun m => shuntloop fuel tok3 (shuntpush tok m)
      else if type tok = SHUNTCLEFTPAREN then shuntloop fuel tok3 (shuntpush tok m)
      else if type tok = SHUNTCRIGHTPAREN then
        popwhile (fun tok2 => type tok2 ≠ SHUNTCLEFTPAREN) fuel m >>= fun m =>
          if m.stack.isSome then
            let m := (shuntpop m).2
            if m.stack.any (shuntcisfunc type) then shuntloop fuel tok3 (shuntqueue (shuntpop m).1 (shuntpop m).2) else shuntloop fuel tok3 m
          else some (none, m)
      else shuntloop fuel tok3 m

def shuntparse (fuel : Nat) (tokqueue : Option P) (next prev : P → Option P) : Option (Option P × Tokens P) :=
  shuntloop type fuel tokqueue ⟨next, prev, none, none, none⟩

end Parse

end OsZero.Shunt

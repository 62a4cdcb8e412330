import Mathlib.Logic.Function.Iterate

set_option autoImplicit false

namespace Twister

-- A twisted feedback shift register over words of some width: n words, of which
-- the one at m is fed back, and the constants that the words are seeded with.
structure Params (width : Nat) where
  n : Nat
  m : Nat
  upper : BitVec width
  lower : BitVec width
  matrix : BitVec width
  shift : Nat
  mult1 : BitVec width
  mult2 : BitVec width
  mult3 : BitVec width
  tabseed : BitVec width
  first : BitVec width
  positive : 0 < m
  below : m < n

variable {width : Nat}

def Params.twist (p : Params width) (cur next far : BitVec width) : BitVec width :=
  let y := (cur &&& p.upper) ||| (next &&& p.lower)
  far ^^^ (y >>> 1) ^^^ (if y.getLsbD 0 then p.matrix else 0)

-- The recurrence x[k + n] = x[k + m] ^ ((upper bits of x[k] | lower bits of x[k + 1]) A).
def Params.word (p : Params width) (start : Nat → BitVec width) (k : Nat) : BitVec width :=
  if k < p.n then start k
  else p.twist (p.word start (k - p.n)) (p.word start (k - p.n + 1)) (p.word start (k - p.n + p.m))
termination_by k
decreasing_by
  all_goals
    have positive := p.positive
    have below := p.below
    omega

theorem word_start (p : Params width) (start : Nat → BitVec width) (k : Nat) (low : k < p.n) : p.word start k = start k := by
  rw [Params.word, if_pos low]

theorem word_step (p : Params width) (start : Nat → BitVec width) (k : Nat) :
    p.word start (k + p.n) = p.twist (p.word start k) (p.word start (k + 1)) (p.word start (k + p.m)) := by
  rw [Params.word, if_neg (by omega), Nat.add_sub_cancel]

def Params.blend (p : Params width) (v : BitVec width) : BitVec width := v ^^^ (v >>> p.shift)

def Params.seeded (p : Params width) (seed : BitVec width) : Nat → BitVec width
  | 0 => seed
  | i + 1 => p.mult1 * p.blend (p.seeded seed i) + BitVec.ofNat width (i + 1)

variable (p : Params width)

-- The words while a key table is mixed in, with the places in them and in the key.
structure Mixing (width : Nat) where
  mt : Nat → BitVec width
  i : Nat
  j : Nat

def Params.put (mixing : Mixing width) (value : BitVec width) : Mixing width :=
  let mt := Function.update mixing.mt mixing.i value
  if mixing.i + 1 ≥ p.n then { mixing with mt := Function.update mt 0 (mt (p.n - 1)), i := 1 }
  else { mixing with mt := mt, i := mixing.i + 1 }

def Params.mix (key : List (BitVec width)) (mixing : Mixing width) : Mixing width :=
  let value := (mixing.mt mixing.i ^^^ (p.blend (mixing.mt (mixing.i - 1)) * p.mult2)) + key.getD mixing.j 0 +
    BitVec.ofNat width mixing.j
  { p.put mixing value with j := if mixing.j + 1 ≥ key.length then 0 else mixing.j + 1 }

def Params.stir (mixing : Mixing width) : Mixing width :=
  p.put mixing ((mixing.mt mixing.i ^^^ (p.blend (mixing.mt (mixing.i - 1)) * p.mult3)) - BitVec.ofNat width mixing.i)

def Params.keyed (key : List (BitVec width)) : Nat → BitVec width :=
  let mixed := (p.mix key)^[max key.length p.n] ⟨p.seeded p.tabseed, 1, 0⟩
  Function.update (p.stir^[p.n - 1] mixed).mt 0 p.first

-- Both places stay inside the words and inside the key.
structure Inside (keylen : Nat) (mixing : Mixing width) : Prop where
  low : 1 ≤ mixing.i
  high : mixing.i < p.n
  key : mixing.j < keylen

@[simp] theorem put_j (mixing : Mixing width) (value : BitVec width) : (p.put mixing value).j = mixing.j := by
  unfold Params.put
  split <;> rfl

theorem put_inside (keylen : Nat) (mixing : Mixing width) (value : BitVec width) (inside : Inside p keylen mixing) :
    Inside p keylen (p.put mixing value) := by
  have below := p.below
  have positive := p.positive
  unfold Params.put
  split
  · exact ⟨Nat.le_refl 1, by simp only; omega, inside.key⟩
  · exact ⟨by simp, by simp only; omega, inside.key⟩

theorem mix_inside (key : List (BitVec width)) (mixing : Mixing width) (inside : Inside p key.length mixing) :
    Inside p key.length (p.mix key mixing) := by
  have kept := inside.key
  have after := put_inside p key.length mixing ((mixing.mt mixing.i ^^^ (p.blend (mixing.mt (mixing.i - 1)) * p.mult2)) +
    key.getD mixing.j 0 + BitVec.ofNat width mixing.j) inside
  refine ⟨after.low, after.high, ?_⟩
  simp only [Params.mix]
  split <;> omega

theorem stir_inside (keylen : Nat) (mixing : Mixing width) (inside : Inside p keylen mixing) : Inside p keylen (p.stir mixing) :=
  put_inside p keylen mixing _ inside

end Twister

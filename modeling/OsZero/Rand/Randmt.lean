import OsZero.Lib.Twister

set_option autoImplicit false

namespace OsZero.Rand

open Twister

abbrev Word := BitVec 64

-- The constants by which the two files differ. The words of the narrow one are
-- masked after each sum; in the wide one the mask leaves them as they are.
structure Consts where
  nstate : Nat
  magic : Nat
  split : Nat
  back : Nat
  matrix : Word
  himask : Word
  lomask : Word
  mask : Word
  defseed : Word
  tabseed : Word
  mult1 : Word
  mult2 : Word
  mult3 : Word
  shift : Nat
  first : Word
  temper : Word → Word

structure Randmt where
  state : Nat → Word
  curndx : Nat

variable (c : Consts)

-- None where the state array or the key table is left.
def fetch (state : Nat → Word) (ndx : Nat) : Option Word := if ndx < c.nstate then some (state ndx) else none

def store (state : Nat → Word) (ndx : Nat) (val : Word) : Option (Nat → Word) :=
  if ndx < c.nstate then some (Function.update state ndx val) else none

def seedloop (c : Consts) : Nat → Nat → Word → (Nat → Word) → Option (Nat → Word)
  | 0, _, _, state => some state
  | left + 1, ndx, tmp, state => do
      let val := (c.mult1 * (tmp ^^^ (tmp >>> c.shift)) + BitVec.ofNat 64 ndx) &&& c.mask
      let state ← store c state ndx val
      seedloop c left (ndx + 1) val state

def srandmt (seed : Word) (mt : Randmt) : Option Randmt := do
  let tmp := seed &&& c.mask
  let state ← store c mt.state 0 tmp
  let state ← seedloop c (c.nstate - 1) 1 tmp state
  some ⟨state, c.nstate⟩

-- The variables of the two loops of srandmt32tab and srandmt64tab.
structure Tab where
  state : Nat → Word
  l : Nat
  m : Nat
  tmp : Word

def advance (state : Nat → Word) (l m : Nat) (val : Word) : Option Tab := do
  let state ← store c state l val
  if l + 1 ≥ c.nstate then
    do
      let val ← fetch c state (c.nstate - 1)
      let state ← store c state 0 val
      some ⟨state, 1, m, val⟩
  else some ⟨state, l + 1, m, val⟩

def keystep (key : List Word) (tab : Tab) : Option Tab := do
  let val ← fetch c tab.state tab.l
  let val := val ^^^ (c.mult2 * (tab.tmp ^^^ (tab.tmp >>> c.shift)))
  let word ← key[tab.m]?
  let val := (val + (word + BitVec.ofNat 64 tab.m)) &&& c.mask
  advance c tab.state tab.l (if tab.m + 1 ≥ key.length then 0 else tab.m + 1) val

def stirstep (tab : Tab) : Option Tab := do
  let val ← fetch c tab.state tab.l
  let val := val ^^^ (c.mult3 * (tab.tmp ^^^ (tab.tmp >>> c.shift)))
  let val := (val - BitVec.ofNat 64 tab.l) &&& c.mask
  advance c tab.state tab.l tab.m val

def times (step : Tab → Option Tab) : Nat → Tab → Option Tab
  | 0, tab => some tab
  | ndx + 1, tab => do
      let tab ← step tab
      times step ndx tab

def srandmttab (key : List Word) (mt : Randmt) : Option Randmt := do
  let mt ← srandmt c c.tabseed mt
  let tmp ← fetch c mt.state 0
  let tab ← times (keystep c key) (max key.length c.nstate) ⟨mt.state, 1, 0, tmp⟩
  let tmp ← fetch c tab.state (tab.l - 1)
  let tab ← times (stirstep c) (c.nstate - 1) { tab with tmp := tmp }
  let state ← store c tab.state 0 c.first
  some { mt with state := state }

-- One word of a block, from the places of the word itself, of the next one and
-- of the one fed back; the last term is the entry of the table { 0, matrix }.
def regen (state : Nat → Word) (l next far : Nat) : Option (Nat → Word) := do
  let tmp1 ← fetch c state l
  let tmp2 ← fetch c state next
  let tmp3 ← fetch c state far
  let val := (tmp1 &&& c.himask) ||| (tmp2 &&& c.lomask)
  store c state l (tmp3 ^^^ (val >>> 1) ^^^ (if val &&& 1 = 0 then 0 else c.matrix))

def lowloop (c : Consts) : Nat → Nat → (Nat → Word) → Option (Nat → Word)
  | 0, _, state => some state
  | left + 1, l, state => do
      let state ← regen c state l (l + 1) (l + c.magic)
      lowloop c left (l + 1) state

def highloop (c : Consts) : Nat → Nat → (Nat → Word) → Option (Nat → Word)
  | 0, _, state => some state
  | left + 1, l, state => do
      let state ← regen c state l (l + 1) (l - c.back)
      highloop c left (l + 1) state

def randmtbuf (mt : Randmt) : Option Randmt := do
  let state ← lowloop c c.split 0 mt.state
  let state ← highloop c (c.nstate - 1 - c.split) c.split state
  let state ← regen c state (c.nstate - 1) 0 (c.magic - 1)
  some ⟨state, 0⟩

def refill (mt : Randmt) : Option Randmt :=
  if mt.curndx ≥ c.nstate then
    if mt.curndx = c.nstate + 1 then
      do
        let mt ← srandmt c c.defseed mt
        randmtbuf c mt
    else randmtbuf c mt
  else some mt

def randmt (mt : Randmt) : Option (Randmt × Word) := do
  let mt ← refill c mt
  let x ← fetch c mt.state mt.curndx
  some ({ mt with curndx := mt.curndx + 1 }, c.temper x)

-- The value of the call after n others.
def nth (call : Randmt → Option (Randmt × Word)) : Nat → Randmt → Option Word
  | 0, mt => (call mt).map Prod.snd
  | n + 1, mt => do
      let after ← call mt
      nth call n after.1

def temper32 (x : Word) : Word :=
  let x := x ^^^ (x >>> 11)
  let x := x ^^^ ((x <<< 7) &&& 0x9d2c5680)
  let x := x ^^^ ((x <<< 15) &&& 0xefc60000)
  x ^^^ (x >>> 18)

def consts32 : Consts where
  nstate := 624
  magic := 397
  split := 624 - 397
  back := 624 - 397
  matrix := 0x9908b0df
  himask := 0x80000000
  lomask := 0x7fffffff
  mask := 0xffffffff
  defseed := 5489
  tabseed := 19650218
  mult1 := 1812433253
  mult2 := 1664525
  mult3 := 1566083941
  shift := 30
  first := 0x80000000
  temper := temper32

def srandmt32 (seed : Word) (mt : Randmt) : Option Randmt := srandmt consts32 seed mt

def srandmt32tab (key : List Word) (mt : Randmt) : Option Randmt := srandmttab consts32 key mt

def randmt32buf (mt : Randmt) : Option Randmt := randmtbuf consts32 mt

def randmt32 (mt : Randmt) : Option (Randmt × Word) := randmt consts32 mt

def temper64 (val : Word) : Word :=
  let val := val ^^^ ((val >>> 29) &&& 0x5555555555555555)
  let val := val ^^^ ((val <<< 17) &&& 0x71D67FFFEDA60000)
  let val := val ^^^ ((val <<< 37) &&& 0xFFF7EEE000000000)
  val ^^^ (val >>> 43)

def consts64 : Consts where
  nstate := 312
  magic := 156
  split := 156
  back := 156
  matrix := 0xB5026F5AA96619E9
  himask := 0xFFFFFFFF80000000
  lomask := 0x000000007FFFFFFF
  mask := 0xFFFFFFFFFFFFFFFF
  defseed := 5489
  tabseed := 19650218
  mult1 := 6364136223846793005
  mult2 := 3935559000370003845
  mult3 := 2862933555777941757
  shift := 62
  first := 1 <<< 63
  temper := temper64

def srandmt64 (seed : Word) (mt : Randmt) : Option Randmt := srandmt consts64 seed mt

def srandmt64tab (key : List Word) (mt : Randmt) : Option Randmt := srandmttab consts64 key mt

def randmt64buf (mt : Randmt) : Option Randmt := randmtbuf consts64 mt

def randmt64 (mt : Randmt) : Option (Randmt × Word) := randmt consts64 mt

end OsZero.Rand

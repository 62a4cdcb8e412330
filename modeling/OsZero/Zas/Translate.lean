import Mathlib.Algebra.Group.Nat.Defs
import Mathlib.Data.BitVec
import OsZero.Lib.Stores
import OsZero.Lib.Cstring

set_option autoImplicit false

namespace OsZero.Zas

open Stores Cstring

-- zasmemadr_t and zasword_t of the 64-bit machine.
abbrev Adr := BitVec 64

inductive Token where
  | value (val : BitVec 64) (size : UInt8)
  | label (name : List UInt8)
  | char (ch : UInt8)
  | data (size : UInt8)
  | space
  | align
  | asciz
  | string (str : List UInt8)

structure Symrec where
  name : List UInt8
  adr : Adr

structure Asm where
  mem : Mem UInt8
  zassymhash : Nat → List Symrec
  startadr : Adr
  startset : Bool

def rounduppow2 (a b2 : Adr) : Adr := (a + (b2 - 1)) &&& -b2

-- The key is one word of eight bytes, and mulq128 leaves the high word in rdx.
def hashq128 (key : BitVec 64) (nkeybit : Nat) : BitVec 64 :=
  let r8 : BitVec 64 := 0x1591aefa5e7e5a17
  let r9 : BitVec 64 := 0x2bb6863566c4e761
  let mul := fun rax : BitVec 64 => (rax.setWidth 128 * r8.setWidth 128)
  let rax := (8 ^^^ r8) ^^^ key
  let first := mul rax
  let rcx := r9 * r9 + first.extractLsb' 64 64
  let rax := first.extractLsb' 0 64 ^^^ rcx
  let second := mul rax
  let rcx := rcx * r9 + second.extractLsb' 64 64
  let rax := second.extractLsb' 0 64 ^^^ rcx
  let rax := if nkeybit < 32 then rax ^^^ (rax >>> 32) else rax
  rax &&& ((1 <<< nkeybit) - 1)

def nhashbit : Nat := 16

-- A char is signed.
def zassymkey (name : List UInt8) : Nat :=
  (hashq128 ((name.map fun c => (BitVec.ofNat 8 c.toNat).signExtend 64).sum) nhashbit).toNat

def zasaddsym (asm : Asm) (sym : Symrec) : Asm :=
  { asm with zassymhash := Function.update asm.zassymhash (zassymkey sym.name) (sym :: asm.zassymhash (zassymkey sym.name)) }

def zasfindsym (asm : Asm) (name : List UInt8) : Option Symrec := (asm.zassymhash (zassymkey name)).find? fun sym => sym.name = name

-- sym->adr = adr for the record that zasfindsym finds.
def setsym (name : List UInt8) (adr : Adr) : List Symrec → List Symrec
  | [] => []
  | sym :: syms => if sym.name = name then { sym with adr := adr } :: syms else sym :: setsym name adr syms

-- The machine's memory is reached through zvmadrtoptr; an opcode has opsize bytes.
section
variable (zvmadrtoptr : Adr → Nat) (opsize : Adr)

def littleendian (width : Nat) (val : BitVec 64) : List UInt8 := (List.range width).map fun i => UInt8.ofNat (val.extractLsb' (8 * i) 8).toNat

def zasprocvalue (asm : Asm) (adr : Adr) (val : BitVec 64) (size : UInt8) : Asm × Adr :=
  let bytes := if size = 1 ∨ size = 2 ∨ size = 4 ∨ size = 8 then littleendian size.toNat val else []
  ({ asm with mem := asm.mem.fill (zvmadrtoptr adr) bytes }, adr + BitVec.ofNat 64 size.toNat)

def zasproclabel (asm : Asm) (adr : Adr) (name : List UInt8) : Asm × Adr :=
  let starts := !asm.startset && (text "_start").isPrefixOf name
  let adr := if starts && decide (adr &&& (opsize - 1) ≠ 0) then rounduppow2 adr opsize else adr
  let asm := if starts then { asm with startadr := adr, startset := true } else asm
  let asm := if (zasfindsym asm name).isSome then
      { asm with zassymhash := Function.update asm.zassymhash (zassymkey name) (setsym name adr (asm.zassymhash (zassymkey name))) }
    else zasaddsym asm ⟨name, adr⟩
  (asm, adr)

def zasprocchar (asm : Asm) (adr : Adr) (ch : UInt8) : Asm × Adr := ({ asm with mem := asm.mem.put (zvmadrtoptr adr) ch }, adr + 1)

def zasprocdata (size : UInt8) : Asm → Adr → List Token → Asm × Adr × List Token
  | asm, valadr, .value val _ :: tokens =>
      let next := zasprocvalue zvmadrtoptr asm valadr val size
      zasprocdata size next.1 next.2 tokens
  | asm, valadr, tokens => (asm, valadr, tokens)

-- The bytes go where ptr points from the beginning: to spcadr.
def zasprocspace (asm : Asm) (adr : Adr) : List Token → Option (Asm × Adr × List Token)
  | .value spc _ :: .value v _ :: tokens =>
      let count := spc.toNat - adr.toNat
      let mem := asm.mem.fill (zvmadrtoptr spc) (List.replicate count (UInt8.ofNat (v.extractLsb' 0 8).toNat))
      some ({ asm with mem := mem }, if adr < spc then spc else adr, tokens)
  | .value spc size :: tokens => some (asm, spc, .value spc size :: tokens)
  | _ => none

-- The value stays in the queue.
def zasprocalign (asm : Asm) (adr : Adr) : List Token → Option (Asm × Adr × List Token)
  | .value val size :: tokens => some (asm, rounduppow2 adr val, .value val size :: tokens)
  | _ => none

-- The bytes of a string, and whether its closing quote was met.
def unescape : List UInt8 → Option (List UInt8 × Bool)
  | [] => some ([], false)
  | c :: str =>
      if c = code '\"' then some ([], true)
      else if c = code '\\' then
        match str with
        | [] => none
        | e :: str =>
            if e = code 'n' then (unescape str).map fun rest => (10 :: rest.1, rest.2)
            else if e = code 't' then (unescape str).map fun rest => (9 :: rest.1, rest.2)
            else if e = code 'r' then (unescape str).map fun rest => (13 :: rest.1, rest.2)
            else none
      else (unescape str).map fun rest => (c :: rest.1, rest.2)

-- len is what it was after the string before.
def zasprocasciz : Nat → Asm → Adr → List Token → Option (Asm × Adr × List Token)
  | len, asm, adr, .string str :: tokens => (unescape str).bind fun read =>
      let bytes := if read.2 then read.1 ++ [0] else read.1
      let len := len + bytes.length
      zasprocasciz len { asm with mem := asm.mem.fill (zvmadrtoptr adr) bytes } (adr + BitVec.ofNat 64 len) tokens
  | _, asm, adr, tokens => some (asm, adr, tokens)

-- The functions of zasktokfunctab; a string has none.
def zasproctoken (asm : Asm) (adr : Adr) (tokens : List Token) : Token → Option (Asm × Adr × List Token)
  | .value val size => let next := zasprocvalue zvmadrtoptr asm adr val size; some (next.1, next.2, tokens)
  | .label name => let next := zasproclabel opsize asm adr name; some (next.1, next.2, tokens)
  | .char ch => let next := zasprocchar zvmadrtoptr asm adr ch; some (next.1, next.2, tokens)
  | .data size => some (zasprocdata zvmadrtoptr size asm adr tokens)
  | .space => zasprocspace zvmadrtoptr asm adr tokens
  | .align => zasprocalign asm adr tokens
  | .asciz => zasprocasciz zvmadrtoptr 0 asm adr tokens
  | .string _ => none

-- while (token); each round takes at least one token out of the queue.
def translateLoop : Nat → Asm → Adr → List Token → Option (Asm × Adr)
  | _, asm, adr, [] => some (asm, adr)
  | 0, _, _, _ :: _ => none
  | rounds + 1, asm, adr, token :: tokens => (zasproctoken zvmadrtoptr opsize asm adr tokens token).bind fun next =>
      translateLoop rounds next.1 next.2.1 next.2.2

def zastranslate (asm : Asm) (base : Adr) (queue : List Token) : Option (Asm × Adr) :=
  translateLoop zvmadrtoptr opsize queue.length asm base queue

end

end OsZero.Zas

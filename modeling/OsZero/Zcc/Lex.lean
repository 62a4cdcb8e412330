import OsZero.Zcc.Ident

set_option autoImplicit false

namespace OsZero.Zcc

open Cstring

inductive Zpptype
  | none | typeToken | typedefToken | varToken | structToken | unionToken | operToken | dotToken | indirToken | asteriskToken
  | commaToken | semicolonToken | colonToken | exclamationToken | leftParenToken | rightParenToken | indexToken | endIndexToken
  | blockToken | endBlockToken | quoteToken | doubleQuoteToken | backslashToken | newlineToken | valueToken | stringToken
  | literalToken | qualToken | atrToken | funcToken | labelToken | macroToken | preprocToken | concatToken | stringifyToken
deriving DecidableEq, Repr

structure Zpptoken where
  type : Zpptype
  parm : Nat
deriving DecidableEq, Repr

def newline : UInt8 := 0x0a
def dquote : UInt8 := 0x22
def squote : UInt8 := 0x27
def backslash : UInt8 := 0x5c

def optab : List UInt8 :=
  [code '!', code '~', code '&', code '|', code '^', code '<', code '>', code '+', code '-', code '/', code '%', code '=']

def zccisoper (c : UInt8) : Bool := optab.contains c

def toktab (c : UInt8) : Zpptype :=
  ([(code ';', Zpptype.semicolonToken), (code '.', .dotToken), (code ',', .commaToken), (code '{', .blockToken), (code '}', .endBlockToken),
    (code '?', .exclamationToken), (code ':', .colonToken), (code '(', .leftParenToken), (code ')', .rightParenToken),
    (code '[', .indexToken), (code ']', .endIndexToken), (squote, .quoteToken), (dquote, .doubleQuoteToken),
    (backslash, .backslashToken), (newline, .newlineToken)].lookup c).getD .none

def zccChar : Nat := 0x01
def zccUchar : Nat := 0x02
def zccShort : Nat := 0x03
def zccUshort : Nat := 0x04
def zccInt : Nat := 0x05
def zccUint : Nat := 0x06
def zccLong : Nat := 0x07
def zccLonglong : Nat := 0x09
def zccUlonglong : Nat := 0x0a
def zccVoid : Nat := 0x0e
def zccWchar : Nat := 0x04000000

-- str points into linebuf; high is the furthest it has been in this call.
structure Cur where
  pos : Nat
  high : Nat

def Cur.to (str : Cur) (pos : Nat) : Cur := ⟨pos, max str.high pos⟩

def Cur.add (str : Cur) (n : Nat) : Cur := str.to (str.pos + n)

-- A call does not return where it exits with a diagnostic, and has no defined
-- result where a byte read in front of or behind an array decides what it does.
inductive Stop
  | exited (str : Cur)
  | undefined

def defined {α : Type} (read : Option α) : Except Stop α := read.elim (.error .undefined) .ok

def skip (p : UInt8 → Bool) (linebuf : Nat → UInt8) (str : Cur) : Except Stop Cur :=
  (defined (scan p linebuf (nlinebuf - str.pos) str.pos)).map str.to

-- The order matters: no entry is reached behind one that is a prefix of it.
def typenames : List (String × Nat × Nat) :=
  [("unsigned char", zccUchar, 13), ("char", zccChar, 4), ("unsigned short", zccUshort, 14), ("short", zccShort, 14),
    ("unsigned int", zccUint, 12), ("int", zccInt, 3), ("unsigned long long", zccUlonglong, 18), ("long long", zccLonglong, 9),
    ("unsigned", zccLonglong, 8), ("signed char", zccChar, 11), ("signed short", zccShort, 12), ("signed int", zccInt, 10),
    ("signed long", zccLong, 11), ("signed long long", zccLonglong, 16), ("void", zccVoid, 4)]

def zppgettype (linebuf : Nat → UInt8) (str : Nat) : Option (Nat × Nat) :=
  (typenames.find? fun entry => starts linebuf str (text entry.1)).map Prod.snd

def zppgetstr (linebuf : Nat → UInt8) (str : Cur) : Except Stop Cur := (skip (· ≠ dquote) linebuf str).map fun str => str.add 1

def isbin (c : UInt8) : Bool := c = code '0' ∨ c = code '1'

def isoct (c : UInt8) : Bool := isdigit c && c.toNat ≤ (code '7').toNat

def octal (linebuf : Nat → UInt8) (str : Cur) : Except Stop Cur := do
  let str ← skip isoct linebuf str
  if isdigit (linebuf str.pos) then .error (.exited str) else .ok str

def unquote (linebuf : Nat → UInt8) (str : Cur) : Cur := if linebuf str.pos = squote then str.add 1 else str

-- Where no number is found *retstr is left alone.
def literal (linebuf : Nat → UInt8) (str : Cur) : Except Stop Cur :=
  if tolower (linebuf str.pos) = code 'x' then (skip isxdigit linebuf (str.add 1)).map (unquote linebuf)
  else if tolower (linebuf str.pos) = code 'b' then (skip isbin linebuf (str.add 1)).map (unquote linebuf)
  else if linebuf str.pos = code '0' then (octal linebuf (str.add 1)).map (unquote linebuf)
  else .ok ((unquote linebuf str).to str.pos)

-- The two differ in the value only.
def zppgetwliter (linebuf : Nat → UInt8) (str : Cur) : Except Stop Cur := literal linebuf str
def zppgetliter (linebuf : Nat → UInt8) (str : Cur) : Except Stop Cur := literal linebuf str

def valdigits (linebuf : Nat → UInt8) (str : Cur) : Except Stop Cur :=
  if linebuf str.pos = code '0' ∧ tolower (linebuf (str.pos + 1)) = code 'x' then skip isxdigit linebuf (str.add 2)
  else if linebuf str.pos = code '0' ∧ tolower (linebuf (str.pos + 1)) = code 'b' then skip isbin linebuf (str.add 2)
  else if linebuf str.pos = code '0' then octal linebuf (str.add 1)
  else skip isdigit linebuf str

def onechar (linebuf : Nat → UInt8) (c : Char) (str : Cur) : Cur := if tolower (linebuf str.pos) = code c then str.add 1 else str

def valsuffix (linebuf : Nat → UInt8) (neg : Bool) (str : Cur) : Except Stop Cur :=
  skip (· = squote) linebuf
    (if neg then onechar linebuf 'l' str
    else if tolower (linebuf str.pos) = code 'u' then onechar linebuf 'l' (str.add 1)
    else str)

-- Each of the four forms of a number begins with a digit.
def zccgetval (linebuf : Nat → UInt8) (str : Cur) : Except Stop (Option Cur) :=
  let neg : Bool := linebuf str.pos = code '-'
  let str := if neg then str.add 1 else str
  if isdigit (linebuf str.pos) then (valdigits linebuf str >>= valsuffix linebuf neg).map some else .ok none

structure Got where
  tok : Zpptoken
  str : Cur
  linebuf : Nat → UInt8

def opers (linebuf : Nat → UInt8) (str : Cur) : Except Stop Cur := do
  let str ← skip zccisoper linebuf str
  if 128 ≤ (linebuf str.pos).toNat then .error .undefined else .ok str

-- A directive other than define is stepped past twice.
def sharp (linebuf : Nat → UInt8) (str : Cur) : Except Stop Got := do
  let str ← skip isspace linebuf (str.add 1)
  let parm ← defined (zccpreprocid linebuf str.pos)
  if parm = zppDefineDir then .ok ⟨⟨.macroToken, parm⟩, str.add (parmlentab parm), linebuf⟩
  else if parm ≠ 0 then .ok ⟨⟨.preprocToken, parm⟩, (str.add (parmlentab parm)).add (parmlentab parm), linebuf⟩
  else if linebuf str.pos = code '#' then .ok ⟨⟨.stringifyToken, 0⟩, str.add 1, linebuf⟩
  else .ok ⟨⟨.concatToken, 0⟩, str.add 1, linebuf⟩

def name (linebuf : Nat → UInt8) (ptr : Nat) (str : Cur) : Except Stop Got := do
  let str ← skip isspace linebuf str
  if linebuf str.pos = code '(' then .ok ⟨⟨.funcToken, 0⟩, str, linebuf⟩
  else .ok ((zppgettype linebuf ptr).elim ⟨⟨.varToken, 0⟩, str, linebuf⟩ fun type => ⟨⟨.typeToken, type.1⟩, str.to (ptr + type.2), linebuf⟩)

def word (linebuf : Nat → UInt8) (str : Cur) : Except Stop Got := do
  let lim ← skip isident linebuf str
  if linebuf lim.pos = code ':' then .ok ⟨⟨.labelToken, 0⟩, lim.add 1, Function.update linebuf lim.pos 0⟩
  else name linebuf str.pos lim

def value (linebuf : Nat → UInt8) (str : Cur) : Except Stop Got :=
  (zccgetval linebuf str).map fun val => val.elim ⟨⟨.none, 0⟩, str, linebuf⟩ fun str => ⟨⟨.valueToken, 0⟩, str, linebuf⟩

-- The second half of zccgettoken's tests.
def gettoken (linebuf : Nat → UInt8) (str : Cur) : Except Stop (Option Got) := do
  let parm ← defined (zccqualid linebuf str.pos)
  if parm ≠ 0 then .ok (some ⟨⟨.qualToken, parm⟩, str.add (parmlentab parm), linebuf⟩)
  else if starts linebuf str.pos (text "struct") then .ok (some ⟨⟨.structToken, 0⟩, str.add 6, linebuf⟩)
  else if starts linebuf str.pos (text "union") then .ok (some ⟨⟨.unionToken, 0⟩, str.add 5, linebuf⟩)
  else if isfirst (linebuf str.pos) then (word linebuf str).map some
  else if isxdigit (linebuf str.pos) then (value linebuf str).map some
  else .ok none

def zpptoken (linebuf : Nat → UInt8) (str : Cur) : Except Stop (Option Got) :=
  let c := linebuf str.pos
  let next := linebuf (str.pos + 1)
  let got := fun (type : Zpptype) (parm : Nat) (str : Cur) => some (Got.mk ⟨type, parm⟩ str linebuf)
  -- char is signed: toktab has no entry for the upper half
  if 128 ≤ c.toNat then .error .undefined
  else if toktab c ≠ .none then .ok (got (toktab c) 0 (str.add 1))
  else if c = dquote then (zppgetstr linebuf (str.add 1)).map (got .stringToken 0)
  else if c = code '*' then .ok (got .asteriskToken 0 (str.add 1))
  else if c = code ',' then .ok (got .commaToken 0 (str.add 1))
  else if zccisoper c then (opers linebuf str).map (got .operToken 0)
  else if c = code '#' then (sharp linebuf str).map some
  else if c = code 'L' ∧ next = squote then (zppgetwliter linebuf (str.add 2)).map (got .literalToken zccWchar)
  else if c = squote then (zppgetliter linebuf (str.add 1)).map (got .literalToken 0)
  else if c = code '-' ∧ next = code '>' then .ok (got .indirToken 0 (str.add 2))
  else if starts linebuf str.pos (text "typedef") then .ok (got .typedefToken 0 (str.add 7))
  else if starts linebuf str.pos (text "__attribute__") then (skip isspace linebuf (str.add 13)).map (got .atrToken 0)
  else gettoken linebuf str

def spaces (got : Option Got) : Except Stop (Option Got) :=
  got.elim (.ok none) fun got => (skip isspace got.linebuf got.str).map fun str => some { got with str := str }

def zccgettoken (linebuf : Nat → UInt8) (str : Nat) : Except Stop (Option Got) := zpptoken linebuf ⟨str, str⟩ >>= spaces

end OsZero.Zcc

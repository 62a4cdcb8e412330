import OsZero.Lib.Loops
import OsZero.Zas.Gettoken
import OsZero.Zcc.Comment

set_option autoImplicit false

namespace OsZero.Zas.Lexer

open Cstring Symtab Loops

-- The variables of zasreadfile between two iterations of its loop.
structure Reader where
  file : List UInt8
  str : List UInt8
  eof : Bool
  done : Bool
  vals : Vals
  tokens : List Zastoken

def load (reader : Reader) : Except Stop Reader :=
  let line := reader.file.takeWhile (· ≠ newline)
  let file := reader.file.dropWhile (· ≠ newline)
  if reader.eof ∨ reader.file = [] then .error .ended
  else if ZASLINELEN ≤ line.length then .error (.exited "overlong line")
  else .ok { reader with file := file.tail, str := line.dropWhile isspace, eof := file.isEmpty, done := false }

-- The byte behind the name is overwritten and stepped over, whatever it is.
def define (reader : Reader) : Except Stop Reader :=
  let str := (reader.str.drop 7).dropWhile isspace
  let lim := word str
  if isfirst (peek str) then
    if lim = [] then .error .overrun
    else do
      match ← zasgetvalue (lim.tail.dropWhile isspace) with
      | some (val, rest) => .ok { reader with str := rest, vals := zasaddval reader.vals ⟨strndup str lim, val⟩ }
      | none => .error (.exited "invalid .define directive")
  else .ok { reader with str := str }

def taken (reader : Reader) (tokens : List Zastoken) (rest : List UInt8) : Reader :=
  let str := rest.dropWhile isspace
  { reader with str := str, done := str.isEmpty, tokens := reader.tokens ++ tokens }

def scanline (asm : Asm) (reader : Reader) : Except Stop Reader :=
  let c := peek reader.str
  let next := peek reader.str.tail
  if (text ".define").isPrefixOf reader.str then define reader
  else if (text ".include").isPrefixOf reader.str ∨ (text ".import").isPrefixOf reader.str then .error .directive
  else if c = code ';' ∨ c = code '/' ∧ next = code '/' then .ok { reader with done := true }
  else if c = code '/' ∧ next = code '*' then
    (Zcc.comment reader.file).elim (.error .ended) fun file => .ok { reader with file := file, done := true }
  else if c ≠ 0 then (zasgettoken asm reader.vals reader.str).map fun (tokens, rest) => taken reader tokens rest
  else .ok { reader with done := true }

-- The body of the loop of zasreadfile.
def zasreadfile (asm : Asm) (reader : Reader) : Except Stop Reader := if reader.done then load reader else scanline asm reader

-- zasvalhash and the token queue hold what earlier files have left there.
def start (vals : Vals) (tokens : List Zastoken) (file : List UInt8) : Reader :=
  { file := file, str := [], eof := false, done := true, vals := vals, tokens := tokens }

def turn (asm : Asm) (reader : Reader) : Option Reader := (zasreadfile asm reader).toOption

def AtDefine (reader : Reader) : Prop := reader.done = false ∧ (text ".define").isPrefixOf reader.str

def AtDirective (reader : Reader) : Prop :=
  reader.done = false ∧ ((text ".include").isPrefixOf reader.str ∨ (text ".import").isPrefixOf reader.str)

def AtToken (reader : Reader) : Prop :=
  reader.done = false ∧ ¬AtDefine reader ∧ ¬AtDirective reader ∧ peek reader.str ≠ 0 ∧ peek reader.str ≠ code ';' ∧
    ¬(peek reader.str = code '/' ∧ (peek reader.str.tail = code '/' ∨ peek reader.str.tail = code '*'))

instance (reader : Reader) : Decidable (AtDefine reader) := inferInstanceAs (Decidable (_ ∧ _))
instance (reader : Reader) : Decidable (AtDirective reader) := inferInstanceAs (Decidable (_ ∧ _))
instance (reader : Reader) : Decidable (AtToken reader) := inferInstanceAs (Decidable (_ ∧ _))

-- Every backslash is the beginning of one of the three escapes.
def escaped : List UInt8 → Bool
  | [] => true
  | ch :: s => (ch ≠ backslash ∨ peek s = code 'n' ∨ peek s = code 'r' ∨ peek s = code 't') && escaped s

def Literal (s : List UInt8) : Prop := dquote ∉ s ∧ escaped s

-- The iteration at a string literal makes one token of it, and goes on behind it.
def Kept (asm : Asm) (reader : Reader) : Prop :=
  AtToken reader → ∀ s rest, separators reader.str = dquote :: (s ++ dquote :: rest) → Literal s →
    ∃ name, zasreadfile asm reader = .ok (taken reader [.string name] rest)

-- What an iteration should do.
structure Right (asm : Asm) (reader : Reader) : Prop where
  inside : zasreadfile asm reader ≠ .error .overrun
  advances : reader.done = false → ∀ next, zasreadfile asm reader = .ok next →
    next.str <:+ reader.str ∧ next.str.length < reader.str.length ∨ next.done = true
  kept : Kept asm reader

-- The loop is left, and every iteration on the way does what it should.
def Lexes (asm : Asm) (first : Reader) : Prop :=
  (∃ last, Reaches (turn asm) first last ∧ (zasreadfile asm last = .error .ended ∨ ∃ text, zasreadfile asm last = .error (.exited text))) ∧
    ∀ reader, Reaches (turn asm) first reader → Right asm reader

-- The name that is defined does not end the line.
def Named (str : List UInt8) : Prop := isfirst (peek ((str.drop 7).dropWhile isspace)) → word ((str.drop 7).dropWhile isspace) ≠ []

-- A quote stands behind a NUL, which stands in the string where that is a literal.
def Quoted (str : List UInt8) : Prop :=
  dquote ∈ str.dropWhile (· ≠ 0) ∧ (escaped (str.takeWhile (· ≠ dquote)) → 0 ∈ str.takeWhile (· ≠ dquote))

def Readable (str : List UInt8) : Prop :=
  (peek (separators str) = dquote → Quoted (separators str).tail) ∧
    (peek (separators str) ≠ dquote → separators str = str → opens (peek str))

def Fine (reader : Reader) : Prop := (AtDefine reader → Named reader.str) ∧ (AtToken reader → Readable reader.str)

instance (str : List UInt8) : Decidable (Named str) := inferInstanceAs (Decidable (_ → _))
instance (str : List UInt8) : Decidable (Quoted str) := inferInstanceAs (Decidable (_ ∧ _))
instance (str : List UInt8) : Decidable (Readable str) := inferInstanceAs (Decidable (_ ∧ _))
instance (reader : Reader) : Decidable (Fine reader) := inferInstanceAs (Decidable (_ ∧ _))

end OsZero.Zas.Lexer

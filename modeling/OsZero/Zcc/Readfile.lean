import OsZero.Zcc.Token

set_option autoImplicit false

namespace OsZero.Zcc

open Cstring

-- What the loop over the characters of a line works on.
structure Line where
  linebuf : Nat → UInt8
  len : Nat
  eof : Bool

-- none: the line is overlong, and the process exits.
def Line.put (line : Line) (ch : UInt8) : Option Line :=
  if line.len + 1 = nlinebuf then none else some ⟨Function.update line.linebuf line.len ch, line.len + 1, line.eof⟩

def isescape (ch : UInt8) : Bool := ch = code 'b' ∨ ch = code 'n' ∨ ch = code 't' ∨ ch = code 'r'

def escape (line : Line) (ch : UInt8) : Option Line := do
  let line ← line.put backslash
  if isescape ch then line.put ch else none

-- The list is ch with what is left of the file, and is empty where ch is EOF;
-- returned with it is whether the line ended at a newline. While spaces is set
-- the ones behind a backslash are being read. eof is not updated behind an
-- escape sequence.
def readline (spaces : Bool) (line : Line) : List UInt8 → Option (Line × Bool × List UInt8)
  | [] => some (line, false, [])
  | ch :: file =>
      if spaces && isspace ch then readline true { line with eof := file.isEmpty } file
      else if ch = newline then some (line, true, file)
      else if ch = backslash then
        match file with
        | [] => some ({ line with eof := true }, false, [])
        | ch :: file =>
            if isspace ch then readline true { line with eof := file.isEmpty } file
            else (escape line ch).bind fun line => readline false line file
      else (line.put ch).bind fun line => readline false { line with eof := file.isEmpty } file

-- What is left of the file behind a comment: none where it ends inside. Behind
-- a star the next character is read as well, whatever it is.
def comment : List UInt8 → Option (List UInt8)
  | [] => none
  | ch :: file =>
      if ch = code '*' then
        match file with
        | [] => none
        | ch :: file => if ch = code '/' then some file else comment file
      else comment file

-- The variables of zccreadfile between two iterations of its loop.
structure Reader where
  file : List UInt8
  linebuf : Nat → UInt8
  str : Nat
  lim : Nat
  eof : Bool
  nl : Bool
  done : Bool
  tokens : List Zpptoken

inductive Outcome
  | next (reader : Reader)
  | ended (reader : Reader)
  | exited
  | included
  | undefined

def queue (reader : Reader) : Reader :=
  if reader.nl then { reader with tokens := reader.tokens ++ [⟨.newlineToken, 0⟩], nl := false } else reader

-- str is never behind lim here, so that done stays clear.
def loaded (reader : Reader) (line : Line) (nl : Bool) (file : List UInt8) : Outcome :=
  let linebuf := Function.update line.linebuf line.len 0
  match scan isspace linebuf nlinebuf 0 with
  | some str =>
      .next { reader with
        file := file, linebuf := linebuf, str := str, lim := line.len, eof := line.eof, nl := nl, done := decide (line.len < str) }
  | none => .undefined

def load (reader : Reader) : Outcome :=
  if reader.eof then .ended reader
  else if reader.file = [] then .ended reader
  else
    match readline false ⟨reader.linebuf, 0, false⟩ reader.file with
    | some (line, nl, file) => loaded reader line nl file
    | none => .exited

-- Where there is no token str is left alone.
def taken (reader : Reader) : Option Got → Reader
  | some got =>
      { reader with
        linebuf := got.linebuf, str := got.str.pos, done := decide (reader.lim ≤ got.str.pos), tokens := reader.tokens ++ [got.tok] }
  | none => { reader with done := decide (reader.lim ≤ reader.str) }

def token (reader : Reader) : Outcome :=
  match zccgettoken reader.linebuf reader.str with
  | .ok got => .next (taken reader got)
  | .error (.exited _) => .exited
  | .error .undefined => .undefined

def scanline (reader : Reader) : Outcome :=
  let c := reader.linebuf reader.str
  let next := reader.linebuf (reader.str + 1)
  if starts reader.linebuf reader.str (text "#include") then .included
  else if c = code '/' ∧ next = code '/' then .next { reader with done := true }
  else if c = code '/' ∧ next = code '*' then
    (comment reader.file).elim (.ended { reader with file := [], done := true }) fun file => .next { reader with file := file, done := true }
  else if c ≠ 0 then token reader
  else .next { reader with done := true }

-- The body of the loop of zccreadfile.
def zccreadfile (doinclude : Bool) (reader : Reader) : Outcome :=
  if reader.done then load (queue reader)
  else if doinclude then scanline reader
  else if starts reader.linebuf reader.str (text "#include") then .next reader
  else if reader.linebuf reader.str = 0 then .next { reader with done := true }
  else .next reader

-- linebuf is a static array, which an earlier file may have been read into.
def start (linebuf : Nat → UInt8) (tokens : List Zpptoken) (file : List UInt8) : Reader :=
  { file := file, linebuf := linebuf, str := 0, lim := 0, eof := false, nl := false, done := true, tokens := tokens }

def turn (reader : Reader) : Option Reader :=
  match zccreadfile true reader with
  | .next reader => some reader
  | _ => none

-- What a line leaves of the file it is read from.
structure Leaves (before : List UInt8) (line : Line) (nl : Bool) (file : List UInt8) : Prop where
  room : line.len < nlinebuf
  drained : line.eof = true → file = []
  newline : nl = true ∨ file = []
  shorter : file.length ≤ before.length - 1

theorem put_some (line next : Line) (ch : UInt8) (put : line.put ch = some next) (room : line.len < nlinebuf) :
    next.len < nlinebuf ∧ next.eof = line.eof := by
  unfold Line.put at put
  split at put
  · contradiction
  · next other =>
    cases put
    exact ⟨by show line.len + 1 < nlinebuf; omega, rfl⟩

theorem escape_some (line next : Line) (ch : UInt8) (put : escape line ch = some next) (room : line.len < nlinebuf) :
    next.len < nlinebuf ∧ next.eof = line.eof := by
  obtain ⟨mid, first, second⟩ := Option.bind_eq_some_iff.mp put
  have once := put_some line mid backslash first room
  split at second
  · have twice := put_some mid next ch second once.1
    exact ⟨twice.1, twice.2.trans once.2⟩
  · contradiction

theorem leaves_cons (ch : UInt8) (before file : List UInt8) (line : Line) (nl : Bool) (leaves : Leaves before line nl file) :
    Leaves (ch :: before) line nl file := by
  refine ⟨leaves.room, leaves.drained, leaves.newline, ?_⟩
  have shorter := leaves.shorter
  rw [List.length_cons]
  omega

theorem readline_leaves (size : Nat) (spaces : Bool) (line last : Line) (before file : List UInt8) (nl : Bool) (fits : before.length ≤ size)
    (room : line.len < nlinebuf) (drained : line.eof = true → before = []) (read : readline spaces line before = some (last, nl, file)) :
    Leaves before last nl file := by
  induction size generalizing spaces line before with
  | zero =>
    rw [List.length_eq_zero_iff.mp (Nat.le_zero.mp fits)] at read ⊢
    cases read
    exact ⟨room, fun _ => rfl, .inr rfl, Nat.le_refl 0⟩
  | succ size ih =>
    cases before with
    | nil =>
      cases read
      exact ⟨room, fun _ => rfl, .inr rfl, Nat.le_refl 0⟩
    | cons ch before =>
      have fewer : before.length ≤ size := Nat.le_of_succ_le_succ fits
      have clear : ∀ eof, eof = line.eof → eof = true → ∀ file : List UInt8, file = [] :=
        fun eof same set => absurd (drained (same ▸ set)) (List.cons_ne_nil ch before)
      rw [readline.eq_def] at read
      simp only at read
      split at read
      · exact leaves_cons ch before file last nl (ih true { line with eof := before.isEmpty } before fewer room List.isEmpty_iff.mp read)
      split at read
      · cases read
        exact ⟨room, fun set => clear _ rfl set _, .inl rfl, Nat.le_refl _⟩
      split at read
      · cases before with
        | nil =>
          cases read
          exact ⟨room, fun _ => rfl, .inr rfl, Nat.le_refl 0⟩
        | cons ch' before =>
          have least : before.length ≤ size := Nat.le_of_succ_le fewer
          simp only at read
          split at read
          · exact leaves_cons ch _ file last nl (leaves_cons ch' before file last nl
              (ih true { line with eof := before.isEmpty } before least room List.isEmpty_iff.mp read))
          · obtain ⟨next, put, read⟩ := Option.bind_eq_some_iff.mp read
            obtain ⟨short, eof⟩ := escape_some line next ch' put room
            exact leaves_cons ch _ file last nl (leaves_cons ch' before file last nl
              (ih false next before least short (fun set => clear _ eof set _) read))
      · obtain ⟨next, put, read⟩ := Option.bind_eq_some_iff.mp read
        exact leaves_cons ch before file last nl (ih false { next with eof := before.isEmpty } before fewer
          (put_some line next ch put room).1 List.isEmpty_iff.mp read)

end OsZero.Zcc

import Mathlib.Data.List.DropRight
import OsZero.Zas.Fields

set_option autoImplicit false

namespace OsZero.Zas.Lexer

open Cstring Symtab

def ZASLINELEN : Nat := 4096

-- The loop that looks for the closing quote: what it adds to zasstrbuf, and str
-- behind the quote; none where it reads on behind the NUL of the line.
def unescape : List UInt8 → Option (List UInt8 × List UInt8)
  | [] => none
  | ch :: str =>
      if ch = dquote then some ([], str)
      else if ch = backslash then
        match str with
        | [] => none
        | c :: rest =>
            if c = code 'n' then (unescape rest).map (Prod.map (10 :: ·) id)
            else if c = code 'r' then (unescape rest).map (Prod.map (13 :: ·) id)
            else if c = code 't' then (unescape rest).map (Prod.map (9 :: ·) id)
            else unescape (c :: rest)
      else (unescape str).map (Prod.map (ch :: ·) id)

-- str is behind the opening quote. The first loop copies up to a NUL.
def quoted (str : List UInt8) : Except Stop (List Zastoken × List UInt8) :=
  let buf := str.takeWhile (· ≠ 0)
  if ZASLINELEN ≤ buf.length then .error (.exited "overlong line")
  else
    match unescape (str.dropWhile (· ≠ 0)) with
    | some (chars, rest) => .ok ([.string (strdup (buf ++ chars))], rest)
    | none => .error .overrun

def numeric (asm : Asm) (str : List UInt8) : Except Stop (List Zastoken × List UInt8) := do
  let (val, ndx, rest) ← zasgetindex asm str
  if val.toInt < 0xff then .ok ([.index val ndx], rest)
  else
    match ← zasgetvalue rest with
    | some (val, rest) => .ok ([.value val 0], rest)
    | none => .error (.exited "invalid token")

def symbolic (asm : Asm) (str : List UInt8) : Except Stop (List Zastoken × List UInt8) :=
  match zasgetlabel str with
  | some (name, rest) => .ok ([.label name], rest)
  | none => do
      match ← zasgetinst asm str with
      | some (op, rest) => .ok ([.inst op], rest)
      | none => .ok ([.sym (zasgetsym str).1], (zasgetsym str).2)

def immediate (vals : Vals) (str : List UInt8) : Except Stop (List Zastoken × List UInt8) :=
  if isfirst (peek str) ∨ peek str = code '-' then
    match zasfindval vals str with
    | some (val, rest) => .ok ([.immed val], rest)
    | none => do
        match ← zasgetvalue str with
        | some (val, rest) => .ok ([.immed val], rest)
        | none => .ok ([.adr (zasgetsym str).1], (zasgetsym str).2)
  else if isdigit (peek str) then do
    match ← zasgetvalue str with
    | some (val, rest) => .ok ([.immed val], rest)
    | none => .error (.exited "invalid immediate")
  else .ok ([.unset], str)

def directives : List (String × Zastoken) :=
  [("quad", .data 8), ("long", .data 4), ("byte", .data 1), ("short", .data 2), ("globl", .globl), ("space", .space), ("org", .org),
    ("align", .align), ("asciz", .asciz)]

def directive (str : List UInt8) : List Zastoken × List UInt8 :=
  (directives.find? fun entry => (text entry.1).isPrefixOf str).elim ([.unset], str) fun entry => ([entry.2], str.drop entry.1.length)

def indirect (asm : Asm) (str : List UInt8) : Except Stop (List Zastoken × List UInt8) :=
  if peek str = code '%' then (getreg asm str.tail).map fun (val, rest) => ([.indir, .reg true val], rest)
  else if isfirst (peek str) then .ok ([.indir, .sym (zasgetsym str).1], (zasgetsym str).2)
  else .error (.exited "invalid token")

def separators (str : List UInt8) : List UInt8 := (onechar (code ',') (str.dropWhile isspace)).dropWhile isspace

-- The tokens in the order they are queued in, and *retptr.
def zasgettoken (asm : Asm) (vals : Vals) (str : List UInt8) : Except Stop (List Zastoken × List UInt8) :=
  let str := separators str
  let c := peek str
  if isdigit c ∨ c = code '-' then numeric asm str
  else if c = dquote then quoted str.tail
  else if c = code '%' then (getreg asm str.tail).map fun (val, rest) => ([.reg false val], rest)
  else if isfirst c then symbolic asm str
  else if c = code '$' then immediate vals str.tail
  else if c = squote then (zasgetchar str).map fun (val, rest) => ([.char val], rest)
  else if c = code '.' then .ok (directive str.tail)
  else if c = code '*' ∨ c = code '(' then indirect asm str.tail
  else .ok ([.unset], str)

-- What a token begins with, except for a string.
def opens (c : UInt8) : Prop :=
  (isdigit c ∨ c = code '-') ∨ c = code '%' ∨ isfirst c ∨ c = code '$' ∨ c = squote ∨ c = code '.' ∨ c = code '*' ∨ c = code '('

instance (c : UInt8) : Decidable (opens c) := inferInstanceAs (Decidable (_ ∨ _))

-- What is left behind the first quote.
def behindQuote (str : List UInt8) : Option (List UInt8) := if dquote ∈ str then some (str.dropWhile (· ≠ dquote)).tail else none

theorem behindQuote_other (c : UInt8) (str : List UInt8) (other : c ≠ dquote) : behindQuote (c :: str) = behindQuote str := by
  have same : dquote ∈ c :: str ↔ dquote ∈ str := by
    rw [List.mem_cons]
    exact or_iff_right other.symm
  have passed : (c :: str).dropWhile (· ≠ dquote) = str.dropWhile (· ≠ dquote) := List.dropWhile_cons_of_pos (decide_eq_true other)
  simp only [behindQuote, same, passed]

theorem unescape_rest (str : List UInt8) : (unescape str).map Prod.snd = behindQuote str := by
  have added : ∀ (c : UInt8) (found : Option (List UInt8 × List UInt8)), (found.map (Prod.map (c :: ·) id)).map Prod.snd = found.map Prod.snd := by
    intro c found
    cases found <;> rfl
  have passed : ∀ (c : UInt8) (rest : List UInt8), c ≠ dquote → behindQuote (backslash :: c :: rest) = behindQuote rest := fun c rest other => by
    rw [behindQuote_other backslash _ (by decide), behindQuote_other c rest other]
  fun_induction unescape str with
  | case1 => rfl
  | case2 str => rfl
  | case3 => rfl
  | case4 rest _ ih => rw [added, ih, passed _ _ (by decide)]
  | case5 rest _ _ ih => rw [added, ih, passed _ _ (by decide)]
  | case6 rest _ _ _ ih => rw [added, ih, passed _ _ (by decide)]
  | case7 c rest _ _ _ _ ih => rw [ih, behindQuote_other backslash _ (by decide)]
  | case8 c rest other _ ih => rw [added, ih, behindQuote_other c rest other]

-- The string ends at the first quote behind the NUL that the copy stops at.
theorem quoted_rest (str : List UInt8) (short : str.length < ZASLINELEN) :
    (∀ rest, behindQuote (str.dropWhile (· ≠ 0)) = some rest → ∃ name, quoted str = .ok ([.string name], rest)) ∧
      (behindQuote (str.dropWhile (· ≠ 0)) = none → quoted str = .error .overrun) := by
  have copied : ¬ZASLINELEN ≤ (str.takeWhile (· ≠ 0)).length :=
    Nat.not_le.mpr (Nat.lt_of_le_of_lt (List.takeWhile_prefix _).length_le short)
  have found := unescape_rest (str.dropWhile (· ≠ 0))
  unfold quoted
  simp only
  rw [if_neg copied]
  cases read : unescape (str.dropWhile (· ≠ 0)) with
  | none =>
    rw [read, Option.map_none] at found
    rw [← found]
    exact ⟨nofun, fun _ => rfl⟩
  | some got =>
    rw [read, Option.map_some] at found
    rw [← found]
    refine ⟨?_, nofun⟩
    rintro _ ⟨⟩
    exact ⟨_, rfl⟩

theorem behindQuote_suffix (str rest : List UInt8) (found : behindQuote str = some rest) : rest <:+ str := by
  obtain ⟨-, same⟩ := Option.ite_none_right_eq_some.mp found
  cases same
  exact (List.tail_suffix _).trans (List.dropWhile_suffix _)

theorem separators_suffix (str : List UInt8) : separators str <:+ str :=
  ((List.dropWhile_suffix isspace).trans (onechar_suffix _ _)).trans (List.dropWhile_suffix isspace)

abbrev From (str : List UInt8) : Except Stop (List Zastoken × List UInt8) → Prop := Gives fun got => got.2 <:+ str

theorem directive_suffix (str : List UInt8) : (directive str).2 <:+ str := by
  unfold directive
  cases directives.find? fun entry => (text entry.1).isPrefixOf str with
  | none => exact List.suffix_refl str
  | some entry => exact List.drop_suffix _ str

theorem immediate_from (vals : Vals) (str : List UInt8) : From str (immediate vals str) := by
  have valued : Gives (fun found => ∀ got ∈ found, got.2 <:+ str) (zasgetvalue str) :=
    gives_mono _ _ (fun found suffix got inside => (suffix got inside).trans (List.tail_suffix str)) _ (zasgetvalue_gives str)
  unfold immediate
  split
  · cases found : zasfindval vals str with
    | some got => exact zasfindval_suffix vals str got.2 got.1 found
    | none =>
      refine gives_bind _ _ _ _ valued fun found suffix => ?_
      cases found with
      | some got => exact suffix got rfl
      | none => exact zasgetsym_suffix str
  split
  · refine gives_bind _ _ _ _ valued fun found suffix => ?_
    cases found with
    | some got => exact suffix got rfl
    | none => exact ⟨_, rfl⟩
  · exact List.suffix_refl str

section
variable {asm : Asm} (documented : asm.Documented)
include documented

theorem numeric_from (str : List UInt8) : From str.tail (numeric asm str) := by
  refine gives_bind _ _ _ _ (zasgetindex_gives documented str) fun got taken => ?_
  obtain ⟨val, ndx, rest⟩ := got
  have behind : rest.tail <:+ str.tail := by
    obtain ⟨rfl, -⟩ | suffix := taken
    · exact List.suffix_refl _
    · exact (List.tail_suffix rest).trans suffix
  simp only
  split
  · next register =>
    obtain ⟨-, rfl⟩ | suffix := taken
    · exact absurd register (by decide)
    · exact suffix
  · refine gives_bind _ _ _ _ (zasgetvalue_gives rest) fun found suffix => ?_
    cases found with
    | some got => exact (suffix got rfl).trans behind
    | none => exact ⟨_, rfl⟩

theorem symbolic_from (str : List UInt8) (first : isfirst (peek str) = true) : From str.tail (symbolic asm str) := by
  unfold symbolic
  cases found : zasgetlabel str with
  | some got => exact zasgetlabel_suffix str got.2 got.1 found
  | none =>
    refine gives_bind _ _ _ _ (zasgetinst_gives documented str) fun found suffix => ?_
    cases found with
    | some got => exact suffix got rfl
    | none => exact zasgetsym_suffix_tail str first

theorem register_from (str : List UInt8) (tokens : Word → List Zastoken) :
    From str ((getreg asm str).map fun (val, rest) => (tokens val, rest)) :=
  gives_map _ _ _ _ (getreg_gives documented str) fun _ suffix => suffix

theorem indirect_from (str : List UInt8) : From str (indirect asm str) := by
  unfold indirect
  split
  · exact gives_mono _ _ (fun _ (suffix : _ <:+ str.tail) => suffix.trans (List.tail_suffix str)) _
      (register_from documented str.tail fun val => [.indir, .reg true val])
  split
  · exact zasgetsym_suffix str
  · exact ⟨_, rfl⟩

-- A character that opens a token is behind *retptr.
theorem zasgettoken_from (vals : Vals) (str : List UInt8) (other : peek (separators str) ≠ dquote) (first : opens (peek (separators str))) :
    From (separators str).tail (zasgettoken asm vals str) := by
  unfold zasgettoken
  simp only
  split
  · exact numeric_from documented _
  split
  · exact register_from documented _ fun val => [.reg false val]
  split
  · next letter => exact symbolic_from documented _ letter
  split
  · exact immediate_from vals _
  split
  · exact gives_map _ _ _ _ (zasgetchar_gives _) fun _ suffix => suffix
  split
  · exact directive_suffix _
  split
  · exact indirect_from documented _
  · next number percent letter dollar quote dot star =>
    obtain here | here | here | here | here | here | here := first <;> contradiction

end

-- A character that opens none is left where it is.
theorem zasgettoken_none (asm : Asm) (vals : Vals) (str : List UInt8) (other : peek (separators str) ≠ dquote)
    (none : ¬opens (peek (separators str))) : zasgettoken asm vals str = .ok ([.unset], separators str) := by
  simp only [opens, not_or] at none
  obtain ⟨number, percent, letter, dollar, quote, dot, star⟩ := none
  unfold zasgettoken
  simp only
  rw [if_neg (not_or.mpr number), if_neg other, if_neg percent, if_neg letter, if_neg dollar, if_neg quote, if_neg dot, if_neg (not_or.mpr star)]

end OsZero.Zas.Lexer

import Mathlib.Data.List.TakeWhile
import OsZero.Zas.Symtab

set_option autoImplicit false

namespace OsZero.Zas.Lexer

open Cstring Symtab

abbrev Word := BitVec 64

def newline : UInt8 := 0x0a
def dquote : UInt8 := 0x22
def squote : UInt8 := 0x27
def backslash : UInt8 := 0x5c

-- Where a call does not return, or the loop is left: the process exits with a
-- diagnostic, the file is read, or a byte behind the NUL of the line is asked for.
inductive Stop
  | exited (text : String)
  | ended
  | directive
  | overrun
deriving DecidableEq

structure Zasop where
  name : Name
  code : UInt8
  narg : UInt8
  len : UInt8

-- A register and the length of its name, or the diagnostic the process exits with.
structure Asm where
  asmgetreg : Name → Except String (Word × Nat)
  asmfindop : Name → Option Zasop

-- Both read the text they are given from its front.
structure Asm.Documented (asm : Asm) : Prop where
  register : ∀ str reg len, asm.asmgetreg str = .ok (reg, len) → len ≤ str.1.length
  operation : ∀ str op, asm.asmfindop str = some op → op.name.1 ≠ [] ∧ op.name.1 <+: str.1 ∧ op.len.toNat = op.name.1.length

-- ZASREGINDEX and ZASREGINDIR are bits that only the machine's own part knows.
inductive Zastoken
  | unset
  | value (val : Word) (size : Nat)
  | label (name : Name)
  | inst (op : Zasop)
  | reg (indir : Bool) (val : Word)
  | sym (name : Name)
  | char (ch : UInt8)
  | immed (val : Word)
  | indir
  | adr (name : Name)
  | index (reg val : Word)
  | data (size : Nat)
  | globl
  | space
  | org
  | align
  | asciz
  | string (str : Name)

-- str is what is left of zaslinebuf up to the NUL that ends the line.
def peek (str : List UInt8) : UInt8 := str.headD 0

def strdup (str : List UInt8) : Name :=
  ⟨str.takeWhile (· ≠ 0), fun inside => absurd (List.mem_takeWhile_imp inside) (by decide)⟩

-- strdup(str) behind *lim = 0.
def strndup (str lim : List UInt8) : Name := strdup (str.take (str.length - lim.length))

-- The chains of zasvalhash.
abbrev Vals := Nat → List Zasval

def zasaddval (vals : Vals) (val : Zasval) : Vals :=
  let key := masked true (charsum val.name.1)
  Function.update vals key (val :: vals key)

def zasfindval (vals : Vals) (str : List UInt8) : Option (Word × List UInt8) :=
  if isfirst (peek str) then
    let ptr := str.takeWhile isword
    ((vals (masked true (charsum ptr))).find? fun val => ptr.isPrefixOf val.name.1).map fun val => (val.val, str.dropWhile isword)
  else none

def word (str : List UInt8) : List UInt8 := (if isfirst (peek str) then str.tail else str).dropWhile isword

def zasgetlabel (str : List UInt8) : Option (Name × List UInt8) :=
  let lim := if isfirst (peek str) then word str else str
  if peek lim = code ':' then some (strndup str lim, lim.tail) else none

-- str += len, where str is read from next.
def forward (len : Nat) (str : List UInt8) : Except Stop (List UInt8) := if len ≤ str.length then .ok (str.drop len) else .error .overrun

def zasgetinst (asm : Asm) (str : List UInt8) : Except Stop (Option (Zasop × List UInt8)) :=
  match asm.asmfindop (strdup str) with
  | some op => (forward op.len.toNat str).map fun rest => some (op, rest)
  | none => .ok none

def zasgetsym (str : List UInt8) : Name × List UInt8 :=
  let lim := (word str).dropWhile isspace
  if peek lim = code ',' then (strndup str lim, lim.tail) else (strdup str, lim)

def getreg (asm : Asm) (str : List UInt8) : Except Stop (Word × List UInt8) :=
  match asm.asmgetreg (strdup str) with
  | .ok (reg, len) => (forward len str).map fun rest => (reg, rest)
  | .error text => .error (.exited text)

def isbin (c : UInt8) : Bool := c = code '0' ∨ c = code '1'

def digitval (c : UInt8) : Word := BitVec.ofNat 64 (if isdigit c then c.toNat - 48 else (tolower c).toNat - 97 + 10)

def digits (p : UInt8 → Bool) (scale : Word → Word) (str : List UInt8) : Word × List UInt8 :=
  ((str.takeWhile p).foldl (fun uval c => scale uval + digitval c) 0, str.dropWhile p)

def octal (str : List UInt8) : Except Stop (Word × List UInt8) :=
  if (str.takeWhile isdigit).any fun c => (code '7').toNat < c.toNat then .error (.exited "invalid number in octal constant")
  else .ok (digits isdigit (· <<< 3) str)

-- The four forms of a number, without a sign.
def number (str : List UInt8) : Except Stop (Option (Word × List UInt8)) :=
  if peek str = code '0' ∧ tolower (peek str.tail) = code 'x' then .ok (some (digits isxdigit (· <<< 4) (str.drop 2)))
  else if peek str = code '0' ∧ tolower (peek str.tail) = code 'b' then .ok (some (digits isbin (· <<< 1) (str.drop 2)))
  else if peek str = code '0' then (octal str.tail).map some
  else if isdigit (peek str) then .ok (some (digits isdigit (· * 10) str))
  else .ok none

def signed (neg : Bool) (val : Word) : Word := if neg then -val else val

def zasgetvalue (str : List UInt8) : Except Stop (Option (Word × List UInt8)) :=
  let neg : Bool := peek str = code '-'
  (number (if neg then str.tail else str)).map fun found => found.map fun (val, rest) => (signed neg val, rest)

-- The register, the number in front of it and *retptr, which is left alone where
-- no parenthesis follows the number.
def zasgetindex (asm : Asm) (str : List UInt8) : Except Stop (Word × Word × List UInt8) := do
  let neg : Bool := peek str = code '-'
  let ptr := if neg then str.tail else str
  let found ← number ptr
  let (val, lim) := found.getD (0, ptr)
  if peek lim = code '(' then
    let (reg, rest) ← getreg asm (if peek lim.tail = code '%' then lim.tail.tail else lim.tail)
    .ok (reg, signed neg val, rest)
  else .ok (0xff, signed neg val, str)

-- A letter that is no escape is left where it is, and reported.
def escape (str : List UInt8) : Word × List UInt8 :=
  if peek str = code 'n' then (10, str.tail)
  else if peek str = code 't' then (9, str.tail)
  else if peek str = code 'r' then (13, str.tail)
  else (0, str)

def charval (str : List UInt8) : Except Stop (Word × List UInt8) :=
  if peek str = backslash then
    if isalpha (peek str.tail) then .ok (escape str.tail)
    else octal (if peek str.tail = code '0' then str.tail.tail else str.tail)
  else if isalpha (peek str) ∨ isspace (peek str) then .ok (BitVec.ofNat 64 (peek str).toNat, str.tail)
  else .ok (digits isdigit (· * 10) str)

def onechar (c : UInt8) (str : List UInt8) : List UInt8 := if peek str = c then str.tail else str

def zasgetchar (str : List UInt8) : Except Stop (UInt8 × List UInt8) := do
  let (val, lim) ← charval str.tail
  if 0xff < val.toInt then .error (.exited "oversize character literal")
  else .ok (UInt8.ofNat val.toNat, onechar (code ',') (onechar squote lim))

section Suffixes

variable {α β : Type}

-- A call returns what satisfies Post, or exits with a diagnostic.
def Gives (Post : α → Prop) : Except Stop α → Prop
  | .ok found => Post found
  | .error stop => ∃ text, stop = .exited text

theorem gives_mono (Post Weak : α → Prop) (weaken : ∀ found, Post found → Weak found) (call : Except Stop α) (gives : Gives Post call) :
    Gives Weak call := by
  cases call with
  | ok found => exact weaken found gives
  | error stop => exact gives

theorem gives_map (Mid : α → Prop) (Post : β → Prop) (f : α → β) (call : Except Stop α) (first : Gives Mid call)
    (then_post : ∀ found, Mid found → Post (f found)) : Gives Post (call.map f) := by
  cases call with
  | ok found => exact then_post found first
  | error stop => exact first

theorem gives_bind (Mid : α → Prop) (Post : β → Prop) (call : Except Stop α) (next : α → Except Stop β) (first : Gives Mid call)
    (then_gives : ∀ found, Mid found → Gives Post (next found)) : Gives Post (call >>= next) := by
  cases call with
  | ok found => exact then_gives found first
  | error stop => exact first

theorem tail_suffix_tail (lim str : List UInt8) (suffix : lim <:+ str) : lim.tail <:+ str.tail := by
  obtain ⟨front, rfl⟩ := suffix
  cases front with
  | nil => exact List.suffix_refl _
  | cons c front => exact (List.tail_suffix lim).trans (List.suffix_append front lim)

theorem drop_suffix_tail (len : Nat) (str : List UInt8) (moved : 0 < len) : str.drop len <:+ str.tail := by
  rw [← List.drop_one]
  exact List.drop_suffix_drop_left str moved

-- A character of the class that is skipped is stepped over.
theorem dropWhile_suffix_tail (p : UInt8 → Bool) (str : List UInt8) (stop : p 0 = false) (first : p (peek str) = true) :
    str.dropWhile p <:+ str.tail := by
  cases str with
  | nil =>
    rw [peek, List.headD_nil, stop] at first
    contradiction
  | cons c str =>
    have first : p c = true := first
    rw [List.dropWhile_cons_of_pos first]
    exact List.dropWhile_suffix p

theorem word_suffix (str : List UInt8) : word str <:+ str := by
  unfold word
  split
  · exact (List.dropWhile_suffix isword).trans (List.tail_suffix str)
  · exact List.dropWhile_suffix isword

theorem word_suffix_tail (str : List UInt8) (first : isfirst (peek str) = true) : word str <:+ str.tail := by
  rw [word, if_pos first]
  exact List.dropWhile_suffix isword

theorem zasfindval_suffix (vals : Vals) (str rest : List UInt8) (val : Word) (found : zasfindval vals str = some (val, rest)) : rest <:+ str := by
  unfold zasfindval at found
  split at found
  · obtain ⟨def_, -, same⟩ := Option.map_eq_some_iff.mp found
    cases same
    exact List.dropWhile_suffix isword
  · contradiction

theorem zasgetlabel_suffix (str rest : List UInt8) (name : Name) (found : zasgetlabel str = some (name, rest)) : rest <:+ str.tail := by
  have lim : (if isfirst (peek str) then word str else str) <:+ str := by
    split
    · exact word_suffix str
    · exact List.suffix_refl str
  rw [zasgetlabel] at found
  obtain ⟨-, same⟩ := Option.ite_none_right_eq_some.mp found
  cases same
  exact tail_suffix_tail _ str lim

theorem zasgetsym_suffix (str : List UInt8) : (zasgetsym str).2 <:+ str := by
  have lim : (word str).dropWhile isspace <:+ str := (List.dropWhile_suffix isspace).trans (word_suffix str)
  unfold zasgetsym
  simp only
  split
  · exact (List.tail_suffix _).trans lim
  · exact lim

theorem zasgetsym_suffix_tail (str : List UInt8) (first : isfirst (peek str) = true) : (zasgetsym str).2 <:+ str.tail := by
  have lim : (word str).dropWhile isspace <:+ str.tail := (List.dropWhile_suffix isspace).trans (word_suffix_tail str first)
  unfold zasgetsym
  simp only
  split
  · exact (List.tail_suffix _).trans lim
  · exact lim

theorem octal_gives (str : List UInt8) : Gives (fun got => got.2 <:+ str) (octal str) := by
  unfold octal
  split
  · exact ⟨_, rfl⟩
  · exact List.dropWhile_suffix isdigit

theorem number_gives (str : List UInt8) : Gives (fun found => ∀ got ∈ found, got.2 <:+ str.tail) (number str) := by
  have two : ∀ p : UInt8 → Bool, (str.drop 2).dropWhile p <:+ str.tail := fun p =>
    (List.dropWhile_suffix p).trans (drop_suffix_tail 2 str Nat.two_pos)
  unfold number
  split
  · rintro _ ⟨⟩
    exact two isxdigit
  split
  · rintro _ ⟨⟩
    exact two isbin
  split
  · refine gives_map _ _ _ _ (octal_gives str.tail) fun got suffix => ?_
    rintro _ ⟨⟩
    exact suffix
  split
  · next digit =>
    rintro _ ⟨⟩
    exact dropWhile_suffix_tail isdigit str rfl digit
  · rintro _ ⟨⟩

-- A sign is stepped over as well.
theorem unsigned_suffix (neg : Bool) (str : List UInt8) : (if neg then str.tail else str) <:+ str := by
  split
  · exact List.tail_suffix str
  · exact List.suffix_refl str

theorem zasgetvalue_gives (str : List UInt8) : Gives (fun found => ∀ got ∈ found, got.2 <:+ str.tail) (zasgetvalue str) := by
  unfold zasgetvalue
  simp only
  refine gives_map _ _ _ _ (number_gives _) fun found suffix => ?_
  intro got inside
  obtain ⟨pair, member, rfl⟩ := Option.map_eq_some_iff.mp inside
  exact (suffix pair member).trans (tail_suffix_tail _ str (unsigned_suffix _ str))

theorem onechar_suffix (c : UInt8) (str : List UInt8) : onechar c str <:+ str := by
  unfold onechar
  split
  · exact List.tail_suffix str
  · exact List.suffix_refl str

theorem escape_suffix (str : List UInt8) : (escape str).2 <:+ str := by
  unfold escape
  split_ifs
  · exact List.tail_suffix str
  · exact List.tail_suffix str
  · exact List.tail_suffix str
  · exact List.suffix_refl str

theorem charval_gives (str : List UInt8) : Gives (fun got => got.2 <:+ str) (charval str) := by
  unfold charval
  split
  · split
    · exact (escape_suffix str.tail).trans (List.tail_suffix str)
    · refine gives_mono _ _ (fun got suffix => suffix.trans ?_) _ (octal_gives _)
      split
      · exact (List.tail_suffix _).trans (List.tail_suffix str)
      · exact List.tail_suffix str
  split
  · exact List.tail_suffix str
  · exact List.dropWhile_suffix isdigit

theorem zasgetchar_gives (str : List UInt8) : Gives (fun got => got.2 <:+ str.tail) (zasgetchar str) := by
  refine gives_bind _ _ _ _ (charval_gives str.tail) fun got suffix => ?_
  obtain ⟨val, lim⟩ := got
  simp only
  split
  · exact ⟨_, rfl⟩
  · exact ((onechar_suffix _ _).trans (onechar_suffix _ _)).trans suffix

theorem forward_ok (len : Nat) (str : List UInt8) (inside : len ≤ (strdup str).1.length) : forward len str = .ok (str.drop len) := by
  have shorter : (strdup str).1.length ≤ str.length := (List.takeWhile_prefix _).length_le
  exact if_pos (inside.trans shorter)

section
variable {asm : Asm} (documented : asm.Documented)
include documented


theorem getreg_gives (str : List UInt8) : Gives (fun got => got.2 <:+ str) (getreg asm str) := by
  unfold getreg
  cases found : asm.asmgetreg (strdup str) with
  | error text => exact ⟨text, rfl⟩
  | ok got =>
    show Gives _ ((forward got.2 str).map _)
    rw [forward_ok got.2 str (documented.register _ _ _ found)]
    exact List.drop_suffix got.2 str

theorem zasgetinst_gives (str : List UInt8) : Gives (fun found => ∀ got ∈ found, got.2 <:+ str.tail) (zasgetinst asm str) := by
  unfold zasgetinst
  cases found : asm.asmfindop (strdup str) with
  | none => nofun
  | some op =>
    obtain ⟨named, front, len⟩ := documented.operation _ op found
    show Gives _ ((forward op.len.toNat str).map _)
    rw [forward_ok op.len.toNat str (by rw [len]; exact front.length_le)]
    rintro _ ⟨⟩
    exact drop_suffix_tail _ str (by rw [len]; exact List.length_pos_iff.mpr named)

theorem zasgetindex_gives (str : List UInt8) : Gives (fun got => got.2.2 = str ∧ got.1 = 0xff ∨ got.2.2 <:+ str.tail) (zasgetindex asm str) := by
  unfold zasgetindex
  simp only
  refine gives_bind _ _ _ _ (number_gives _) fun found suffix => ?_
  have lim : (found.getD (0, if decide (peek str = code '-') then str.tail else str)).2 <:+ str := by
    cases found with
    | none => exact unsigned_suffix _ str
    | some got => exact ((suffix got rfl).trans (List.tail_suffix _)).trans (unsigned_suffix _ str)
  generalize found.getD _ = got at lim ⊢
  have behind := tail_suffix_tail _ str lim
  split
  · refine gives_bind _ _ _ _ (getreg_gives documented _) fun reg taken => Or.inr (taken.trans ?_)
    split
    · exact (List.tail_suffix _).trans behind
    · exact behind
  · exact Or.inl ⟨rfl, rfl⟩

end

end Suffixes

end OsZero.Zas.Lexer

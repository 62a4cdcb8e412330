import OsZero.Lib.Runs
import Mathlib.Data.List.TakeWhile
import Mathlib.Algebra.Order.Ring.Int

set_option autoImplicit false

namespace OsZero.Term

def code (c : Char) : UInt8 := UInt8.ofNat c.toNat

def vtesc : UInt8 := 0x1b

def vtescnarg : Nat := 32

-- A string is the list of its bytes before the NUL.
def peek (str : List UInt8) : UInt8 := str.headD 0

def isdigit (c : UInt8) : Bool := 48 ≤ c.toNat ∧ c.toNat ≤ 57

-- A number that does not fit into a long has no defined value.
def vtgetescnum (num : Int) : List UInt8 → Option (Int × List UInt8)
  | [] => some (num, [])
  | c :: str =>
      if isdigit c then
        if num * 10 + (c.toNat - 48 : Nat) < 2 ^ 63 then vtgetescnum (num * 10 + (c.toNat - 48 : Nat)) str else none
      else some (num, c :: str)

-- The locals of vtparseesc that its sequences share. argtab is uninitialised
-- storage, so it starts with anything in it.
structure Esc where
  narg : Nat
  argtab : Nat → Int
  sign : Int

def keep (num : Int) (esc : Esc) : Esc :=
  if num ≠ 0 ∧ esc.narg < vtescnarg then
    { esc with argtab := Function.update esc.argtab esc.narg (esc.sign * num), narg := esc.narg + 1 }
  else esc

def skip (c : Char) (str : List UInt8) : List UInt8 := if peek str = code c then str.tail else str

-- At a quote vtgetescstr returns at once and leaves str on the quote, which
-- then ends the loop.
def csiloop : Nat → Esc → List UInt8 → Option (Esc × List UInt8)
  | 0, _, _ => none
  | fuel + 1, esc, str =>
      if isdigit (peek str) then
        do
          let read ← vtgetescnum 0 str
          let esc := keep read.1 esc
          let str := skip ';' read.2
          csiloop fuel { esc with sign := if peek str = code '-' then -1 else 1 } (skip '-' str)
      else some (esc, str)

-- A handler is called with narg and argtab, which is NULL outside of CSI
-- sequences, and has no result when it accesses what it must not.
abbrev Handler (σ : Type) := σ → Nat → Option (Nat → Int) → Option σ

structure Tabs (σ : Type) where
  csi : UInt8 → Option (Handler σ)
  esc : UInt8 → Option (Handler σ)

variable {σ : Type}

-- char is signed: the entries in front of csimap and csifunctab are the upper
-- ones of escmap and escfunctab, in front of these there is none.
def csicmd (tabs : Tabs σ) (c : UInt8) : Option (Handler σ) := if c.toNat < 128 then tabs.csi c else tabs.esc c

structure Call (σ : Type) where
  cmd : UInt8
  func : Handler σ
  narg : Nat
  argtab : Option (Nat → Int)

def csicall (tabs : Tabs σ) (esc : Esc) (str : List UInt8) : Option (Option (Call σ) × Esc × List UInt8) :=
  match csicmd tabs (peek str) with
  | some func => if str = [] then none else some (some ⟨peek str, func, esc.narg, some esc.argtab⟩, esc, str.tail)
  | none => some (none, esc, str)

def csisequence (tabs : Tabs σ) (esc : Esc) (str : List UInt8) : Option (Option (Call σ) × Esc × List UInt8) := do
  let start := if peek str = code '-' then { esc with sign := -1 } else esc
  let read ← csiloop (str.length + 1) start (skip '-' str)
  csicall tabs read.1 read.2

def escsequence (tabs : Tabs σ) (esc : Esc) (str : List UInt8) : Option (Option (Call σ) × Esc × List UInt8) :=
  if (peek str).toNat < 128 then
    match tabs.esc (peek str) with
    | some func => if str = [] then none else some (some ⟨peek str, func, 0, none⟩, esc, str.tail)
    | none => some (none, esc, str)
  else none

-- What follows an ESC, and the handler it calls if it calls any.
def sequence (tabs : Tabs σ) (esc : Esc) (str : List UInt8) : Option (Option (Call σ) × Esc × List UInt8) :=
  if peek str = code '[' then csisequence tabs esc str.tail
  else if peek str = code '(' ∨ peek str = code ')' ∨ peek str = code '#' then some (none, esc, str)
  else escsequence tabs esc str

def Call.run (call : Call σ) (vt : σ) : Option σ := call.func vt call.narg call.argtab

def vtloop (tabs : Tabs σ) : Nat → σ → Esc → List UInt8 → Option (σ × List UInt8)
  | 0, _, _, _ => none
  | fuel + 1, vt, esc, str =>
      if peek str = vtesc then
        do
          let found ← sequence tabs esc str.tail
          let vt ← found.1.elim (some vt) fun call => call.run vt
          vtloop tabs fuel vt found.2.1 found.2.2
      else some (vt, str)

-- The result holds what is stored in retstr.
def vtparseesc (tabs : Tabs σ) (vt : σ) (argtab : Nat → Int) (str : List UInt8) : Option (σ × List UInt8) :=
  vtloop tabs (str.length + 1) vt ⟨1, argtab, 1⟩ str

-- The calls that a string makes do not depend on the terminal.
def callloop (tabs : Tabs σ) : Nat → Esc → List UInt8 → Option (List (Call σ) × List UInt8)
  | 0, _, _ => none
  | fuel + 1, esc, str =>
      if peek str = vtesc then
        do
          let found ← sequence tabs esc str.tail
          let rest ← callloop tabs fuel found.2.1 found.2.2
          some (found.1.toList ++ rest.1, rest.2)
      else some ([], str)

def vtcalls (tabs : Tabs σ) (argtab : Nat → Int) (str : List UInt8) : Option (List (Call σ) × List UInt8) :=
  callloop tabs (str.length + 1) ⟨1, argtab, 1⟩ str

def runcalls (vt : σ) (calls : List (Call σ)) : Option σ := calls.foldlM (fun vt call => call.run vt) vt

theorem vtloop_calls (tabs : Tabs σ) (fuel : Nat) (vt : σ) (esc : Esc) (str : List UInt8) :
    vtloop tabs fuel vt esc str = (callloop tabs fuel esc str).bind fun calls => (runcalls vt calls.1).map fun vt => (vt, calls.2) := by
  induction fuel generalizing vt esc str with
  | zero => rfl
  | succ fuel ih =>
    unfold vtloop callloop
    by_cases start : peek str = vtesc
    · rw [if_pos start, if_pos start]
      cases sequence tabs esc str.tail with
      | none => rfl
      | some found =>
        simp only [Option.bind_eq_bind, Option.bind_some, Option.bind_assoc]
        rcases found with ⟨called, after, rest⟩
        cases called with
        | none =>
          simp only [Option.elim, Option.bind_some, ih, Option.toList, List.nil_append]
        | some call =>
          simp only [Option.elim, Option.toList, List.cons_append, List.nil_append, runcalls, List.foldlM_cons, Option.bind_eq_bind]
          cases call.run vt with
          | none => simp
          | some next =>
            simp only [Option.bind_some, ih, runcalls]
    · rw [if_neg start, if_neg start]
      rfl

theorem vtparseesc_calls (tabs : Tabs σ) (vt : σ) (argtab : Nat → Int) (str : List UInt8) :
    vtparseesc tabs vt argtab str = (vtcalls tabs argtab str).bind fun calls => (runcalls vt calls.1).map fun vt => (vt, calls.2) :=
  vtloop_calls tabs (str.length + 1) vt ⟨1, argtab, 1⟩ str

def Call.From (tabs : Tabs σ) (call : Call σ) : Prop :=
  (call.argtab.isSome ∧ csicmd tabs call.cmd = some call.func) ∨
    (call.argtab = none ∧ call.narg = 0 ∧ tabs.esc call.cmd = some call.func)

theorem csicall_from (tabs : Tabs σ) (esc : Esc) (str : List UInt8) (found : Option (Call σ) × Esc × List UInt8)
    (run : csicall tabs esc str = some found) : ∀ call ∈ found.1, call.From tabs := by
  unfold csicall at run
  split at run
  · rename_i func registered
    split at run
    · cases run
    · cases run
      rintro call ⟨⟩
      exact .inl ⟨rfl, registered⟩
  · cases run
    simp

theorem escsequence_from (tabs : Tabs σ) (esc : Esc) (str : List UInt8) (found : Option (Call σ) × Esc × List UInt8)
    (run : escsequence tabs esc str = some found) : ∀ call ∈ found.1, call.From tabs := by
  unfold escsequence at run
  split at run
  · split at run
    · rename_i func registered
      split at run
      · cases run
      · cases run
        rintro call ⟨⟩
        exact .inr ⟨rfl, rfl, registered⟩
    · cases run
      simp
  · cases run

theorem sequence_from (tabs : Tabs σ) (esc : Esc) (str : List UInt8) (found : Option (Call σ) × Esc × List UInt8)
    (run : sequence tabs esc str = some found) : ∀ call ∈ found.1, call.From tabs := by
  unfold sequence csisequence at run
  split at run
  · obtain ⟨read, -, called⟩ := Option.bind_eq_some_iff.mp run
    exact csicall_from tabs _ _ found called
  · split at run
    · cases run
      simp
    · exact escsequence_from tabs _ _ found run

theorem callloop_from (tabs : Tabs σ) (fuel : Nat) (esc : Esc) (str : List UInt8) (calls : List (Call σ) × List UInt8)
    (run : callloop tabs fuel esc str = some calls) : ∀ call ∈ calls.1, call.From tabs := by
  induction fuel generalizing esc str calls with
  | zero => cases run
  | succ fuel ih =>
    unfold callloop at run
    split at run
    · obtain ⟨found, step, run⟩ := Option.bind_eq_some_iff.mp run
      obtain ⟨rest, later, run⟩ := Option.bind_eq_some_iff.mp run
      cases run
      intro call inside
      rcases List.mem_append.mp inside with first | others
      · exact sequence_from tabs _ _ found step call (by simpa using first)
      · exact ih _ _ rest later call others
    · cases run
      simp

def value (num : Int) (digits : List UInt8) : Int := digits.foldl (fun num c => num * 10 + (c.toNat - 48 : Nat)) num

theorem value_le (num : Int) (digits : List UInt8) (nonneg : 0 ≤ num) : num ≤ value num digits := by
  induction digits generalizing num with
  | nil => exact Int.le_refl num
  | cons c digits ih =>
    have step := ih (num * 10 + (c.toNat - 48 : Nat)) (by omega)
    have same : value num (c :: digits) = value (num * 10 + (c.toNat - 48 : Nat)) digits := rfl
    omega

theorem vtgetescnum_digits (num : Int) (digits tail : List UInt8) (nonneg : 0 ≤ num) (fits : num < 2 ^ 63)
    (digit : ∀ c ∈ digits, isdigit c) (stop : isdigit (peek tail) = false) :
    vtgetescnum num (digits ++ tail) = if value num digits < 2 ^ 63 then some (value num digits, tail) else none := by
  induction digits generalizing num with
  | nil =>
    rw [List.nil_append, if_pos (show value num [] < 2 ^ 63 from fits)]
    cases tail with
    | nil => rfl
    | cons c tail => rw [vtgetescnum, if_neg (by simpa [peek] using stop)]; rfl
  | cons c digits ih =>
    have later : ∀ d ∈ digits, isdigit d := fun d inside => digit d (by simp [inside])
    have same : value num (c :: digits) = value (num * 10 + (c.toNat - 48 : Nat)) digits := rfl
    rw [List.cons_append, vtgetescnum, if_pos (digit c (by simp)), same]
    by_cases room : num * 10 + (c.toNat - 48 : Nat) < 2 ^ 63
    · rw [if_pos room, ih _ (by omega) room later]
    · have grown := value_le (num * 10 + (c.toNat - 48 : Nat)) digits (by omega)
      rw [if_neg room, if_neg (by omega)]

theorem stop_dropWhile (str : List UInt8) : isdigit (peek (str.dropWhile isdigit)) = false := by
  induction str with
  | nil => rfl
  | cons c str ih =>
    by_cases digit : isdigit c
    · rw [List.dropWhile_cons_of_pos digit]
      exact ih
    · rw [List.dropWhile_cons_of_neg digit]
      simpa [peek] using digit

theorem vtgetescnum_value (str : List UInt8) (small : value 0 (str.takeWhile isdigit) < 2 ^ 63) :
    vtgetescnum 0 str = some (value 0 (str.takeWhile isdigit), str.dropWhile isdigit) := by
  have read := vtgetescnum_digits 0 (str.takeWhile isdigit) (str.dropWhile isdigit) (Int.le_refl 0) (by decide)
    (fun c inside => List.mem_takeWhile_imp inside) (stop_dropWhile str)
  rw [List.takeWhile_append_dropWhile, if_pos small] at read
  exact read

-- What keeps a number in the string from fitting into a long, and what takes
-- vtparseesc out of its tables.
structure Readable (str : List UInt8) : Prop where
  small : ∀ digits, digits <:+: str → (∀ c ∈ digits, isdigit c) → value 0 digits < 2 ^ 63
  plain : ∀ c, [vtesc, c] <:+: str → c.toNat < 128

theorem value_lt (num : Int) (digits : List UInt8) (nonneg : 0 ≤ num) (digit : ∀ c ∈ digits, isdigit c) :
    value num digits < (num + 1) * 10 ^ digits.length := by
  induction digits generalizing num with
  | nil =>
    simp only [value, List.foldl_nil, List.length_nil]
    omega
  | cons c digits ih =>
    have own : c.toNat ≤ 57 := by
      have := digit c (by simp)
      simp only [isdigit, decide_eq_true_eq] at this
      exact this.2
    have step := ih (num * 10 + (c.toNat - 48 : Nat)) (by omega) (fun d inside => digit d (by simp [inside]))
    have same : value num (c :: digits) = value (num * 10 + (c.toNat - 48 : Nat)) digits := rfl
    have grow : (num * 10 + (c.toNat - 48 : Nat) + 1) * 10 ^ digits.length ≤ (num + 1) * 10 * 10 ^ digits.length :=
      Int.mul_le_mul_of_nonneg_right (by omega) (Int.le_of_lt (Int.pow_pos (by decide)))
    rw [same, List.length_cons, Int.pow_succ, Int.mul_comm (10 ^ digits.length) 10, ← Int.mul_assoc]
    omega

theorem readable_short (str : List UInt8) (short : str.length ≤ 18) (low : ∀ c ∈ str, c.toNat < 128) : Readable str := by
  constructor
  · intro digits inside digit
    have bound := value_lt 0 digits (Int.le_refl 0) digit
    have power : (10 : Int) ^ digits.length ≤ 10 ^ 18 := by
      exact_mod_cast Nat.pow_le_pow_right (by decide : 0 < 10) (Nat.le_trans inside.length_le short)
    omega
  · intro c inside
    exact low c (inside.subset (by simp))

theorem readable_suffix (str rest : List UInt8) (readable : Readable str) (suffix : rest <:+ str) : Readable rest :=
  ⟨fun digits inside => readable.small digits (inside.trans suffix.isInfix), fun c inside => readable.plain c (inside.trans suffix.isInfix)⟩

theorem skip_suffix (c : Char) (str : List UInt8) : skip c str <:+ str := by
  unfold skip
  split
  · exact List.tail_suffix str
  · exact List.suffix_refl str

theorem csiloop_defined (fuel : Nat) (esc : Esc) (str : List UInt8) (readable : Readable str) (enough : str.length < fuel) :
    ∃ read, csiloop fuel esc str = some read ∧ read.2 <:+ str := by
  induction fuel generalizing esc str with
  | zero => omega
  | succ fuel ih =>
    unfold csiloop
    by_cases digit : isdigit (peek str)
    · have small := readable.small (str.takeWhile isdigit) (List.takeWhile_prefix isdigit).isInfix (by
        intro c inside
        exact List.mem_takeWhile_imp inside)
      have suffix := (skip_suffix '-' _).trans ((skip_suffix ';' _).trans (List.dropWhile_suffix isdigit (l := str)))
      have shorter : (str.dropWhile isdigit).length < str.length := by
        cases str with
        | nil => simp [peek, isdigit] at digit
        | cons c str =>
          rw [List.dropWhile_cons_of_pos (show isdigit c from digit)]
          have := (List.dropWhile_suffix isdigit (l := str)).length_le
          simp only [List.length_cons]
          omega
      have less := ((skip_suffix '-' _).trans (skip_suffix ';' (str.dropWhile isdigit))).length_le
      rw [if_pos digit, vtgetescnum_value str small]
      simp only [Option.bind_eq_bind, Option.bind_some]
      obtain ⟨read, run, inside⟩ := ih _ _ (readable_suffix _ _ readable suffix) (by omega)
      exact ⟨read, run, inside.trans suffix⟩
    · exact ⟨(esc, str), by rw [if_neg digit], List.suffix_refl str⟩

theorem sequence_defined (tabs : Tabs σ) (noNul : tabs.csi 0 = none ∧ tabs.esc 0 = none) (esc : Esc) (str : List UInt8)
    (readable : Readable (vtesc :: str)) : ∃ found, sequence tabs esc str = some found ∧ found.2.2 <:+ str := by
  have own := readable_suffix _ str readable (List.suffix_cons vtesc str)
  unfold sequence
  split
  · have tail := List.tail_suffix str
    obtain ⟨read, run, inside⟩ := csiloop_defined (str.tail.length + 1) (if peek str.tail = code '-' then { esc with sign := -1 } else esc)
      (skip '-' str.tail) (readable_suffix _ _ own ((skip_suffix '-' _).trans tail)) (by
        have := (skip_suffix '-' str.tail).length_le
        omega)
    have suffix := inside.trans ((skip_suffix '-' _).trans tail)
    simp only [csisequence, run, Option.bind_eq_bind, Option.bind_some, csicall]
    split
    · rename_i func registered
      split
      · rename_i empty
        rw [empty] at registered
        simp [peek, csicmd, noNul.1] at registered
      · exact ⟨_, rfl, (List.tail_suffix read.2).trans suffix⟩
    · exact ⟨_, rfl, suffix⟩
  · split
    · exact ⟨_, rfl, List.suffix_refl str⟩
    · unfold escsequence
      cases str with
      | nil => simp [peek, noNul.2]
      | cons c str =>
        rw [if_pos (show (peek (c :: str)).toNat < 128 from readable.plain c ⟨[], str, rfl⟩)]
        split
        · exact ⟨_, rfl, List.suffix_cons c str⟩
        · exact ⟨_, rfl, List.suffix_refl _⟩

theorem callloop_defined (tabs : Tabs σ) (noNul : tabs.csi 0 = none ∧ tabs.esc 0 = none) (fuel : Nat) (esc : Esc) (str : List UInt8)
    (readable : Readable str) (enough : str.length < fuel) : ∃ calls, callloop tabs fuel esc str = some calls := by
  induction fuel generalizing esc str with
  | zero => omega
  | succ fuel ih =>
    unfold callloop
    by_cases start : peek str = vtesc
    · cases str with
      | nil => simp [peek, vtesc] at start
      | cons c str =>
        obtain rfl : c = vtesc := start
        obtain ⟨found, run, suffix⟩ := sequence_defined tabs noNul esc str readable
        have less := suffix.length_le
        simp only [List.length_cons] at enough
        obtain ⟨rest, later⟩ := ih found.2.1 found.2.2 (readable_suffix _ _ readable (suffix.trans (List.suffix_cons vtesc str))) (by omega)
        rw [if_pos (show peek (vtesc :: str) = vtesc from rfl), List.tail_cons, run]
        simp only [Option.bind_eq_bind, Option.bind_some, later]
        exact ⟨_, rfl⟩
    · exact ⟨_, by rw [if_neg start]⟩

theorem vtcalls_defined (tabs : Tabs σ) (noNul : tabs.csi 0 = none ∧ tabs.esc 0 = none) (argtab : Nat → Int) (str : List UInt8)
    (readable : Readable str) : ∃ calls, vtcalls tabs argtab str = some calls :=
  callloop_defined tabs noNul (str.length + 1) ⟨1, argtab, 1⟩ str readable (Nat.lt_succ_self _)

end OsZero.Term

import OsZero.Term.Cursor
import Mathlib.Data.List.Forall2

set_option autoImplicit false

namespace OsZero.Term

-- A decimal number with an optional minus sign.
structure Param where
  minus : Bool
  digits : List UInt8
  some_digit : digits ≠ []
  digit : ∀ c ∈ digits, isdigit c

def Param.magnitude (param : Param) : Int := value 0 param.digits

def Param.sign (param : Param) : Int := if param.minus then -1 else 1

def Param.val (param : Param) : Int := param.sign * param.magnitude

def Param.text (param : Param) : List UInt8 := (if param.minus then [code '-'] else []) ++ param.digits

def paramtext : List Param → List UInt8
  | [] => []
  | [param] => param.text
  | param :: params => param.text ++ code ';' :: paramtext params

-- ESC [ p1 ; ... ; pn c
structure Sequence where
  params : List Param
  cmd : UInt8
  func : Handler Vt
  few : params.length < vtescnarg
  registered : (cmd, func) ∈ csitab

def Sequence.text (seq : Sequence) : List UInt8 := vtesc :: code '[' :: (paramtext seq.params ++ [seq.cmd])

def Sequence.vals (seq : Sequence) : List Int := seq.params.map Param.val

def alltext (seqs : List Sequence) : List UInt8 := seqs.flatMap Sequence.text

-- The call of a sequence's handler that its parameters ask for.
structure Serves (call : Call Vt) (seq : Sequence) : Prop where
  cmd : call.cmd = seq.cmd
  func : call.func = seq.func
  narg : call.narg = seq.params.length
  argtab : ∃ tab, call.argtab = some tab ∧ (List.range seq.params.length).map tab = seq.vals

def PassesParams (argtab : Nat → Int) (seqs : List Sequence) : Prop :=
  ∃ calls, vtcalls vtinitesc argtab (alltext seqs) = some (calls, []) ∧ List.Forall₂ Serves calls seqs

theorem csicmd_registered (seq : Sequence) : csicmd vtinitesc seq.cmd = some seq.func := by
  have registered := seq.registered
  simp only [csitab, List.mem_cons, Prod.mk.injEq, List.not_mem_nil, or_false] at registered
  rcases registered with ⟨cmd, func⟩ | ⟨cmd, func⟩ | ⟨cmd, func⟩ | ⟨cmd, func⟩ | ⟨cmd, func⟩ | ⟨cmd, func⟩ | ⟨cmd, func⟩ | ⟨cmd, func⟩ |
    ⟨cmd, func⟩ | ⟨cmd, func⟩ | ⟨cmd, func⟩ | ⟨cmd, func⟩ | ⟨cmd, func⟩ | ⟨cmd, func⟩ <;> rw [cmd, func] <;> rfl

theorem cmd_plain (seq : Sequence) : isdigit seq.cmd = false ∧ seq.cmd ≠ code '-' ∧ seq.cmd ≠ code ';' := by
  have key : seq.cmd ∈ csitab.map Prod.fst := List.mem_map_of_mem seq.registered
  revert key
  generalize seq.cmd = cmd
  intro key
  simp only [csitab, List.map_cons, List.map_nil, List.mem_cons, List.not_mem_nil, or_false] at key
  rcases key with rfl | rfl | rfl | rfl | rfl | rfl | rfl | rfl | rfl | rfl | rfl | rfl | rfl | rfl <;> decide

-- What is stored for a number with its sign.
def keepval (esc : Esc) (val : Int) : Esc :=
  if val ≠ 0 ∧ esc.narg < vtescnarg then { esc with argtab := Function.update esc.argtab esc.narg val, narg := esc.narg + 1 } else esc

theorem keep_param (esc : Esc) (param : Param) : keep param.magnitude { esc with sign := param.sign } =
    { keepval esc param.val with sign := param.sign } := by
  have nonzero : param.val ≠ 0 ↔ param.magnitude ≠ 0 := by
    unfold Param.val Param.sign
    split <;> omega
  unfold keep keepval
  simp only [nonzero]
  split <;> rfl

def more (params : List Param) : List UInt8 := if params = [] then [] else code ';' :: paramtext params

theorem paramtext_cons (param : Param) (params : List Param) : paramtext (param :: params) = param.text ++ more params := by
  cases params with
  | nil => simp [paramtext, more]
  | cons next params => simp [paramtext, more]

theorem more_length (params : List Param) : params.length ≤ (more params).length := by
  induction params with
  | nil => exact Nat.zero_le _
  | cons param params ih =>
    rw [show more (param :: params) = code ';' :: paramtext (param :: params) from rfl, paramtext_cons]
    simp only [List.length_cons, List.length_append]
    omega

theorem digit_not_minus (c : UInt8) (digit : isdigit c) : c ≠ code '-' := by
  rintro rfl
  revert digit
  decide

-- The sign of the first parameter has been read.
theorem skip_text (param : Param) (rest : List UInt8) : skip '-' (param.text ++ rest) = param.digits ++ rest ∧
    (if peek (param.text ++ rest) = code '-' then (-1 : Int) else 1) = param.sign := by
  unfold Param.text Param.sign skip
  cases param.minus with
  | true => simp [peek]
  | false =>
    cases shape : param.digits with
    | nil => exact absurd shape param.some_digit
    | cons c digits =>
      have digit := param.digit c (by simp [shape])
      simp [peek, digit_not_minus c digit]

def Small (param : Param) : Prop := param.magnitude < 2 ^ 63

instance (param : Param) : Decidable (Small param) := inferInstanceAs (Decidable (_ < _))

theorem peek_digits (param : Param) (rest : List UInt8) : isdigit (peek (param.digits ++ rest)) = true := by
  cases shape : param.digits with
  | nil => exact absurd shape param.some_digit
  | cons c digits => exact param.digit c (by simp [shape])

theorem read_param (param : Param) (tail : List UInt8) (stop : isdigit (peek tail) = false) :
    vtgetescnum 0 (param.digits ++ tail) = if Small param then some (param.magnitude, tail) else none :=
  vtgetescnum_digits 0 param.digits tail (Int.le_refl 0) (by decide) param.digit stop

theorem csiloop_param (param : Param) (esc : Esc) (fuel : Nat) (tail : List UInt8) (stop : isdigit (peek tail) = false) :
    csiloop (fuel + 1) { esc with sign := param.sign } (param.digits ++ tail) =
      if Small param then
        csiloop fuel { keepval esc param.val with sign := if peek (skip ';' tail) = code '-' then -1 else 1 } (skip '-' (skip ';' tail))
      else none := by
  rw [csiloop, if_pos (peek_digits param tail), read_param param tail stop]
  by_cases small : Small param
  · simp only [small, if_true, Option.bind_eq_bind, Option.bind_some, keep_param]
  · simp only [small, if_false, Option.bind_eq_bind, Option.bind_none]

def stored (esc : Esc) (params : List Param) : Esc := params.foldl (fun esc param => keepval esc param.val) esc

theorem csiloop_params (seq : Sequence) (rest : List UInt8) (params : List Param) (param : Param) (esc : Esc) (fuel : Nat)
    (enough : params.length + 2 ≤ fuel) :
    csiloop fuel { esc with sign := param.sign } (param.digits ++ (more params ++ seq.cmd :: rest)) =
      if ∀ p ∈ param :: params, Small p then some ({ stored esc (param :: params) with sign := 1 }, seq.cmd :: rest) else none := by
  obtain ⟨notDigit, notMinus, notSemi⟩ := cmd_plain seq
  obtain ⟨fuel, rfl⟩ : ∃ less, fuel = less + 1 := ⟨fuel - 1, by omega⟩
  induction params generalizing param esc fuel with
  | nil =>
    obtain ⟨fuel, rfl⟩ : ∃ less, fuel = less + 1 := ⟨fuel - 1, by simp only [List.length_nil] at enough; omega⟩
    have still : ∀ c, seq.cmd ≠ code c → skip c (seq.cmd :: rest) = seq.cmd :: rest := fun c other => if_neg other
    rw [show more [] = [] from rfl, List.nil_append, csiloop_param param esc (fuel + 1) (seq.cmd :: rest) notDigit, still ';' notSemi, still '-' notMinus,
      if_neg (show ¬peek (seq.cmd :: rest) = code '-' from notMinus), csiloop,
      if_neg (show ¬isdigit (peek (seq.cmd :: rest)) = true by simpa [peek] using notDigit)]
    simp only [List.mem_singleton, forall_eq]
    rfl
  | cons next params ih =>
    obtain ⟨fuel, rfl⟩ : ∃ less, fuel = less + 1 := ⟨fuel - 1, by simp only [List.length_cons] at enough; omega⟩
    simp only [List.length_cons] at enough
    have tail : more (next :: params) ++ seq.cmd :: rest = code ';' :: (next.text ++ (more params ++ seq.cmd :: rest)) := by
      rw [more, if_neg (by simp), paramtext_cons, List.cons_append, List.append_assoc]
    obtain ⟨digits, sign⟩ := skip_text next (more params ++ seq.cmd :: rest)
    have semi : skip ';' (code ';' :: (next.text ++ (more params ++ seq.cmd :: rest))) = next.text ++ (more params ++ seq.cmd :: rest) := rfl
    rw [tail, csiloop_param param esc (fuel + 1) (code ';' :: _) rfl, semi, digits, sign,
      ih next (keepval esc param.val) fuel (by omega)]
    by_cases small : Small param
    · simp only [small, if_true, List.mem_cons, forall_eq_or_imp, true_and]
      rfl
    · simp only [small, if_false, List.mem_cons, forall_eq_or_imp, false_and]

def served (esc : Esc) : List Sequence → List (Call Vt)
  | [] => []
  | seq :: seqs =>
      let esc := { stored esc seq.params with sign := 1 }
      ⟨seq.cmd, seq.func, esc.narg, some esc.argtab⟩ :: served esc seqs

theorem sequence_params (seq : Sequence) (rest : List UInt8) (esc : Esc) (sign : esc.sign = 1) :
    sequence vtinitesc esc (code '[' :: (paramtext seq.params ++ seq.cmd :: rest)) =
      if ∀ p ∈ seq.params, Small p then
        some (some ⟨seq.cmd, seq.func, (stored esc seq.params).narg, some (stored esc seq.params).argtab⟩,
          { stored esc seq.params with sign := 1 }, rest)
      else none := by
  obtain ⟨notDigit, notMinus, -⟩ := cmd_plain seq
  have called : ∀ esc, csicall vtinitesc esc (seq.cmd :: rest) = some (some ⟨seq.cmd, seq.func, esc.narg, some esc.argtab⟩, esc, rest) := by
    intro esc
    rw [csicall, show peek (seq.cmd :: rest) = seq.cmd from rfl, csicmd_registered seq]
    rfl
  rw [sequence, if_pos (show peek (code '[' :: _) = code '[' from rfl), List.tail_cons, csisequence]
  cases shape : seq.params with
  | nil =>
    rw [show paramtext [] = [] from rfl, List.nil_append, if_neg (show ¬peek (seq.cmd :: rest) = code '-' from notMinus),
      skip, if_neg (show ¬peek (seq.cmd :: rest) = code '-' from notMinus), csiloop,
      if_neg (show ¬isdigit (peek (seq.cmd :: rest)) = true by simpa [peek] using notDigit)]
    simp only [Option.bind_eq_bind, Option.bind_some, called, List.not_mem_nil, false_imp_iff, implies_true, if_true, stored, List.foldl_nil,
      ← sign]
  | cons param params =>
    have start : (if peek (param.text ++ (more params ++ seq.cmd :: rest)) = code '-' then { esc with sign := -1 } else esc) =
        { esc with sign := param.sign } := by
      rw [← (skip_text param (more params ++ seq.cmd :: rest)).2]
      split
      · rfl
      · rw [← sign]
    have enough : params.length + 2 ≤ (param.text ++ (more params ++ seq.cmd :: rest)).length + 1 := by
      have size := more_length params
      simp only [List.length_append, List.length_cons]
      omega
    rw [paramtext_cons, List.append_assoc, start, (skip_text param _).1, csiloop_params seq rest params param esc _ enough]
    by_cases small : ∀ p ∈ param :: params, Small p
    · rw [if_pos small, if_pos small]
      simp only [Option.bind_eq_bind, Option.bind_some, called]
    · rw [if_neg small, if_neg small]
      rfl

theorem callloop_text (seqs : List Sequence) (esc : Esc) (sign : esc.sign = 1) (fuel : Nat) (enough : seqs.length < fuel) :
    callloop vtinitesc fuel esc (alltext seqs) =
      if ∀ seq ∈ seqs, ∀ p ∈ seq.params, Small p then some (served esc seqs, []) else none := by
  induction seqs generalizing esc fuel with
  | nil =>
    obtain ⟨fuel, rfl⟩ : ∃ less, fuel = less + 1 := ⟨fuel - 1, by omega⟩
    simp [callloop, alltext, peek, vtesc, served]
  | cons seq seqs ih =>
    obtain ⟨fuel, rfl⟩ : ∃ less, fuel = less + 1 := ⟨fuel - 1, by omega⟩
    simp only [List.length_cons] at enough
    have text : alltext (seq :: seqs) = vtesc :: (code '[' :: (paramtext seq.params ++ seq.cmd :: alltext seqs)) := by
      simp [alltext, Sequence.text]
    rw [text, callloop, if_pos (show peek (vtesc :: _) = vtesc from rfl), List.tail_cons, sequence_params seq (alltext seqs) esc sign]
    by_cases small : ∀ p ∈ seq.params, Small p
    · rw [if_pos small]
      simp only [Option.bind_eq_bind, Option.bind_some]
      rw [ih { stored esc seq.params with sign := 1 } rfl fuel (by omega)]
      by_cases rest : ∀ seq ∈ seqs, ∀ p ∈ seq.params, Small p
      · rw [if_pos rest, if_pos (by simpa using ⟨small, rest⟩)]
        rfl
      · rw [if_neg rest, if_neg (by
          intro all
          exact rest fun other inside => all other (by simp [inside]))]
        rfl
    · rw [if_neg small, if_neg (by
        intro all
        exact small (all seq (by simp)))]
      rfl

theorem alltext_length (seqs : List Sequence) : seqs.length ≤ (alltext seqs).length := by
  induction seqs with
  | nil => exact Nat.zero_le _
  | cons seq seqs ih =>
    have text : alltext (seq :: seqs) = seq.text ++ alltext seqs := rfl
    rw [text]
    simp only [List.length_cons, List.length_append, Sequence.text]
    omega

theorem vtcalls_text (argtab : Nat → Int) (seqs : List Sequence) :
    vtcalls vtinitesc argtab (alltext seqs) =
      if ∀ seq ∈ seqs, ∀ p ∈ seq.params, Small p then some (served ⟨1, argtab, 1⟩ seqs, []) else none :=
  callloop_text seqs ⟨1, argtab, 1⟩ rfl _ (Nat.lt_succ_of_le (alltext_length seqs))

-- argtab as far as it counts.
def contents (esc : Esc) : List Int := (List.range esc.narg).map esc.argtab

def nonzeros (vals : List Int) : List Int := vals.filter (· ≠ 0)

theorem contents_keepval (esc : Esc) (val : Int) :
    contents (keepval esc val) = if val ≠ 0 ∧ esc.narg < vtescnarg then contents esc ++ [val] else contents esc := by
  unfold keepval
  split
  · rename_i kept
    unfold contents
    rw [List.range_succ, List.map_append, List.map_singleton]
    change _ ++ [Function.update esc.argtab esc.narg val esc.narg] = _
    rw [Function.update_self]
    congr 1
    apply List.map_congr_left
    intro ndx inside
    exact Function.update_of_ne (Nat.ne_of_lt (List.mem_range.mp inside)) val esc.argtab
  · rfl

theorem contents_length (esc : Esc) : (contents esc).length = esc.narg := by simp [contents]

theorem stored_contents (params : List Param) (esc : Esc) (fits : esc.narg ≤ vtescnarg) :
    contents (stored esc params) = (contents esc ++ nonzeros (params.map Param.val)).take vtescnarg ∧ (stored esc params).narg ≤ vtescnarg := by
  induction params generalizing esc with
  | nil =>
    have size := contents_length esc
    refine ⟨?_, fits⟩
    rw [List.map_nil, show nonzeros [] = [] from rfl, List.append_nil, List.take_of_length_le (by omega)]
    rfl
  | cons param params ih =>
    have size := contents_length esc
    have step := contents_keepval esc param.val
    have again : stored esc (param :: params) = stored (keepval esc param.val) params := rfl
    have bound : (keepval esc param.val).narg ≤ vtescnarg := by
      unfold keepval
      split
      · rename_i kept
        exact kept.2
      · exact fits
    obtain ⟨rest, final⟩ := ih (keepval esc param.val) bound
    rw [again]
    refine ⟨?_, final⟩
    rw [rest, step, List.map_cons]
    by_cases zero : param.val = 0
    · rw [if_neg (by simp [zero]), show nonzeros (param.val :: params.map Param.val) = nonzeros (params.map Param.val) by simp [nonzeros, zero]]
    · have all : nonzeros (param.val :: params.map Param.val) = param.val :: nonzeros (params.map Param.val) := by simp [nonzeros, zero]
      rw [all]
      by_cases room : esc.narg < vtescnarg
      · rw [if_pos ⟨zero, room⟩, List.append_assoc]
        rfl
      · rw [if_neg (by simp [room]), List.take_append_of_le_length (by omega), List.take_append_of_le_length (by omega)]

-- Each sequence finds its own values, after those that came before.
def Matches : List Int → List Sequence → Prop
  | _, [] => True
  | before, seq :: seqs => (before ++ nonzeros seq.vals).take vtescnarg = seq.vals ∧ Matches ((before ++ nonzeros seq.vals).take vtescnarg) seqs

theorem served_matches (seqs : List Sequence) (esc : Esc) (fits : esc.narg ≤ vtescnarg) :
    List.Forall₂ Serves (served esc seqs) seqs ↔ Matches (contents esc) seqs := by
  induction seqs generalizing esc with
  | nil => exact iff_of_true .nil trivial
  | cons seq seqs ih =>
    obtain ⟨inside, bound⟩ := stored_contents seq.params esc fits
    have rest := ih { stored esc seq.params with sign := 1 } bound
    have same : contents { stored esc seq.params with sign := 1 } = (contents esc ++ nonzeros seq.vals).take vtescnarg := inside
    rw [served, List.forall₂_cons, rest, Matches, same]
    apply and_congr_left
    intro _
    rw [← same]
    have count : seq.vals.length = seq.params.length := List.length_map _
    constructor
    · rintro ⟨-, -, narg, tab, given, vals⟩
      cases given
      rw [← vals, ← narg]
      rfl
    · intro vals
      have narg : (stored esc seq.params).narg = seq.params.length := by
        have size : (contents (stored esc seq.params)).length = seq.vals.length := congrArg List.length vals
        rw [← contents_length, size, count]
      refine ⟨rfl, rfl, narg, (stored esc seq.params).argtab, rfl, ?_⟩
      rw [← narg]
      exact vals

-- The one value of argtab that is not the code's own, and what the sequences
-- may carry for it to stand where the first parameter should.
def Lucky (first : Int) (seqs : List Sequence) : Prop :=
  seqs = [] ∨ (first = 0 ∧ ∃ front last, seqs = front ++ [last] ∧ (∀ seq ∈ front, seq.vals = [0]) ∧
    ∃ vals, last.vals = 0 :: vals ∧ ∀ val ∈ vals, val ≠ 0)

-- A list that is its own nonzero part behind something is that part behind a zero.
theorem shifted (before vals : List Int) (few : vals.length < vtescnarg)
    (same : (before ++ nonzeros vals).take vtescnarg = vals) : before ++ nonzeros vals = vals := by
  rcases Nat.lt_or_ge (before ++ nonzeros vals).length vtescnarg with short | long
  · rw [List.take_of_length_le (Nat.le_of_lt short)] at same
    exact same
  · have size := congrArg List.length same
    rw [List.length_take] at size
    omega

theorem zero_head (first : Int) (vals : List Int) : first :: nonzeros vals = vals ↔ first = 0 ∧ ∃ rest, vals = 0 :: rest ∧ ∀ val ∈ rest, val ≠ 0 := by
  constructor
  · intro same
    have zero : first = 0 := by
      by_contra nonzero
      have all : nonzeros vals = vals := by
        rw [nonzeros, List.filter_eq_self]
        intro val inside
        rw [← same] at inside
        rcases List.mem_cons.mp inside with rfl | kept
        · simpa using nonzero
        · exact (List.mem_filter.mp kept).2
      have size := congrArg List.length same
      rw [all, List.length_cons] at size
      omega
    subst zero
    refine ⟨rfl, nonzeros vals, same.symm, ?_⟩
    intro val inside
    simpa using (List.mem_filter.mp inside).2
  · rintro ⟨rfl, rest, rfl, nonzero⟩
    have all : nonzeros rest = rest := List.filter_eq_self.mpr (by simpa using nonzero)
    rw [show nonzeros (0 :: rest) = nonzeros rest by simp [nonzeros], all]

theorem vals_few (seq : Sequence) : seq.vals.length < vtescnarg := by
  rw [Sequence.vals, List.length_map]
  exact seq.few

theorem matches_lucky (seqs : List Sequence) (first : Int) : Matches [first] seqs ↔ Lucky first seqs := by
  induction seqs generalizing first with
  | nil => exact iff_of_true trivial (.inl rfl)
  | cons seq seqs ih =>
    constructor
    · rintro ⟨own, rest⟩
      have whole := shifted [first] seq.vals (vals_few seq) own
      obtain ⟨rfl, vals, shape, nonzero⟩ := (zero_head first seq.vals).mp whole
      rw [own] at rest
      right
      refine ⟨rfl, ?_⟩
      cases seqs with
      | nil => exact ⟨[], seq, rfl, by simp, vals, shape, nonzero⟩
      | cons next seqs =>
        have again := shifted seq.vals next.vals (vals_few next) rest.1
        have none : vals = [] := by
          have kept := congrArg nonzeros again
          have twice : nonzeros (nonzeros next.vals) = nonzeros next.vals := by simp [nonzeros]
          have split : nonzeros (seq.vals ++ nonzeros next.vals) = nonzeros seq.vals ++ nonzeros next.vals := by
            rw [nonzeros, List.filter_append]
            exact congrArg _ twice
          rw [split] at kept
          have size := congrArg List.length kept
          have own : nonzeros seq.vals = vals := by
            rw [shape, show nonzeros (0 :: vals) = nonzeros vals by simp [nonzeros]]
            exact List.filter_eq_self.mpr (by simpa using nonzero)
          rw [own, List.length_append] at size
          exact List.length_eq_zero_iff.mp (by omega)
        rw [none] at shape
        rw [shape] at rest
        rcases (ih 0).mp rest with empty | ⟨-, front, last, places, only, final⟩
        · cases empty
        · refine ⟨seq :: front, last, by rw [places, List.cons_append], ?_, final⟩
          intro other inside
          rcases List.mem_cons.mp inside with rfl | later
          · exact shape
          · exact only other later
    · rintro (empty | ⟨rfl, front, last, places, only, vals, shape, nonzero⟩)
      · cases empty
      · cases front with
        | nil =>
          obtain ⟨rfl, rfl⟩ := List.cons.inj places
          refine ⟨?_, trivial⟩
          rw [show [0] ++ nonzeros seq.vals = seq.vals from (zero_head 0 seq.vals).mpr ⟨rfl, vals, shape, nonzero⟩]
          exact List.take_of_length_le (Nat.le_of_lt (vals_few seq))
        | cons other front =>
          obtain ⟨rfl, rest⟩ := List.cons.inj places
          have own : (([0] : List Int) ++ nonzeros seq.vals).take vtescnarg = [0] := by
            rw [only seq (by simp)]
            rfl
          refine ⟨own.trans (only seq (by simp)).symm, ?_⟩
          rw [own]
          exact (ih 0).mpr (.inr ⟨rfl, front, last, rest, fun other inside => only other (by simp [inside]), vals, shape, nonzero⟩)

theorem vtparseesc_params (argtab : Nat → Int) (seqs : List Sequence) :
    PassesParams argtab seqs ↔ Lucky (argtab 0) seqs ∧ ∀ seq ∈ seqs, ∀ param ∈ seq.params, Small param := by
  have start := served_matches seqs ⟨1, argtab, 1⟩ (show 1 ≤ vtescnarg by decide)
  rw [show contents ⟨1, argtab, 1⟩ = [argtab 0] from rfl, matches_lucky] at start
  rw [← start, PassesParams, vtcalls_text]
  constructor
  · rintro ⟨calls, parsed, serves⟩
    split at parsed
    · rename_i small
      cases parsed
      exact ⟨serves, small⟩
    · cases parsed
  · rintro ⟨serves, small⟩
    exact ⟨_, by rw [if_pos small], serves⟩

def five : Param := ⟨false, [code '5'], List.cons_ne_nil _ _, by decide +kernel⟩

def moveUp : Sequence := ⟨[five], code 'A', vtgoup, by decide, by simp [csitab]⟩

theorem vtparseesc_params_fail : ¬∀ argtab seqs, PassesParams argtab seqs := by
  intro every
  obtain ⟨calls, parsed, serves⟩ := every (fun _ => 0) [moveUp]
  have run : vtcalls vtinitesc (fun _ => 0) (alltext [moveUp]) = some ([⟨code 'A', vtgoup, 2, some (Function.update (fun _ => 0) 1 5)⟩], []) := rfl
  rw [run] at parsed
  cases parsed
  have narg := (List.forall₂_cons.mp serves).1.narg
  revert narg
  decide

end OsZero.Term

import OsZero.Zcc.Lex
import Mathlib.Tactic.SplitIfs

set_option autoImplicit false

namespace OsZero.Zcc

open Cstring

variable {α β : Type}

-- What a call returns satisfies Post; where it exits str has stayed in front of lim.
def Keeps (lim : Nat) (Post : α → Prop) : Except Stop α → Prop
  | .ok found => Post found
  | .error (.exited str) => str.high ≤ lim
  | .error .undefined => False

theorem keeps_mono (lim : Nat) (Post Weak : α → Prop) (weaken : ∀ found, Post found → Weak found) (call : Except Stop α)
    (keeps : Keeps lim Post call) : Keeps lim Weak call := by
  rcases call with stop | found
  · rcases stop with str | _ <;> exact keeps
  · exact weaken found keeps

theorem keeps_bind (lim : Nat) (Mid : α → Prop) (Post : β → Prop) (call : Except Stop α) (next : α → Except Stop β)
    (first : Keeps lim Mid call) (then_keeps : ∀ found, Mid found → Keeps lim Post (next found)) : Keeps lim Post (call >>= next) := by
  rcases call with stop | found
  · rcases stop with str | _ <;> exact first
  · exact then_keeps found first

theorem keeps_map (lim : Nat) (Mid : α → Prop) (Post : β → Prop) (call : Except Stop α) (f : α → β) (first : Keeps lim Mid call)
    (then_post : ∀ found, Mid found → Post (f found)) : Keeps lim Post (call.map f) := by
  rcases call with stop | found
  · rcases stop with str | _ <;> exact first
  · exact then_post found first

-- A loaded line ends with the NUL at lim.
structure Ended (linebuf : Nat → UInt8) (lim : Nat) : Prop where
  nul : linebuf lim = 0
  room : lim < nlinebuf

structure Within (low lim : Nat) (str : Cur) : Prop where
  low : low ≤ str.pos
  pos : str.pos ≤ lim
  high : str.high ≤ lim

theorem within_to (low lim pos : Nat) (str : Cur) (high : str.high ≤ lim) (lower : low ≤ pos) (upper : pos ≤ lim) :
    Within low lim (str.to pos) := ⟨lower, upper, Nat.max_le.mpr ⟨high, upper⟩⟩

theorem within_step (low lim n : Nat) (str : Cur) (within : Within low lim str) (upper : str.pos + n ≤ lim) : Within low lim (str.add n) :=
  within_to low lim (str.pos + n) str within.high (Nat.le_trans within.low (Nat.le_add_right _ n)) upper

theorem within_weaken (low less lim : Nat) (str : Cur) (lower : less ≤ low) (within : Within low lim str) : Within less lim str :=
  ⟨Nat.le_trans lower within.low, within.pos, within.high⟩

-- Where a run of bytes ends.
def runend (p : UInt8 → Bool) (linebuf : Nat → UInt8) (str : Nat) : Nat := (scan p linebuf (nlinebuf - str) str).getD str

theorem runend_scan (p : UInt8 → Bool) (linebuf : Nat → UInt8) (str pos : Nat) (found : scan p linebuf (nlinebuf - str) str = some pos) :
    runend p linebuf str = pos := by rw [runend, found, Option.getD_some]

-- What follows a # and its spaces: something, and behind a directive other than
-- define as much again as its name.
def Sharp (linebuf : Nat → UInt8) (lim str : Nat) : Prop :=
  ∀ parm ∈ zccpreprocid linebuf str, if parm = 0 then str < lim else parm = zppDefineDir ∨ str + 2 * parmlentab parm ≤ lim

instance (linebuf : Nat → UInt8) (lim str : Nat) : Decidable (Sharp linebuf lim str) :=
  inferInstanceAs (Decidable (∀ parm ∈ zccpreprocid linebuf str, _))

-- A word that is taken for the type short has as many bytes behind it as the
-- longer name that its length was copied from.
def Short (linebuf : Nat → UInt8) (lim str : Nat) : Prop :=
  starts linebuf str (text "short") = true → linebuf (runend isident linebuf str) = code ':' ∨
    linebuf (runend isspace linebuf (runend isident linebuf str)) = code '(' ∨ str + 14 ≤ lim

instance (linebuf : Nat → UInt8) (lim str : Nat) : Decidable (Short linebuf lim str) := inferInstanceAs (Decidable (_ → _))

-- What zccgettoken makes a token of, and where it stays within the line.
def Supported (linebuf : Nat → UInt8) (lim str : Nat) : Prop :=
  (linebuf str).toNat < 128 ∧
    (toktab (linebuf str) ≠ .none ∨ linebuf str = code '*' ∨ zccisoper (linebuf str) ∨ linebuf str = code '#' ∨
      isfirst (linebuf str) ∨ isxdigit (linebuf str)) ∧
    (zccisoper (linebuf str) = true → (linebuf (runend zccisoper linebuf str)).toNat < 128) ∧
    (linebuf str = code '#' → Sharp linebuf lim (runend isspace linebuf (str + 1))) ∧ Short linebuf lim str

instance (linebuf : Nat → UInt8) (lim str : Nat) : Decidable (Supported linebuf lim str) := inferInstanceAs (Decidable (_ ∧ _))

theorem isdigit_of_xdigit (c : UInt8) (digit : isxdigit c = true) (other : isfirst c = false) : isdigit c = true := by
  unfold isfirst isalpha at other
  unfold isxdigit at digit
  simp only [Bool.or_eq_false_iff, Bool.or_eq_true, decide_eq_false_iff_not, decide_eq_true_eq] at other digit
  obtain digit | letter := digit
  · exact digit
  · exact absurd letter (by omega)

-- What a function comes to once it is known where it stops skipping.
theorem opers_skipped (linebuf : Nat → UInt8) (str last : Cur) (skipped : skip zccisoper linebuf str = .ok last) :
    opers linebuf str = if 128 ≤ (linebuf last.pos).toNat then .error .undefined else .ok last := by
  rw [opers, skipped]
  rfl

theorem sharp_skipped (linebuf : Nat → UInt8) (str last : Cur) (parm : Nat) (skipped : skip isspace linebuf (str.add 1) = .ok last)
    (found : zccpreprocid linebuf last.pos = some parm) :
    sharp linebuf str =
      if parm = zppDefineDir then .ok ⟨⟨.macroToken, parm⟩, last.add (parmlentab parm), linebuf⟩
      else if parm ≠ 0 then .ok ⟨⟨.preprocToken, parm⟩, (last.add (parmlentab parm)).add (parmlentab parm), linebuf⟩
      else if linebuf last.pos = code '#' then .ok ⟨⟨.stringifyToken, 0⟩, last.add 1, linebuf⟩
      else .ok ⟨⟨.concatToken, 0⟩, last.add 1, linebuf⟩ := by
  have same : defined (zccpreprocid linebuf last.pos) = .ok parm := by
    rw [found]
    rfl
  rw [sharp, skipped]
  show (defined (zccpreprocid linebuf last.pos) >>= _) = _
  rw [same]
  rfl

theorem name_skipped (linebuf : Nat → UInt8) (ptr : Nat) (str last : Cur) (skipped : skip isspace linebuf str = .ok last) :
    name linebuf ptr str =
      if linebuf last.pos = code '(' then .ok ⟨⟨.funcToken, 0⟩, last, linebuf⟩
      else
        .ok ((zppgettype linebuf ptr).elim ⟨⟨.varToken, 0⟩, last, linebuf⟩ fun type => ⟨⟨.typeToken, type.1⟩, last.to (ptr + type.2), linebuf⟩) := by
  rw [name, skipped]
  rfl

theorem word_skipped (linebuf : Nat → UInt8) (str last : Cur) (skipped : skip isident linebuf str = .ok last) :
    word linebuf str =
      if linebuf last.pos = code ':' then .ok ⟨⟨.labelToken, 0⟩, last.add 1, Function.update linebuf last.pos 0⟩
      else name linebuf str.pos last := by
  rw [word, skipped]
  rfl

theorem gettoken_found (linebuf : Nat → UInt8) (str : Cur) (parm : Nat) (found : zccqualid linebuf str.pos = some parm) :
    gettoken linebuf str =
      if parm ≠ 0 then .ok (some ⟨⟨.qualToken, parm⟩, str.add (parmlentab parm), linebuf⟩)
      else if starts linebuf str.pos (text "struct") then .ok (some ⟨⟨.structToken, 0⟩, str.add 6, linebuf⟩)
      else if starts linebuf str.pos (text "union") then .ok (some ⟨⟨.unionToken, 0⟩, str.add 5, linebuf⟩)
      else if isfirst (linebuf str.pos) then (word linebuf str).map some
      else if isxdigit (linebuf str.pos) then (value linebuf str).map some
      else .ok none := by
  rw [gettoken, found]
  rfl

theorem zpptoken_table (linebuf : Nat → UInt8) (str : Cur) (ascii : (linebuf str.pos).toNat < 128) (entry : toktab (linebuf str.pos) ≠ .none) :
    zpptoken linebuf str = .ok (some ⟨⟨toktab (linebuf str.pos), 0⟩, str.add 1, linebuf⟩) := by
  unfold zpptoken
  simp only
  rw [if_neg (Nat.not_le.mpr ascii), if_pos entry]

-- The tests for a quote, a comma and an arrow come behind one that takes them.
theorem zpptoken_live (linebuf : Nat → UInt8) (str : Cur) (ascii : (linebuf str.pos).toNat < 128) (other : ¬toktab (linebuf str.pos) ≠ .none) :
    zpptoken linebuf str =
      if linebuf str.pos = code '*' then .ok (some ⟨⟨.asteriskToken, 0⟩, str.add 1, linebuf⟩)
      else if zccisoper (linebuf str.pos) then (opers linebuf str).map fun str => some ⟨⟨.operToken, 0⟩, str, linebuf⟩
      else if linebuf str.pos = code '#' then (sharp linebuf str).map some
      else if linebuf str.pos = code 'L' ∧ linebuf (str.pos + 1) = squote then
        (literal linebuf (str.add 2)).map fun str => some ⟨⟨.literalToken, zccWchar⟩, str, linebuf⟩
      else if starts linebuf str.pos (text "typedef") then .ok (some ⟨⟨.typedefToken, 0⟩, str.add 7, linebuf⟩)
      else if starts linebuf str.pos (text "__attribute__") then
        (skip isspace linebuf (str.add 13)).map fun str => some ⟨⟨.atrToken, 0⟩, str, linebuf⟩
      else gettoken linebuf str := by
  have never : ∀ c, toktab c ≠ .none → linebuf str.pos ≠ c := fun c entry same => other (same ▸ entry)
  unfold zpptoken
  simp only
  rw [if_neg (Nat.not_le.mpr ascii), if_neg other, if_neg (never dquote (by decide)), if_neg (never (code ',') (by decide)),
    if_neg (never squote (by decide))]
  by_cases oper : zccisoper (linebuf str.pos) = true
  · rw [if_pos oper, if_pos oper]
  · rw [if_neg fun arrow : linebuf str.pos = code '-' ∧ linebuf (str.pos + 1) = code '>' => oper (arrow.1 ▸ by decide)]
    rfl

theorem typenames_lengths : ∀ entry ∈ typenames, 0 < entry.2.2 ∧ 0 ∉ text entry.1 ∧
    ((text entry.1).length = entry.2.2 ∨ entry.1 = "short" ∧ entry.2.2 = 14) := by decide +kernel

section
variable (linebuf : Nat → UInt8) (lim : Nat) (line : Ended linebuf lim)
include line

theorem before_nul (pos : Nat) (before : pos ≤ lim) (some_byte : linebuf pos ≠ 0) : pos < lim := by
  refine Nat.lt_of_le_of_ne before ?_
  rintro rfl
  exact some_byte line.nul

theorem within_add (low : Nat) (str : Cur) (within : Within low lim str) (some_byte : linebuf str.pos ≠ 0) :
    Within (low + 1) lim (str.add 1) :=
  within_to (low + 1) lim (str.pos + 1) str within.high (Nat.succ_le_succ within.low) (before_nul linebuf lim line str.pos within.pos some_byte)

theorem within_next (low : Nat) (str : Cur) (within : Within low lim str) (some_byte : linebuf str.pos ≠ 0) : Within low lim (str.add 1) :=
  within_weaken (low + 1) low lim _ (Nat.le_succ low) (within_add linebuf lim line low str within some_byte)

theorem skip_some (p : UInt8 → Bool) (stop : p 0 = false) (low : Nat) (str : Cur) (within : Within low lim str) :
    ∃ pos, skip p linebuf str = .ok (str.to pos) ∧ scan p linebuf (nlinebuf - str.pos) str.pos = some pos ∧
      Within low lim (str.to pos) ∧ p (linebuf pos) = false ∧ (p (linebuf str.pos) = true → Within (low + 1) lim (str.to pos)) := by
  have room := line.room
  have upper := within.pos
  obtain ⟨pos, found, lower, high, stopped, -⟩ := scan_stops p linebuf (nlinebuf - str.pos) str.pos lim
    (by rw [line.nul, stop]) upper (by omega)
  have low := within.low
  refine ⟨pos, by rw [skip, found]; rfl, found, within_to _ lim pos str within.high (by omega) high, stopped, fun first => ?_⟩
  have moved := scan_moves p linebuf _ str.pos pos first found
  exact within_to _ lim pos str within.high (by omega) high

theorem skip_keeps (p : UInt8 → Bool) (stop : p 0 = false) (low : Nat) (str : Cur) (within : Within low lim str) :
    Keeps lim (Within low lim) (skip p linebuf str) := by
  obtain ⟨pos, skipped, -, after, -⟩ := skip_some linebuf lim line p stop low str within
  rw [skipped]
  exact after

theorem skip_moves (p : UInt8 → Bool) (stop : p 0 = false) (low : Nat) (str : Cur) (within : Within low lim str)
    (first : p (linebuf str.pos) = true) : Keeps lim (Within (low + 1) lim) (skip p linebuf str) := by
  obtain ⟨pos, skipped, -, -, -, after⟩ := skip_some linebuf lim line p stop low str within
  rw [skipped]
  exact after first

theorem octal_keeps (low : Nat) (str : Cur) (within : Within low lim str) : Keeps lim (Within low lim) (octal linebuf str) := by
  refine keeps_bind lim (Within low lim) _ _ _ (skip_keeps linebuf lim line isoct rfl low str within) fun str within => ?_
  split
  · exact within.high
  · exact within

theorem unquote_within (low : Nat) (str : Cur) (within : Within low lim str) : Within low lim (unquote linebuf str) := by
  unfold unquote
  split
  · next quote =>
    refine within_next linebuf lim line low str within ?_
    rw [quote]
    decide
  · exact within

theorem onechar_within (low : Nat) (c : Char) (plain : code c ≠ 0) (str : Cur) (within : Within low lim str) :
    Within low lim (onechar linebuf c str) := by
  unfold onechar
  split
  · next same =>
    refine within_next linebuf lim line low str within ?_
    intro nul
    rw [nul] at same
    exact plain same.symm
  · exact within

theorem literal_keeps (low : Nat) (str : Cur) (within : Within low lim str) : Keeps lim (Within low lim) (literal linebuf str) := by
  have letter : ∀ c, code c ≠ 0 → tolower (linebuf str.pos) = code c → Within low lim (str.add 1) := by
    intro c plain same
    refine within_next linebuf lim line low str within ?_
    intro nul
    rw [nul] at same
    exact plain same.symm
  have quoted := unquote_within linebuf lim line low
  unfold literal
  split_ifs with hex bin oct
  · exact keeps_map lim _ _ _ _ (skip_keeps linebuf lim line isxdigit rfl low _ (letter 'x' (by decide) hex)) quoted
  · exact keeps_map lim _ _ _ _ (skip_keeps linebuf lim line isbin (by decide) low _ (letter 'b' (by decide) bin)) quoted
  · refine keeps_map lim _ _ _ _ (octal_keeps linebuf lim line low _ (letter '0' (by decide) ?_)) quoted
    rw [oct]
    decide
  · exact within_to low lim str.pos _ (quoted str within).high within.low within.pos

theorem digits_keep (low : Nat) (str : Cur) (within : Within low lim str) (digit : isdigit (linebuf str.pos) = true) :
    Keeps lim (Within (low + 1) lim) (valdigits linebuf str) := by
  have first : linebuf str.pos ≠ 0 := by
    intro nul
    rw [nul] at digit
    revert digit
    decide
  have one := within_add linebuf lim line low str within first
  have two : ∀ c, code c ≠ 0 → tolower (linebuf (str.pos + 1)) = code c → Within (low + 1) lim (str.add 2) := by
    intro c plain same
    have second : linebuf (str.pos + 1) ≠ 0 := by
      intro nul
      rw [nul] at same
      exact plain same.symm
    have upper := before_nul linebuf lim line (str.pos + 1) one.pos second
    have lower := within.low
    exact within_to (low + 1) lim (str.pos + 2) str within.high (by omega) upper
  unfold valdigits
  split_ifs with hex bin oct
  · exact skip_keeps linebuf lim line isxdigit rfl _ _ (two 'x' (by decide) hex.2)
  · exact skip_keeps linebuf lim line isbin (by decide) _ _ (two 'b' (by decide) bin.2)
  · exact octal_keeps linebuf lim line _ _ one
  · exact skip_moves linebuf lim line isdigit rfl low str within digit

theorem suffix_keeps (low : Nat) (neg : Bool) (str : Cur) (within : Within low lim str) :
    Keeps lim (Within low lim) (valsuffix linebuf neg str) := by
  unfold valsuffix
  refine skip_keeps linebuf lim line _ (by decide) low _ ?_
  split_ifs with minus unsigned
  · exact onechar_within linebuf lim line low 'l' (by decide) str within
  · have moved : str.add 1 = onechar linebuf 'u' str := by rw [onechar, if_pos unsigned]
    rw [moved]
    exact onechar_within linebuf lim line low 'l' (by decide) _ (onechar_within linebuf lim line low 'u' (by decide) str within)
  · exact within

def Gets (low lim : Nat) (got : Got) : Prop := Within low lim got.str ∧ Ended got.linebuf lim

theorem value_keeps (low : Nat) (str : Cur) (within : Within low lim str) (digit : isdigit (linebuf str.pos) = true) :
    Keeps lim (Gets (low + 1) lim) (value linebuf str) := by
  have notMinus : linebuf str.pos ≠ code '-' := by
    intro minus
    rw [minus] at digit
    revert digit
    decide
  have val : Keeps lim (fun val => ∃ str, val = some str ∧ Within (low + 1) lim str) (zccgetval linebuf str) := by
    unfold zccgetval
    rw [decide_eq_false notMinus]
    simp only [Bool.false_eq_true, if_false]
    rw [if_pos digit]
    refine keeps_map lim (Within (low + 1) lim) _ _ _ ?_ fun str within => ⟨str, rfl, within⟩
    exact keeps_bind lim _ _ _ _ (digits_keep linebuf lim line low str within digit) fun str within =>
      suffix_keeps linebuf lim line (low + 1) false str within
  refine keeps_map lim _ _ _ _ val ?_
  rintro _ ⟨str, rfl, within⟩
  exact ⟨within, line⟩

theorem opers_keep (low : Nat) (str : Cur) (within : Within low lim str) (first : zccisoper (linebuf str.pos) = true)
    (lower : (linebuf (runend zccisoper linebuf str.pos)).toNat < 128) : Keeps lim (Within (low + 1) lim) (opers linebuf str) := by
  obtain ⟨pos, skipped, scanned, -, -, after⟩ := skip_some linebuf lim line zccisoper (by decide) low str within
  rw [runend_scan _ _ _ pos scanned] at lower
  rw [opers_skipped linebuf str _ skipped, if_neg (show ¬128 ≤ (linebuf (str.to pos).pos).toNat from Nat.not_le.mpr lower)]
  exact after first

theorem sharp_keeps (low : Nat) (str : Cur) (within : Within low lim str) (some_byte : linebuf str.pos ≠ 0)
    (room : Sharp linebuf lim (runend isspace linebuf (str.pos + 1))) : Keeps lim (Gets (low + 1) lim) (sharp linebuf str) := by
  obtain ⟨pos, skipped, scanned, within, -⟩ := skip_some linebuf lim line isspace (by decide) (low + 1) (str.add 1)
    (within_add linebuf lim line low str within some_byte)
  obtain ⟨parm, found⟩ := zccfindid_defined directives linebuf pos lim line.nul line.room within.pos
  rw [runend_scan isspace linebuf (str.pos + 1) pos scanned] at room
  have fits := room parm found
  have once : pos + parmlentab parm ≤ lim :=
    zccfindid_length directives parmlentab_directives linebuf pos lim parm line.nul line.room within.pos found
  rw [sharp_skipped linebuf str _ parm skipped found]
  split_ifs with define directive stringify
  · exact ⟨within_step (low + 1) lim _ _ within once, line⟩
  · rw [if_neg directive] at fits
    have twice : pos + parmlentab parm + parmlentab parm ≤ lim := by
      have both := fits.resolve_left define
      omega
    exact ⟨within_step (low + 1) lim _ _ (within_step (low + 1) lim _ _ within once) twice, line⟩
  all_goals
    rw [if_pos (not_not.mp directive)] at fits
    exact ⟨within_step (low + 1) lim 1 _ within fits, line⟩

theorem zppgettype_some (low : Nat) (str : Cur) (within : Within low lim str) (type : Nat × Nat)
    (found : zppgettype linebuf str.pos = some type) :
    0 < type.2 ∧ (str.pos + type.2 ≤ lim ∨ type.2 = 14 ∧ starts linebuf str.pos (text "short") = true) := by
  obtain ⟨entry, search, rfl⟩ := Option.map_eq_some_iff.mp found
  have listed := List.mem_of_find?_eq_some search
  have here := List.find?_some (p := fun entry : String × Nat × Nat => starts linebuf str.pos (text entry.1)) search
  obtain ⟨positive, plain, length⟩ := typenames_lengths entry listed
  refine ⟨positive, ?_⟩
  obtain same | ⟨short, length⟩ := length
  · exact .inl (same ▸ starts_le linebuf str.pos lim (text entry.1) line.nul plain within.pos here)
  · exact .inr ⟨length, short ▸ here⟩

theorem name_keeps (low : Nat) (ptr str : Cur) (start : Within low lim ptr) (within : Within (low + 1) lim str)
    (short : starts linebuf ptr.pos (text "short") = true →
      linebuf (runend isspace linebuf str.pos) = code '(' ∨ ptr.pos + 14 ≤ lim) :
    Keeps lim (Gets (low + 1) lim) (name linebuf ptr.pos str) := by
  obtain ⟨pos, skipped, scanned, after, -⟩ := skip_some linebuf lim line isspace (by decide) (low + 1) str within
  rw [runend_scan _ _ _ pos scanned] at short
  rw [name_skipped linebuf ptr.pos str _ skipped]
  split
  · exact ⟨after, line⟩
  · next notFunc =>
    have notParen : linebuf pos ≠ code '(' := notFunc
    cases found : zppgettype linebuf ptr.pos with
    | none => exact ⟨after, line⟩
    | some type =>
      obtain ⟨positive, fits⟩ := zppgettype_some linebuf lim line low ptr start type found
      have lower := start.low
      have upper : ptr.pos + type.2 ≤ lim := by
        obtain fits | ⟨length, here⟩ := fits
        · exact fits
        · rw [length]
          exact (short here).resolve_left notParen
      exact ⟨within_to (low + 1) lim _ _ after.high (by omega) upper, line⟩

theorem label_ended (pos : Nat) : Ended (Function.update linebuf pos 0) lim := by
  refine ⟨?_, line.room⟩
  by_cases same : lim = pos
  · rw [same, Function.update_self]
  · rw [Function.update_of_ne same, line.nul]

theorem word_keeps (low : Nat) (str : Cur) (within : Within low lim str) (first : isfirst (linebuf str.pos) = true)
    (short : Short linebuf lim str.pos) : Keeps lim (Gets (low + 1) lim) (word linebuf str) := by
  obtain ⟨pos, skipped, scanned, -, -, after⟩ := skip_some linebuf lim line isident (by decide) low str within
  have after := after (isident_of_first (linebuf str.pos) first)
  rw [Short, runend_scan _ _ _ pos scanned] at short
  rw [word_skipped linebuf str _ skipped]
  split
  · next label =>
    refine ⟨within_next linebuf lim line (low + 1) _ after ?_, label_ended linebuf lim line pos⟩
    rw [label]
    decide
  · next notLabel => exact name_keeps linebuf lim line low str _ within after fun here => (short here).resolve_left notLabel

theorem starts_within (low n : Nat) (str : Cur) (within : Within low lim str) (word : List UInt8) (plain : 0 ∉ word)
    (length : word.length = n + 1) (found : starts linebuf str.pos word = true) : Within (low + 1) lim (str.add (n + 1)) := by
  have upper := starts_le linebuf str.pos lim word line.nul plain within.pos found
  rw [length] at upper
  have lower := within.low
  exact within_to (low + 1) lim _ str within.high (by omega) upper

theorem gettoken_keeps (low : Nat) (str : Cur) (within : Within low lim str) (first : isfirst (linebuf str.pos) ∨ isxdigit (linebuf str.pos))
    (short : Short linebuf lim str.pos) :
    Keeps lim (fun got => ∃ found, got = some found ∧ Gets (low + 1) lim found) (gettoken linebuf str) := by
  obtain ⟨parm, found⟩ := zccfindid_defined qualifiers linebuf str.pos lim line.nul line.room within.pos
  rw [gettoken_found linebuf str parm found]
  split_ifs with qual struct union ident digit
  · have upper := zccfindid_length qualifiers parmlentab_qualifiers linebuf str.pos lim parm line.nul line.room within.pos found
    obtain ⟨id, listed, same, -⟩ := zccfindid_some qualifiers linebuf str.pos parm found qual
    have positive : 0 < parmlentab parm := same ▸ parmlentab_positive id listed
    have lower := within.low
    exact ⟨_, rfl, within_to (low + 1) lim _ str within.high (by omega) upper, line⟩
  · exact ⟨_, rfl, starts_within linebuf lim line low 5 str within (text "struct") (by decide +kernel) rfl struct, line⟩
  · exact ⟨_, rfl, starts_within linebuf lim line low 4 str within (text "union") (by decide +kernel) rfl union, line⟩
  · exact keeps_map lim _ _ _ _ (word_keeps linebuf lim line low str within ident short) fun got gets => ⟨got, rfl, gets⟩
  · have number := isdigit_of_xdigit _ digit (Bool.not_eq_true _ ▸ ident)
    exact keeps_map lim _ _ _ _ (value_keeps linebuf lim line low str within number) fun got gets => ⟨got, rfl, gets⟩
  · exact absurd first (not_or.mpr ⟨ident, digit⟩)

theorem zpptoken_keeps (low : Nat) (str : Cur) (within : Within low lim str) (supported : Supported linebuf lim str.pos) :
    Keeps lim (fun got => ∃ found, got = some found ∧ Gets (low + 1) lim found) (zpptoken linebuf str) := by
  obtain ⟨ascii, first, opers, sharps, short⟩ := supported
  have one : linebuf str.pos ≠ 0 → Within (low + 1) lim (str.add 1) := within_add linebuf lim line low str within
  by_cases table : toktab (linebuf str.pos) ≠ .none
  · rw [zpptoken_table linebuf str ascii table]
    refine ⟨_, rfl, one ?_, line⟩
    intro nul
    rw [nul] at table
    exact table rfl
  rw [zpptoken_live linebuf str ascii table]
  by_cases star : linebuf str.pos = code '*'
  · rw [if_pos star]
    exact ⟨_, rfl, one (star ▸ by decide), line⟩
  rw [if_neg star]
  by_cases oper : zccisoper (linebuf str.pos) = true
  · rw [if_pos oper]
    exact keeps_map lim _ _ _ _ (opers_keep linebuf lim line low str within oper (opers oper)) fun str within => ⟨_, rfl, within, line⟩
  rw [if_neg oper]
  by_cases sharp : linebuf str.pos = code '#'
  · rw [if_pos sharp]
    exact keeps_map lim _ _ _ _ (sharp_keeps linebuf lim line low str within (sharp ▸ by decide) (sharps sharp)) fun got gets => ⟨got, rfl, gets⟩
  rw [if_neg sharp]
  by_cases wide : linebuf str.pos = code 'L' ∧ linebuf (str.pos + 1) = squote
  · rw [if_pos wide]
    have second := before_nul linebuf lim line (str.pos + 1) (one (wide.1 ▸ by decide)).pos (wide.2 ▸ by decide)
    have two : Within (low + 1) lim (str.add 2) := by
      have lower := within.low
      exact within_to (low + 1) lim (str.pos + 2) str within.high (by omega) second
    exact keeps_map lim _ _ _ _ (literal_keeps linebuf lim line (low + 1) _ two) fun str within => ⟨_, rfl, within, line⟩
  rw [if_neg wide]
  by_cases typedef : starts linebuf str.pos (text "typedef") = true
  · rw [if_pos typedef]
    exact ⟨_, rfl, starts_within linebuf lim line low 6 str within (text "typedef") (by decide +kernel) rfl typedef, line⟩
  rw [if_neg typedef]
  by_cases atr : starts linebuf str.pos (text "__attribute__") = true
  · rw [if_pos atr]
    have behind := starts_within linebuf lim line low 12 str within (text "__attribute__") (by decide +kernel) rfl atr
    exact keeps_map lim _ _ _ _ (skip_keeps linebuf lim line isspace (by decide) (low + 1) _ behind) fun str within => ⟨_, rfl, within, line⟩
  rw [if_neg atr]
  have named := (((first.resolve_left table).resolve_left star).resolve_left oper).resolve_left sharp
  exact gettoken_keeps linebuf lim line low str within named short

-- A token leaves str further on in the line.
theorem zccgettoken_keeps (str : Nat) (before : str ≤ lim) (supported : Supported linebuf lim str) :
    Keeps lim (fun got => ∃ found, got = some found ∧ Gets (str + 1) lim found) (zccgettoken linebuf str) := by
  have start : Within str lim ⟨str, str⟩ := ⟨Nat.le_refl str, before, before⟩
  refine keeps_bind lim _ _ _ _ (zpptoken_keeps linebuf lim line str ⟨str, str⟩ start supported) ?_
  rintro _ ⟨found, rfl, within, line⟩
  exact keeps_map lim _ _ _ _ (skip_keeps found.linebuf lim line isspace (by decide) (str + 1) found.str within)
    fun str within => ⟨_, rfl, within, line⟩

end

end OsZero.Zcc

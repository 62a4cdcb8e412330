import Mathlib.Algebra.Group.Nat.Defs
import OsZero.Zcc.Token

set_option autoImplicit false

namespace OsZero.Zcc

open Cstring

def zccUlong : Nat := 0x08

-- A long has longsize bytes.
def typesztab (longsize type : Nat) : Nat := [0, 1, 1, 2, 2, 4, 4, longsize, longsize, 8, 8].getD type 0

def typesigntab (type : Nat) : Nat := [0, 1, 0, 1, 0, 1, 0, 1, 0, 1, 0].getD type 0

-- The union ival has the same 64 bits whether ll or ull is stored.
structure Zccval where
  type : Nat
  sz : Nat
  ival : BitVec 64
deriving DecidableEq

-- What the member holds that zccsetival stores for the type.
def Zccval.num (val : Zccval) : Int := if typesigntab (val.type % 32) ≠ 0 then val.ival.toInt else val.ival.toNat

def islower (c : UInt8) : Bool := 97 ≤ c.toNat ∧ c.toNat ≤ 122

def digitval (c : UInt8) : Nat := if isdigit c then c.toNat - 48 else if islower c then c.toNat - 97 + 10 else c.toNat - 65 + 10

def shiftdigit (shift : Nat) (uval : BitVec 64) (c : UInt8) : BitVec 64 := (uval <<< shift) + BitVec.ofNat 64 (digitval c)

def decimaldigit (uval : BitVec 64) (c : UInt8) : BitVec 64 := uval * 10 + BitVec.ofNat 64 (digitval c)

-- while (p(*str)) with *str taken into uval, in an array with room more bytes.
def readnum (p : UInt8 → Bool) (digit : BitVec 64 → UInt8 → BitVec 64) (buf : Nat → UInt8) : Nat → Nat → BitVec 64 → Option (BitVec 64 × Nat)
  | 0, _, _ => none
  | room + 1, str, uval => if p (buf str) then readnum p digit buf room (str + 1) (digit uval (buf str)) else some (uval, str)

-- The array that str points into has size bytes.
def number (size : Nat) (p : UInt8 → Bool) (digit : BitVec 64 → UInt8 → BitVec 64) (buf : Nat → UInt8) (str : Cur) : Except Stop (BitVec 64 × Cur) :=
  (defined (readnum p digit buf (size - str.pos) str.pos 0)).map fun read => (read.1, str.to read.2)

def octalnum (size : Nat) (buf : Nat → UInt8) (str : Cur) : Except Stop (BitVec 64 × Cur) := do
  let read ← number size isoct (shiftdigit 3) buf str
  if isdigit (buf read.2.pos) then .error (.exited read.2) else .ok read

def valnumber (size : Nat) (buf : Nat → UInt8) (str : Cur) : Except Stop (BitVec 64 × Cur) :=
  if buf str.pos = code '0' ∧ tolower (buf (str.pos + 1)) = code 'x' then number size isxdigit (shiftdigit 4) buf (str.add 2)
  else if buf str.pos = code '0' ∧ tolower (buf (str.pos + 1)) = code 'b' then number size isbin (shiftdigit 1) buf (str.add 2)
  else if buf str.pos = code '0' then octalnum size buf (str.add 1)
  else number size isdigit decimaldigit buf str

-- The type that the letters behind the digits name, and where they are stepped past.
def valtype (buf : Nat → UInt8) (neg : Bool) (str : Cur) : Nat × Cur :=
  if neg then
    if tolower (buf str.pos) = code 'l' then
      let str := str.add 1
      (if tolower (buf str.pos) = code 'l' then zccLonglong else zccLong, str)
    else (zccInt, str)
  else if tolower (buf str.pos) = code 'u' then
    let str := str.add 1
    if tolower (buf str.pos) = code 'l' then
      let str := str.add 1
      (if tolower (buf str.pos) = code 'l' then zccUlonglong else zccUlong, str)
    else (zccUint, str)
  else (zccInt, str)

def skipquotes (size : Nat) (buf : Nat → UInt8) (str : Cur) : Except Stop Cur :=
  (defined (scan (· = squote) buf (size - str.pos) str.pos)).map str.to

-- zccgetval with the value it makes, in an array of any size.
def getval (size longsize : Nat) (buf : Nat → UInt8) (str : Cur) : Except Stop (Option (Zccval × Cur)) :=
  let neg : Bool := buf str.pos = code '-'
  let str := if neg then str.add 1 else str
  if isdigit (buf str.pos) then do
    let read ← valnumber size buf str
    let val := if neg then -read.1 else read.1
    let named := valtype buf neg read.2
    let str ← skipquotes size buf named.2
    .ok (some (⟨named.1, typesztab longsize named.1, val⟩, str))
  else .ok none

theorem readnum_pos (p : UInt8 → Bool) (digit : BitVec 64 → UInt8 → BitVec 64) (buf : Nat → UInt8) (room str : Nat) (uval : BitVec 64) :
    (readnum p digit buf room str uval).map Prod.snd = scan p buf room str := by
  induction room generalizing str uval with
  | zero => rfl
  | succ room ih =>
    rw [readnum, scan]
    split_ifs
    · exact ih _ _
    · rfl

theorem number_pos (p : UInt8 → Bool) (digit : BitVec 64 → UInt8 → BitVec 64) (buf : Nat → UInt8) (str : Cur) :
    (number nlinebuf p digit buf str).map Prod.snd = skip p buf str := by
  rw [number, skip, ← readnum_pos p digit buf _ _ 0]
  cases readnum p digit buf (nlinebuf - str.pos) str.pos 0 <;> rfl

theorem octalnum_pos (buf : Nat → UInt8) (str : Cur) : (octalnum nlinebuf buf str).map Prod.snd = octal buf str := by
  rw [octalnum, octal, ← number_pos isoct (shiftdigit 3)]
  cases number nlinebuf isoct (shiftdigit 3) buf str with
  | error stop => rfl
  | ok read =>
    change Except.map Prod.snd (if isdigit (buf read.2.pos) then Except.error (Stop.exited read.2) else .ok read) =
      if isdigit (buf read.2.pos) then _ else _
    split_ifs <;> rfl

theorem valnumber_pos (buf : Nat → UInt8) (str : Cur) : (valnumber nlinebuf buf str).map Prod.snd = valdigits buf str := by
  rw [valnumber, valdigits]
  split_ifs
  · exact number_pos _ _ _ _
  · exact number_pos _ _ _ _
  · exact octalnum_pos _ _
  · exact number_pos _ _ _ _

theorem valtype_pos (buf : Nat → UInt8) (neg : Bool) (str : Cur) : skipquotes nlinebuf buf (valtype buf neg str).2 = valsuffix buf neg str := by
  rw [valsuffix, valtype, skipquotes, skip]
  cases neg with
  | true =>
    simp only [if_true, onechar]
    split_ifs <;> rfl
  | false =>
    simp only [Bool.false_eq_true, if_false, onechar]
    split_ifs <;> rfl

-- The value takes nothing away from where the call leaves str.
theorem getval_pos (longsize : Nat) (buf : Nat → UInt8) (str : Cur) :
    (getval nlinebuf longsize buf str).map (Option.map Prod.snd) = zccgetval buf str := by
  rw [getval, zccgetval]
  dsimp only
  generalize decide (buf str.pos = code '-') = neg
  generalize (if neg then str.add 1 else str) = str
  by_cases digits : isdigit (buf str.pos)
  · rw [if_pos digits, if_pos digits, ← valnumber_pos]
    cases valnumber nlinebuf buf str with
    | error stop => rfl
    | ok read =>
      change Except.map (Option.map Prod.snd) (skipquotes nlinebuf buf (valtype buf neg read.2).2 >>= fun str => .ok (some (_, str))) =
        Except.map some (valsuffix buf neg read.2)
      rw [valtype_pos]
      cases valsuffix buf neg read.2 <;> rfl
  · rw [if_neg digits, if_neg digits]
    rfl

-- The literals of C, as the bytes of their text.
inductive Base
  | dec | oct | hex | bin
deriving DecidableEq

def Base.leads : Base → List (List UInt8)
  | .dec => [[]]
  | .oct => [[code '0']]
  | .hex => [[code '0', code 'x'], [code '0', code 'X']]
  | .bin => [[code '0', code 'b'], [code '0', code 'B']]

def Base.radix : Base → Nat
  | .dec => 10
  | .oct => 8
  | .hex => 16
  | .bin => 2

def Base.isdigit : Base → UInt8 → Bool
  | .dec => Cstring.isdigit
  | .oct => isoct
  | .hex => isxdigit
  | .bin => isbin

structure Literal where
  base : Base
  lead : List UInt8
  digits : List UInt8
  leads : lead ∈ base.leads
  all : digits.all base.isdigit
  some_digit : base ≠ .oct → digits ≠ []
  first : base = .dec → digits.head? ≠ some (code '0')

def Literal.text (lit : Literal) : List UInt8 := lit.lead ++ lit.digits

def Literal.value (lit : Literal) : Nat := lit.digits.foldl (fun value c => value * lit.base.radix + digitval c) 0

inductive Suffix
  | none | u | l | ul | ll | ull
deriving DecidableEq

def Suffix.letters : Suffix → List UInt8
  | .none => []
  | .u => [code 'u']
  | .l => [code 'l']
  | .ul => [code 'u', code 'l']
  | .ll => [code 'l', code 'l']
  | .ull => [code 'u', code 'l', code 'l']

def Suffix.type : Suffix → Nat
  | .none => zccInt
  | .u => zccUint
  | .l => zccLong
  | .ul => zccUlong
  | .ll => zccLonglong
  | .ull => zccUlonglong

-- The characters that a literal may go on with.
def continues (c : UInt8) : Bool := isident c || c = code '.'

-- The text stands in the array from str on.
def Stands (buf : Nat → UInt8) (str : Nat) (chars : List UInt8) : Prop := ∀ i c, chars[i]? = some c → buf (str + i) = c

theorem stands_cons (buf : Nat → UInt8) (str : Nat) (c : UInt8) (chars : List UInt8) :
    Stands buf str (c :: chars) ↔ buf str = c ∧ Stands buf (str + 1) chars := by
  constructor
  · intro stands
    refine ⟨stands 0 c rfl, fun i d get => ?_⟩
    rw [Nat.add_assoc, Nat.add_comm 1 i]
    exact stands (i + 1) d get
  · rintro ⟨first, rest⟩ i d get
    cases i with
    | zero => exact first.trans (Option.some.inj get)
    | succ i =>
      have later := rest i d get
      rwa [Nat.add_assoc, Nat.add_comm 1 i] at later

-- A string as the array that holds it.
def held (chars : List UInt8) (i : Nat) : UInt8 := chars.getD i 0

theorem held_stands (front back : List UInt8) : Stands (held (front ++ back)) 0 front := by
  intro i c get
  have inside := (List.getElem?_eq_some_iff.mp get).1
  rw [held, Nat.zero_add, List.getD_eq_getElem?_getD, List.getElem?_append_left inside, get, Option.getD_some]

theorem stands_append (buf : Nat → UInt8) (str : Nat) (front back : List UInt8) :
    Stands buf str (front ++ back) ↔ Stands buf str front ∧ Stands buf (str + front.length) back := by
  induction front generalizing str with
  | nil => simp [Stands]
  | cons c front ih =>
    rw [List.cons_append, stands_cons, stands_cons, ih, List.length_cons, Nat.add_assoc, Nat.add_comm 1, and_assoc]

-- The loop over the digits reads just the run of them.
theorem readnum_digits (p : UInt8 → Bool) (digit : BitVec 64 → UInt8 → BitVec 64) (buf : Nat → UInt8) (digits : List UInt8) (room str : Nat)
    (uval : BitVec 64) (stands : Stands buf str digits) (all : digits.all p) (stop : p (buf (str + digits.length)) = false) (inside : digits.length < room) :
    readnum p digit buf room str uval = some (digits.foldl digit uval, str + digits.length) := by
  induction digits generalizing room str uval with
  | nil =>
    obtain ⟨room, rfl⟩ := Nat.exists_eq_succ_of_ne_zero (Nat.ne_of_gt inside)
    rw [readnum, if_neg (by rw [List.length_nil, Nat.add_zero] at stop; rw [stop]; decide)]
    rfl
  | cons c digits ih =>
    obtain ⟨room, rfl⟩ := Nat.exists_eq_succ_of_ne_zero (Nat.ne_of_gt (Nat.lt_of_le_of_lt (Nat.zero_le _) inside))
    rw [stands_cons] at stands
    rw [List.all_cons, Bool.and_eq_true] at all
    rw [List.length_cons, Nat.add_comm _ 1, ← Nat.add_assoc] at stop ⊢
    rw [readnum, stands.1, if_pos all.1, ih room (str + 1) _ stands.2 all.2 stop (Nat.lt_of_succ_lt_succ inside), List.foldl_cons]

theorem shiftdigit_ofNat (shift n : Nat) (c : UInt8) :
    shiftdigit shift (BitVec.ofNat 64 n) c = BitVec.ofNat 64 (n * 2 ^ shift + digitval c) := by
  rw [shiftdigit, BitVec.ofNat_add]
  congr 1
  apply BitVec.eq_of_toNat_eq
  rw [BitVec.toNat_shiftLeft, BitVec.toNat_ofNat, BitVec.toNat_ofNat, Nat.shiftLeft_eq, Nat.mod_mul_mod]

theorem decimaldigit_ofNat (n : Nat) (c : UInt8) : decimaldigit (BitVec.ofNat 64 n) c = BitVec.ofNat 64 (n * 10 + digitval c) := by
  rw [decimaldigit, BitVec.ofNat_add, BitVec.ofNat_mul]
  rfl

theorem foldl_digits (digit : BitVec 64 → UInt8 → BitVec 64) (radix : Nat)
    (step : ∀ n c, digit (BitVec.ofNat 64 n) c = BitVec.ofNat 64 (n * radix + digitval c)) (digits : List UInt8) (n : Nat) :
    digits.foldl digit (BitVec.ofNat 64 n) = BitVec.ofNat 64 (digits.foldl (fun value c => value * radix + digitval c) n) := by
  induction digits generalizing n with
  | nil => rfl
  | cons c digits ih => rw [List.foldl_cons, List.foldl_cons, step, ih]

theorem number_digits (size : Nat) (p : UInt8 → Bool) (digit : BitVec 64 → UInt8 → BitVec 64) (radix : Nat) (buf : Nat → UInt8) (str : Cur)
    (digits : List UInt8) (step : ∀ n c, digit (BitVec.ofNat 64 n) c = BitVec.ofNat 64 (n * radix + digitval c))
    (stands : Stands buf str.pos digits) (all : digits.all p) (stop : p (buf (str.pos + digits.length)) = false)
    (inside : str.pos + digits.length < size) :
    number size p digit buf str =
      .ok (BitVec.ofNat 64 (digits.foldl (fun value c => value * radix + digitval c) 0), str.to (str.pos + digits.length)) := by
  rw [number, readnum_digits p digit buf digits _ _ 0 stands all stop (by omega)]
  have folded := foldl_digits digit radix step digits 0
  rw [← folded]
  rfl

-- What stands behind the digits of a literal.
structure Behind (c : UInt8) : Prop where
  digit : isxdigit c = false
  marker : tolower c ≠ code 'x'

theorem behind_stops (c : UInt8) (behind : Behind c) (base : Base) : base.isdigit c = false := by
  have digit := behind.digit
  rw [isxdigit, Bool.or_eq_false_iff] at digit
  cases base with
  | dec => exact digit.1
  | oct => rw [Base.isdigit, isoct, digit.1, Bool.false_and]
  | hex => exact behind.digit
  | bin =>
    rw [Base.isdigit, isbin, decide_eq_false_iff_not]
    rintro (rfl | rfl) <;> exact absurd digit.1 (by decide)

theorem digit_unmarked (c : UInt8) (digit : isdigit c) : tolower c ≠ code 'x' ∧ tolower c ≠ code 'b' := by
  rw [isdigit, decide_eq_true_eq] at digit
  have same : tolower c = c := by rw [tolower, if_neg (by omega)]
  rw [same]
  constructor
  · rintro rfl
    exact absurd digit (by decide)
  · rintro rfl
    exact absurd digit (by decide)

theorem tolower_cases (c d : UInt8) (lower : tolower c = d) : c = d ∨ c = d - 32 := by
  rw [tolower] at lower
  split_ifs at lower
  · exact Or.inr (by rw [← lower, UInt8.add_sub_cancel])
  · exact Or.inl lower

theorem behind_unmarked (c : UInt8) (behind : Behind c) : tolower c ≠ code 'x' ∧ tolower c ≠ code 'b' := by
  refine ⟨behind.marker, fun marker => ?_⟩
  have digit := behind.digit
  rcases tolower_cases c _ marker with rfl | rfl <;> exact absurd digit (by decide)

theorem marked_leads (lead : List UInt8) (lower upper : UInt8) (leads : lead ∈ [[code '0', lower], [code '0', upper]])
    (same : tolower upper = lower) (small : tolower lower = lower) : ∃ c, lead = [code '0', c] ∧ tolower c = lower := by
  rcases List.mem_cons.mp leads with rfl | leads
  · exact ⟨lower, rfl, small⟩
  · exact ⟨upper, List.mem_singleton.mp leads, same⟩

-- A literal's first byte is a digit.
theorem literal_first (lit : Literal) : ∃ c chars, lit.text = c :: chars ∧ isdigit c = true := by
  obtain ⟨base, lead, digits, leads, all, some_digit, first⟩ := lit
  cases base with
  | dec =>
    obtain rfl := List.mem_singleton.mp leads
    obtain ⟨c, digits, rfl⟩ := List.exists_cons_of_ne_nil (some_digit (by decide))
    rw [List.all_cons, Bool.and_eq_true] at all
    exact ⟨c, digits, rfl, all.1⟩
  | oct =>
    obtain rfl := List.mem_singleton.mp leads
    exact ⟨code '0', digits, rfl, by decide⟩
  | hex =>
    obtain ⟨c, rfl, -⟩ := marked_leads lead _ _ leads (by decide) (by decide)
    exact ⟨code '0', _, rfl, by decide⟩
  | bin =>
    obtain ⟨c, rfl, -⟩ := marked_leads lead _ _ leads (by decide) (by decide)
    exact ⟨code '0', _, rfl, by decide⟩

-- Every base has a branch of its own, and reads its digits to their end.
theorem valnumber_literal (size : Nat) (buf : Nat → UInt8) (str : Cur) (lit : Literal) (stands : Stands buf str.pos lit.text)
    (behind : Behind (buf (str.pos + lit.text.length))) (inside : str.pos + lit.text.length < size) :
    ∃ ends, valnumber size buf str = .ok (BitVec.ofNat 64 lit.value, ends) ∧ ends.pos = str.pos + lit.text.length := by
  obtain ⟨base, lead, digits, leads, all, some_digit, first⟩ := lit
  simp only [Literal.text, Literal.value, stands_append, List.length_append] at *
  have stop := behind_stops _ behind base
  have unmarked := behind_unmarked _ behind
  cases base with
  | dec =>
    obtain rfl := List.mem_singleton.mp leads
    obtain ⟨c, digits, rfl⟩ := List.exists_cons_of_ne_nil (some_digit (by decide))
    have digit := (stands_cons _ _ _ _).mp stands.2
    have other : buf str.pos ≠ code '0' := by
      rw [show buf str.pos = c from digit.1]
      exact fun zero => first rfl (by rw [zero]; rfl)
    rw [List.length_nil, Nat.zero_add] at *
    rw [valnumber, if_neg fun both => other both.1, if_neg fun both => other both.1, if_neg other]
    exact ⟨_, number_digits size _ _ 10 buf str _ decimaldigit_ofNat stands.2 all stop inside, rfl⟩
  | oct =>
    obtain rfl := List.mem_singleton.mp leads
    have zero : buf str.pos = code '0' := stands.1 0 _ rfl
    have plain : tolower (buf (str.pos + 1)) ≠ code 'x' ∧ tolower (buf (str.pos + 1)) ≠ code 'b' := by
      cases digits with
      | nil => exact unmarked
      | cons c digits =>
        have digit := (stands_cons _ _ _ _).mp stands.2
        rw [List.all_cons, Bool.and_eq_true, Base.isdigit, isoct, Bool.and_eq_true] at all
        rw [show buf (str.pos + 1) = c from digit.1]
        exact digit_unmarked c all.1.1
    have behind_octal : isdigit _ = false := behind_stops _ behind .dec
    rw [List.length_singleton, ← Nat.add_assoc] at stop inside behind_octal ⊢
    rw [valnumber, if_neg fun both => plain.1 both.2, if_neg fun both => plain.2 both.2, if_pos zero, octalnum,
      number_digits size isoct _ 8 buf (str.add 1) _ (shiftdigit_ofNat 3) stands.2 all stop inside]
    refine ⟨(str.add 1).to (str.pos + 1 + digits.length), ?_, rfl⟩
    change (if isdigit (buf (str.pos + 1 + digits.length)) then Except.error _ else .ok _) = _
    rw [if_neg (by rw [behind_octal]; decide)]
    rfl
  | hex =>
    obtain ⟨c, rfl, marker⟩ := marked_leads lead _ _ leads (by decide) (by decide)
    have zero : buf str.pos = code '0' := stands.1 0 _ rfl
    have mark : buf (str.pos + 1) = c := stands.1 1 _ rfl
    rw [show [code '0', c].length = 2 from rfl, ← Nat.add_assoc] at *
    rw [valnumber, if_pos ⟨zero, mark ▸ marker⟩]
    exact ⟨_, number_digits size _ _ 16 buf (str.add 2) _ (shiftdigit_ofNat 4) stands.2 all stop inside, rfl⟩
  | bin =>
    obtain ⟨c, rfl, marker⟩ := marked_leads lead _ _ leads (by decide) (by decide)
    have zero : buf str.pos = code '0' := stands.1 0 _ rfl
    have mark : buf (str.pos + 1) = c := stands.1 1 _ rfl
    have other : tolower (buf (str.pos + 1)) ≠ code 'x' := by
      rw [mark, marker]
      decide
    rw [show [code '0', c].length = 2 from rfl, ← Nat.add_assoc] at *
    rw [valnumber, if_neg fun both => other both.2, if_pos ⟨zero, mark ▸ marker⟩]
    exact ⟨_, number_digits size _ _ 2 buf (str.add 2) _ (shiftdigit_ofNat 1) stands.2 all stop inside, rfl⟩

theorem plain_unquoted (size : Nat) (buf : Nat → UInt8) (str : Cur) (inside : str.pos < size) (plain : buf str.pos ≠ squote) :
    skipquotes size buf str = .ok (str.to str.pos) := by
  obtain ⟨room, more⟩ := Nat.exists_eq_succ_of_ne_zero (Nat.sub_ne_zero_of_lt inside)
  rw [skipquotes, more, scan, if_neg (by simpa using plain)]
  rfl

theorem quotes_passed (size : Nat) (buf : Nat → UInt8) (str ends : Cur) (quote : buf str.pos = squote) (skipped : skipquotes size buf str = .ok ends) :
    str.pos < ends.pos := by
  rw [skipquotes] at skipped
  cases found : scan (fun c => c = squote) buf (size - str.pos) str.pos with
  | none =>
    rw [found] at skipped
    contradiction
  | some pos =>
    rw [found] at skipped
    cases skipped
    exact scan_moves _ _ _ _ _ (by simpa using quote) found

-- The type that the call takes the letters for, and how many of them it steps past: it looks for u alone, and at one l behind it.
def Suffix.named : Suffix → Nat × Nat
  | .none => (zccInt, 0)
  | .u => (zccUint, 1)
  | .l => (zccInt, 0)
  | .ul => (zccUlong, 2)
  | .ll => (zccInt, 0)
  | .ull => (zccUlonglong, 2)

theorem spelled_read (buf : Nat → UInt8) (str : Nat) (letters small : List UInt8) (spelled : letters.map tolower = small) (stands : Stands buf str letters)
    (i : Nat) (c : UInt8) (get : small[i]? = some c) : tolower (buf (str + i)) = c := by
  rw [← spelled, List.getElem?_map, Option.map_eq_some_iff] at get
  obtain ⟨d, at_i, rfl⟩ := get
  rw [stands i d at_i]

theorem valtype_named (buf : Nat → UInt8) (str : Cur) (suffix : Suffix) (letters : List UInt8) (spelled : letters.map tolower = suffix.letters)
    (stands : Stands buf str.pos letters) (unsigned : tolower (buf (str.pos + letters.length)) ≠ code 'u')
    (unlong : tolower (buf (str.pos + letters.length)) ≠ code 'l') :
    (valtype buf false str).1 = suffix.named.1 ∧ (valtype buf false str).2.pos = str.pos + suffix.named.2 := by
  have read := spelled_read buf str.pos letters _ spelled stands
  have count : letters.length = suffix.letters.length := by rw [← spelled, List.length_map]
  rw [count] at unsigned unlong
  rw [valtype]
  simp only [Bool.false_eq_true, if_false, Cur.add, Cur.to, Nat.add_assoc, Nat.reduceAdd]
  cases suffix with
  | none =>
    rw [if_neg (show ¬ tolower (buf str.pos) = code 'u' from unsigned)]
    exact ⟨rfl, rfl⟩
  | u =>
    have first : tolower (buf str.pos) = code 'u' := read 0 _ rfl
    rw [if_pos first, if_neg (show ¬ tolower (buf (str.pos + 1)) = code 'l' from unlong)]
    exact ⟨rfl, rfl⟩
  | l =>
    have first : tolower (buf str.pos) = code 'l' := read 0 _ rfl
    rw [if_neg (by rw [first]; decide)]
    exact ⟨rfl, rfl⟩
  | ul =>
    have first : tolower (buf str.pos) = code 'u' := read 0 _ rfl
    rw [if_pos first, if_pos (read 1 _ rfl), if_neg (show ¬ tolower (buf (str.pos + 2)) = code 'l' from unlong)]
    exact ⟨rfl, rfl⟩
  | ll =>
    have first : tolower (buf str.pos) = code 'l' := read 0 _ rfl
    rw [if_neg (by rw [first]; decide)]
    exact ⟨rfl, rfl⟩
  | ull =>
    have first : tolower (buf str.pos) = code 'u' := read 0 _ rfl
    rw [if_pos first, if_pos (read 1 _ rfl), if_pos (read 2 _ rfl)]
    exact ⟨rfl, rfl⟩

theorem plain_behind (c : UInt8) (plain : continues c = false) : Behind c ∧ tolower c ≠ code 'u' ∧ tolower c ≠ code 'l' := by
  rw [continues, isident, isalnum, Bool.or_eq_false_iff, Bool.or_eq_false_iff, Bool.or_eq_false_iff] at plain
  obtain ⟨⟨⟨alpha, digit⟩, -⟩, -⟩ := plain
  refine ⟨⟨?_, ?_⟩, ?_, ?_⟩
  · rw [isalpha, decide_eq_false_iff_not] at alpha
    rw [isxdigit, digit, Bool.false_or, decide_eq_false_iff_not]
    omega
  all_goals
    intro letter
    rcases tolower_cases c _ letter with rfl | rfl <;> exact absurd alpha (by decide)

theorem letter_behind (suffix : Suffix) (c : UInt8) (rest : List UInt8) (letters : suffix.letters = tolower c :: rest) : Behind c := by
  have letter : tolower c = code 'u' ∨ tolower c = code 'l' := by
    cases suffix with
    | none => contradiction
    | u => exact Or.inl (List.cons.inj letters).1.symm
    | l => exact Or.inr (List.cons.inj letters).1.symm
    | ul => exact Or.inl (List.cons.inj letters).1.symm
    | ll => exact Or.inr (List.cons.inj letters).1.symm
    | ull => exact Or.inl (List.cons.inj letters).1.symm
  rcases letter with letter | letter
  all_goals rcases tolower_cases c _ letter with rfl | rfl <;> exact ⟨by decide, by decide⟩

-- What the call makes of the digits, and what is left to it behind them.
theorem getval_digits (size longsize : Nat) (buf : Nat → UInt8) (str : Cur) (lit : Literal) (stands : Stands buf str.pos lit.text)
    (behind : Behind (buf (str.pos + lit.text.length))) (inside : str.pos + lit.text.length < size) :
    ∃ ends : Cur, ends.pos = str.pos + lit.text.length ∧ getval size longsize buf str =
      (skipquotes size buf (valtype buf false ends).2).map fun str =>
        some (⟨(valtype buf false ends).1, typesztab longsize (valtype buf false ends).1, BitVec.ofNat 64 lit.value⟩, str) := by
  obtain ⟨c, chars, text, digit⟩ := literal_first lit
  have first : buf str.pos = c := by
    rw [text] at stands
    exact stands 0 c rfl
  have unsigned : decide (buf str.pos = code '-') = false := by
    rw [first, decide_eq_false_iff_not]
    rintro rfl
    exact absurd digit (by decide)
  obtain ⟨ends, read, place⟩ := valnumber_literal size buf str lit stands behind inside
  refine ⟨ends, place, ?_⟩
  rw [getval, unsigned]
  simp only [Bool.false_eq_true, if_false]
  rw [if_pos (first ▸ digit), read]
  change (skipquotes size buf (valtype buf false ends).2 >>= fun str => .ok (some (_, str))) = _
  cases skipquotes size buf (valtype buf false ends).2 <;> rfl

-- What the call has to return for a literal with a suffix.
def Returns (lit : Literal) (suffix : Suffix) (ends : Nat) (result : Except Stop (Option (Zccval × Cur))) : Prop :=
  ∃ val str, result = .ok (some (val, str)) ∧ val.type = suffix.type ∧ val.num = lit.value ∧ str.pos = ends

theorem signed_num (type sz value : Nat) (signed : typesigntab (type % 32) ≠ 0) (fits : value < 2 ^ 64) :
    (Zccval.mk type sz (BitVec.ofNat 64 value)).num = value ↔ value < 2 ^ 63 := by
  have low : (BitVec.ofNat 64 value).toNat = value := by rw [BitVec.toNat_ofNat, Nat.mod_eq_of_lt fits]
  rw [Zccval.num, if_pos signed, BitVec.toInt_eq_toNat_cond, low]
  split_ifs with small
  · exact iff_of_true rfl (by omega)
  · exact iff_of_false (by omega) (by omega)

theorem unsigned_num (type sz value : Nat) (unsigned : typesigntab (type % 32) = 0) (fits : value < 2 ^ 64) :
    (Zccval.mk type sz (BitVec.ofNat 64 value)).num = value := by
  rw [Zccval.num, if_neg (not_not_intro unsigned), BitVec.toNat_ofNat, Nat.mod_eq_of_lt fits]

-- The letters end where the call stops reading them, and name what it takes them for.
theorem named_iff (suffix : Suffix) : suffix.named = (suffix.type, suffix.letters.length) ↔ suffix = .none ∨ suffix = .u ∨ suffix = .ul := by
  cases suffix <;> decide

section Suffixes

variable (size : Nat) (buf : Nat → UInt8) (ends after : Cur) (suffix : Suffix) (letters : List UInt8) (spelled : letters.map tolower = suffix.letters)
  (spells : Stands buf ends.pos letters) (inside : ends.pos + letters.length < size)
  (pos : (valtype buf false ends).2.pos = ends.pos + suffix.named.2)
include spelled spells inside pos

-- The second l is left to read.
theorem second_left (twice : suffix = .ull) (skipped : skipquotes size buf (valtype buf false ends).2 = .ok after) : after.pos = ends.pos + 2 := by
  subst twice
  have count : letters.length = Suffix.ull.letters.length := by rw [← spelled, List.length_map]
  have letter := spelled_read buf ends.pos letters _ spelled spells 2 (code 'l') rfl
  have plain : buf (ends.pos + 2) ≠ squote := by
    intro quote
    rw [quote] at letter
    exact absurd letter (by decide)
  have short : ends.pos + 2 ≤ ends.pos + letters.length := by
    rw [count]
    exact Nat.add_le_add_left (by decide) _
  have left := plain_unquoted size buf (valtype buf false ends).2 (by rw [pos]; exact Nat.lt_of_le_of_lt short inside) (by rw [pos]; exact plain)
  rw [left] at skipped
  cases skipped
  exact pos

theorem returned_named (type : (valtype buf false ends).1 = suffix.named.1) (types : (valtype buf false ends).1 = suffix.type)
    (skipped : skipquotes size buf (valtype buf false ends).2 = .ok after) (stop : after.pos = ends.pos + letters.length) :
    suffix = .none ∨ suffix = .u ∨ suffix = .ul := by
  have count : letters.length = suffix.letters.length := by rw [← spelled, List.length_map]
  cases suffix with
  | none => exact Or.inl rfl
  | u => exact Or.inr (Or.inl rfl)
  | l => exact absurd (type.symm.trans types) (by decide)
  | ul => exact Or.inr (Or.inr rfl)
  | ll => exact absurd (type.symm.trans types) (by decide)
  | ull =>
    have left := second_left size buf ends after .ull letters spelled spells inside pos rfl skipped
    rw [left, count] at stop
    exact absurd (Nat.add_left_cancel stop) (by decide)

end Suffixes

theorem getval_literal_iff (size longsize : Nat) (buf : Nat → UInt8) (str : Cur) (lit : Literal) (suffix : Suffix) (letters : List UInt8)
    (fits : lit.value < 2 ^ 64) (spelled : letters.map tolower = suffix.letters) (stands : Stands buf str.pos (lit.text ++ letters))
    (behind : continues (buf (str.pos + (lit.text ++ letters).length)) = false) (inside : str.pos + (lit.text ++ letters).length < size) :
    Returns lit suffix (str.pos + (lit.text ++ letters).length) (getval size longsize buf str) ↔
      (suffix = .none ∧ lit.value < 2 ^ 63 ∨ suffix = .u ∨ suffix = .ul) ∧ buf (str.pos + (lit.text ++ letters).length) ≠ squote := by
  obtain ⟨digits, spells⟩ := (stands_append buf str.pos lit.text letters).mp stands
  rw [List.length_append, ← Nat.add_assoc] at behind inside ⊢
  obtain ⟨plain, unsigned, unlong⟩ := plain_behind _ behind
  have next : Behind (buf (str.pos + lit.text.length)) := by
    cases letters with
    | nil => exact plain
    | cons c rest =>
      rw [((stands_cons _ _ _ _).mp spells).1]
      exact letter_behind suffix c (rest.map tolower) spelled.symm
  obtain ⟨ends, place, call⟩ := getval_digits size longsize buf str lit digits next (by omega)
  rw [← place] at spells unsigned unlong behind inside ⊢
  obtain ⟨type, pos⟩ := valtype_named buf ends suffix letters spelled spells unsigned unlong
  have count : letters.length = suffix.letters.length := by rw [← spelled, List.length_map]
  rw [call]
  constructor
  · rintro ⟨val, after, result, types, num, stop⟩
    cases skipped : skipquotes size buf (valtype buf false ends).2 with
    | error _ =>
      rw [skipped] at result
      contradiction
    | ok found =>
      rw [skipped] at result
      cases result
      have named := returned_named size buf ends after suffix letters spelled spells inside pos type types skipped stop
      refine ⟨?_, fun quote => ?_⟩
      · rcases named with rfl | rfl | rfl
        · exact Or.inl ⟨rfl, (signed_num _ _ _ (by rw [type]; decide) fits).mp num⟩
        · exact Or.inr (Or.inl rfl)
        · exact Or.inr (Or.inr rfl)
      · have both := (named_iff suffix).mpr named
        have passed := quotes_passed size buf (valtype buf false ends).2 after (by rw [pos, both, ← count]; exact quote) skipped
        rw [pos, both, stop, ← count] at passed
        exact Nat.lt_irrefl _ passed
  · rintro ⟨kinds, quote⟩
    have named : suffix = .none ∨ suffix = .u ∨ suffix = .ul := kinds.imp_left And.left
    have both := (named_iff suffix).mpr named
    rw [both] at type pos
    rw [count] at inside quote ⊢
    rw [plain_unquoted size buf (valtype buf false ends).2 (by rw [pos]; exact inside) (by rw [pos]; exact quote)]
    refine ⟨_, _, rfl, type, ?_, pos⟩
    rcases kinds with ⟨rfl, small⟩ | rfl | rfl
    · exact (signed_num _ _ _ (by rw [type]; decide) fits).mpr small
    · exact unsigned_num _ _ _ (by rw [type]; rfl) fits
    · exact unsigned_num _ _ _ (by rw [type]; rfl) fits

def hexLiteral : Literal := ⟨.hex, text "0x", text "1fF", by decide, by decide, by decide, by decide⟩

theorem getval_unsigned_long : Returns hexLiteral .ul 7 (getval nlinebuf 8 (held (text "0x1fFuL;")) ⟨0, 0⟩) :=
  (getval_literal_iff nlinebuf 8 (held (text "0x1fFuL;")) ⟨0, 0⟩ hexLiteral .ul (text "uL") (by decide) (by decide) (held_stands _ (text ";"))
    (by decide) (by decide)).mpr ⟨by decide, by decide⟩

def oneLiteral : Literal := ⟨.dec, [], text "1", by decide, by decide, by decide, by decide⟩

-- 1L is taken for an int, with its L left to read.
theorem long_left_unread : ¬ Returns oneLiteral .l 2 (getval nlinebuf 8 (held (text "1L;")) ⟨0, 0⟩) := by
  have read : getval nlinebuf 8 (held (text "1L;")) ⟨0, 0⟩ = .ok (some (⟨zccInt, 4, 1⟩, ⟨1, 1⟩)) := rfl
  rintro ⟨val, str, result, types, -⟩
  rw [read] at result
  cases result
  exact absurd types (by decide)

end OsZero.Zcc

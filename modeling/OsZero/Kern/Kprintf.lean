import Mathlib.Tactic.SplitIfs
import OsZero.Kern.Number

set_option autoImplicit false

namespace OsZero.Kern.Kprintf

open Numerals Stores

def MAXPRINTFSTR : Nat := 2048

def percent : UInt8 := 37
def space : UInt8 := 32

-- The letters of the directives.
def letterC : UInt8 := 99
def letterD : UInt8 := 100
def letterH : UInt8 := 104
def letterL : UInt8 := 108
def letterP : UInt8 := 112
def letterS : UInt8 := 115
def letterU : UInt8 := 117
def letterX : UInt8 := 120

-- What is behind the format in a call; a NULL string is none.
inductive Arg where
  | int (v : BitVec 32)
  | long (v : BitVec 64)
  | ptr (v : BitVec 64)
  | str (s : Option (List UInt8))
deriving DecidableEq, Repr

-- va_arg has no result where there is no further argument or one of another type.
def vaint : List Arg → Option (BitVec 32 × List Arg)
  | .int v :: al => some (v, al)
  | _ => none

def valong : List Arg → Option (BitVec 64 × List Arg)
  | .long v :: al => some (v, al)
  | _ => none

def vaptr : List Arg → Option (BitVec 64 × List Arg)
  | .ptr v :: al => some (v, al)
  | _ => none

def vastr : List Arg → Option (Option (List UInt8) × List Arg)
  | .str s :: al => some (s, al)
  | _ => none

-- The variables that kprintf sets anew for every directive.
structure Conv where
  isch : Bool
  isdec : Bool
  ishex : Bool
  isuns : Bool
  val : BitVec 64
  uval : BitVec 64
deriving DecidableEq, Repr

def unset : Conv := ⟨false, false, false, false, 0, 0⟩

inductive Directive where
  | returns
  | goes (printed : List UInt8) (conv : Conv) (arg : List UInt8) (al : List Arg)

def skipd (arg : List UInt8) : List UInt8 := if arg.head? = some letterD then arg.tail else arg

def udirective (arg : List UInt8) (al : List Arg) : Option Directive :=
  match arg with
  | [] => some .returns
  | c :: arg =>
      if c = letterC then
        (vaint al).map fun got => .goes [] { unset with isuns := true, isch := true, uval := (got.1.setWidth 8).signExtend 64 } arg got.2
      else if c = letterH then
        (vaint al).map fun got => .goes [] { unset with isuns := true, isdec := true, uval := (got.1.setWidth 16).signExtend 64 } arg got.2
      else if c = letterD then
        (vaint al).map fun got => .goes [] { unset with isuns := true, isdec := true, uval := got.1.setWidth 64 } arg got.2
      else if c = letterL then
        (valong al).map fun got => .goes [] { unset with isuns := true, isdec := true, uval := got.1 } arg got.2
      else some (.goes [] { unset with isuns := true } arg al)

-- The switch, from the character behind the per cent sign on. One that is no letter of a
-- directive stays in front of what is read next.
def directive (arg : List UInt8) (al : List Arg) : Option Directive :=
  match arg with
  | [] => some .returns
  | c :: arg =>
      if c = letterS then (vastr al).map fun got => .goes (got.1.getD []) unset arg got.2
      else if c = letterC then
        (vaint al).map fun got => .goes [] { unset with isch := true, val := (got.1.setWidth 8).signExtend 64 } arg got.2
      else if c = letterH then
        (vaint al).map fun got => .goes [] { unset with isdec := true, val := (got.1.setWidth 16).signExtend 64 } arg got.2
      else if c = letterD then
        (vaint al).map fun got => .goes [] { unset with isdec := true, val := got.1.signExtend 64 } arg got.2
      else if c = letterP then
        (vaptr al).map fun got => .goes [] { unset with isdec := true, ishex := true, isuns := true, uval := got.1 } (skipd arg) got.2
      else if c = letterL then
        if arg.head? = some letterX ∨ arg.head? = some letterU then
          (valong al).map fun got =>
            .goes [] { unset with isdec := true, ishex := arg.head? = some letterX, isuns := true, uval := got.1 } (skipd arg.tail) got.2
        else (valong al).map fun got => .goes [] { unset with isdec := true, val := got.1 } (skipd arg) got.2
      else if c = letterX then
        (vaint al).map fun got => .goes [] { unset with ishex := true, isuns := true, uval := got.1.setWidth 64 } arg got.2
      else if c = letterU then udirective arg al
      else some (.goes [] unset (c :: arg) al)

-- The string that a number is printed to, in a buffer that holds anything.
def numtext (done : Option (Nat × Mem UInt8)) : Option (List UInt8) := done >>= fun done => stringat done.2 done.1

def isprintascii (c : BitVec 64) : Bool := (0x20#64).sle c && c.slt 0x7f

def Conv.print (buf : Nat → UInt8) (conv : Conv) : Option (List UInt8) :=
  if conv.isuns then
    if conv.ishex then numtext (ultoxn conv.uval ⟨buf, []⟩ LONGLONGBUFSIZE)
    else if conv.isdec then numtext (ultodn conv.uval ⟨buf, []⟩ LONGLONGBUFSIZE)
    else if conv.isch && isprintascii conv.val then some [⟨conv.uval.setWidth 8⟩]
    else some [space]
  else if conv.ishex then numtext (ltoxn conv.val ⟨buf, []⟩ LONGLONGBUFSIZE)
  else if conv.isdec then numtext (ltodn conv.val ⟨buf, []⟩ LONGLONGBUFSIZE)
  else if conv.isch && isprintascii conv.val then some [⟨conv.val.setWidth 8⟩]
  else some [space]

theorem skipd_shorter (arg : List UInt8) : (skipd arg).length ≤ arg.length := by
  unfold skipd
  split
  · simp
  · exact Nat.le_refl _

theorem goes_rest {α : Type} (read : Option α) (printed : α → List UInt8) (conv : α → Conv) (al : α → List Arg) (arg rest : List UInt8)
    (out : List UInt8) (given : Conv) (more : List Arg)
    (same : read.map (fun got => Directive.goes (printed got) (conv got) arg (al got)) = some (.goes out given rest more)) : rest = arg := by
  obtain ⟨got, -, same⟩ := Option.map_eq_some_iff.mp same
  cases same
  rfl

theorem udirective_shorter (arg rest : List UInt8) (al more : List Arg) (out : List UInt8) (conv : Conv)
    (read : udirective arg al = some (.goes out conv rest more)) : rest.length ≤ arg.length := by
  cases arg with
  | nil => cases read
  | cons c arg =>
      have tail : rest = arg → rest.length ≤ (c :: arg).length := by
        rintro rfl
        exact Nat.le_succ _
      unfold udirective at read
      dsimp only at read
      split_ifs at read
      · exact tail (goes_rest _ _ _ _ _ _ _ _ _ read)
      · exact tail (goes_rest _ _ _ _ _ _ _ _ _ read)
      · exact tail (goes_rest _ _ _ _ _ _ _ _ _ read)
      · exact tail (goes_rest _ _ _ _ _ _ _ _ _ read)
      · exact tail (by cases read; rfl)

theorem directive_shorter (arg rest : List UInt8) (al more : List Arg) (out : List UInt8) (conv : Conv)
    (read : directive arg al = some (.goes out conv rest more)) : rest.length ≤ arg.length := by
  cases arg with
  | nil => cases read
  | cons c arg =>
      have tail : rest.length ≤ arg.length → rest.length ≤ (c :: arg).length := fun short => Nat.le_succ_of_le short
      have skipped := skipd_shorter arg
      have skippedMore : (skipd arg.tail).length ≤ arg.length := (skipd_shorter arg.tail).trans (by simp)
      unfold directive at read
      dsimp only at read
      split_ifs at read
      · exact tail (Nat.le_of_eq (congrArg List.length (goes_rest _ _ _ _ _ _ _ _ _ read)))
      · exact tail (Nat.le_of_eq (congrArg List.length (goes_rest _ _ _ _ _ _ _ _ _ read)))
      · exact tail (Nat.le_of_eq (congrArg List.length (goes_rest _ _ _ _ _ _ _ _ _ read)))
      · exact tail (Nat.le_of_eq (congrArg List.length (goes_rest _ _ _ _ _ _ _ _ _ read)))
      · exact tail (goes_rest _ _ _ _ _ _ _ _ _ read ▸ skipped)
      · exact tail (goes_rest _ _ _ _ _ _ _ _ _ read ▸ skippedMore)
      · exact tail (goes_rest _ _ _ _ _ _ _ _ _ read ▸ skipped)
      · exact tail (Nat.le_of_eq (congrArg List.length (goes_rest _ _ _ _ _ _ _ _ _ read)))
      · exact tail (udirective_shorter arg rest al more out conv read)
      · cases read
        exact Nat.le_refl _

-- The loop over str: what is in front of the next per cent sign is put as it is, and the
-- rest where there is none.
def kprintfloop (buf : Nat → UInt8) (sptr : List UInt8) (al : List Arg) : Option (List UInt8) :=
  match _split : sptr.dropWhile (· ≠ percent) with
  | [] => some sptr
  | _ :: arg =>
      match _read : directive arg al with
      | none => none
      | some .returns => some (sptr.takeWhile (· ≠ percent))
      | some (.goes printed conv rest more) => do
          let out ← conv.print buf
          let after ← kprintfloop buf rest more
          some (sptr.takeWhile (· ≠ percent) ++ printed ++ out ++ after)
termination_by sptr.length
decreasing_by
  have short := directive_shorter _ _ _ _ _ _ _read
  have dropped := (List.dropWhile_sublist (· ≠ percent) (l := sptr)).length_le
  rw [_split] at dropped
  simp only [List.length_cons] at dropped
  omega

-- kstrncpy takes one character less than the length it is given, which is one less than
-- that of str.
def kprintf (buf : Nat → UInt8) (fmt : List UInt8) (al : List Arg) : Option (List UInt8) :=
  kprintfloop buf (fmt.take (MAXPRINTFSTR - 2)) al

theorem kprintfloop_ends (buf : Nat → UInt8) (sptr : List UInt8) (al : List Arg) (none : sptr.dropWhile (· ≠ percent) = []) :
    kprintfloop buf sptr al = some sptr := by
  rw [kprintfloop]
  split
  · rfl
  · rename_i sign arg some
    rw [none] at some
    cases some

theorem kprintfloop_at (buf : Nat → UInt8) (sptr : List UInt8) (al : List Arg) (sign : UInt8) (arg : List UInt8)
    (found : sptr.dropWhile (· ≠ percent) = sign :: arg) :
    kprintfloop buf sptr al = directive arg al >>= fun step =>
      match step with
      | .returns => some (sptr.takeWhile (· ≠ percent))
      | .goes printed conv rest more => conv.print buf >>= fun out => kprintfloop buf rest more >>= fun after =>
          some (sptr.takeWhile (· ≠ percent) ++ printed ++ out ++ after) := by
  rw [kprintfloop]
  split
  · rename_i none
    rw [none] at found
    cases found
  · rename_i other rest here
    rw [here] at found
    cases found
    split
    · rename_i none
      rw [none]
      rfl
    · rename_i stop
      rw [stop]
      rfl
    · rename_i printed conv rest more step
      rw [step]
      rfl

theorem kprintfloop_plain (buf : Nat → UInt8) (c : UInt8) (sptr : List UInt8) (al : List Arg) (plain : c ≠ percent) :
    kprintfloop buf (c :: sptr) al = (kprintfloop buf sptr al).map (c :: ·) := by
  have dropped : (c :: sptr).dropWhile (· ≠ percent) = sptr.dropWhile (· ≠ percent) := by simp [plain]
  have taken : (c :: sptr).takeWhile (· ≠ percent) = c :: sptr.takeWhile (· ≠ percent) := by simp [plain]
  cases split : sptr.dropWhile (· ≠ percent) with
  | nil =>
      rw [kprintfloop_ends buf (c :: sptr) al (dropped.trans split), kprintfloop_ends buf sptr al split]
      rfl
  | cons sign arg =>
      rw [kprintfloop_at buf (c :: sptr) al sign arg (dropped.trans split), kprintfloop_at buf sptr al sign arg split, taken]
      cases directive arg al with
      | none => rfl
      | some step =>
          cases step with
          | returns => rfl
          | goes printed conv rest more =>
              cases out : conv.print buf with
              | none => simp [out]
              | some out =>
                  cases after : kprintfloop buf rest more with
                  | none => simp [out, after]
                  | some after => simp [out, after]

theorem kprintfloop_text (buf : Nat → UInt8) (text rest : List UInt8) (al : List Arg) (plain : percent ∉ text) :
    kprintfloop buf (text ++ rest) al = (kprintfloop buf rest al).map (text ++ ·) := by
  induction text with
  | nil => simp
  | cons c text ih =>
      have first : c ≠ percent := fun same => plain (by simp [same])
      have later := ih fun member => plain (by simp [member])
      rw [List.cons_append, kprintfloop_plain buf c _ al first, later]
      cases kprintfloop buf rest al <;> rfl

theorem kprintfloop_goes (buf : Nat → UInt8) (arg rest : List UInt8) (al more : List Arg) (printed : List UInt8) (conv : Conv)
    (read : directive arg al = some (.goes printed conv rest more)) :
    kprintfloop buf (percent :: arg) al = conv.print buf >>= fun out => (kprintfloop buf rest more).map fun after => printed ++ out ++ after := by
  have dropped : (percent :: arg).dropWhile (· ≠ percent) = percent :: arg := by simp
  rw [kprintfloop_at buf _ al percent arg dropped, read]
  cases out : conv.print buf with
  | none => simp [out]
  | some out => cases after : kprintfloop buf rest more <;> simp [out, after]

-- A format as it is written: text and the directives with the arguments that stand
-- for them.
inductive Piece where
  | text (s : List UInt8)
  | str (s : Option (List UInt8))
  | char (v : BitVec 32)
  | short (v : BitVec 32)
  | dec (v : BitVec 32)
  | hex (v : BitVec 32)
  | uchar (v : BitVec 32)
  | ushort (v : BitVec 32)
  | udec (v : BitVec 32)
  | long (v : BitVec 64)
  | longhex (v : BitVec 64)
  | longuns (v : BitVec 64)
  | ulong (v : BitVec 64)
  | ptr (v : BitVec 64)
deriving DecidableEq, Repr

def Piece.code : Piece → List UInt8
  | .text s => s
  | .str _ => [percent, letterS]
  | .char _ => [percent, letterC]
  | .short _ => [percent, letterH]
  | .dec _ => [percent, letterD]
  | .hex _ => [percent, letterX]
  | .uchar _ => [percent, letterU, letterC]
  | .ushort _ => [percent, letterU, letterH]
  | .udec _ => [percent, letterU, letterD]
  | .long _ => [percent, letterL, letterD]
  | .longhex _ => [percent, letterL, letterX]
  | .longuns _ => [percent, letterL, letterU]
  | .ulong _ => [percent, letterU, letterL]
  | .ptr _ => [percent, letterP]

def Piece.args : Piece → List Arg
  | .text _ => []
  | .str s => [.str s]
  | .char v => [.int v]
  | .short v => [.int v]
  | .dec v => [.int v]
  | .hex v => [.int v]
  | .uchar v => [.int v]
  | .ushort v => [.int v]
  | .udec v => [.int v]
  | .long v => [.long v]
  | .longhex v => [.long v]
  | .longuns v => [.long v]
  | .ulong v => [.long v]
  | .ptr v => [.ptr v]

def shown (c : BitVec 8) : List UInt8 := if isprintascii (c.signExtend 64) then [⟨c⟩] else [space]

-- What a piece is to print, and what is printed for it.
def Piece.meant : Piece → List UInt8
  | .text s => s
  | .str s => s.getD []
  | .char v => shown (v.setWidth 8)
  | .short v => signed 10 (v.setWidth 16).toInt
  | .dec v => signed 10 v.toInt
  | .hex v => signed 16 v.toNat
  | .uchar v => shown (v.setWidth 8)
  | .ushort v => signed 10 (v.setWidth 16).toNat
  | .udec v => signed 10 v.toNat
  | .long v => signed 10 v.toInt
  | .longhex v => signed 16 v.toNat
  | .longuns v => signed 10 v.toNat
  | .ulong v => signed 10 v.toNat
  | .ptr v => signed 16 v.toNat

def Piece.told (buf : Nat → UInt8) : Piece → Option (List UInt8)
  | .text s => some s
  | .str s => some (s.getD [] ++ [space])
  | .char v => some (shown (v.setWidth 8))
  | .short v => numtext (ltodn ((v.setWidth 16).signExtend 64) ⟨buf, []⟩ LONGLONGBUFSIZE)
  | .dec v => numtext (ltodn (v.signExtend 64) ⟨buf, []⟩ LONGLONGBUFSIZE)
  | .hex v => numtext (ultoxn (v.setWidth 64) ⟨buf, []⟩ LONGLONGBUFSIZE)
  | .uchar _ => some [space]
  | .ushort v => numtext (ultodn ((v.setWidth 16).signExtend 64) ⟨buf, []⟩ LONGLONGBUFSIZE)
  | .udec v => numtext (ultodn (v.setWidth 64) ⟨buf, []⟩ LONGLONGBUFSIZE)
  | .long v => numtext (ltodn v ⟨buf, []⟩ LONGLONGBUFSIZE)
  | .longhex v => numtext (ultoxn v ⟨buf, []⟩ LONGLONGBUFSIZE)
  | .longuns v => numtext (ultodn v ⟨buf, []⟩ LONGLONGBUFSIZE)
  | .ulong v => numtext (ultodn v ⟨buf, []⟩ LONGLONGBUFSIZE)
  | .ptr v => numtext (ultoxn v ⟨buf, []⟩ LONGLONGBUFSIZE)

def tellAll (buf : Nat → UInt8) : List Piece → Option (List UInt8)
  | [] => some []
  | piece :: pieces => piece.told buf >>= fun out => (tellAll buf pieces).map (out ++ ·)

-- The directives that take a following d for a part of them.
def Piece.greedy : Piece → Bool
  | .longhex _ => true
  | .longuns _ => true
  | .ptr _ => true
  | _ => false

def Piece.Written : Piece → Prop
  | .text s => percent ∉ s
  | _ => True

def Apart : List Piece → Prop
  | [] => True
  | piece :: pieces => (piece.greedy = true → (pieces.flatMap Piece.code).head? ≠ some letterD) ∧ Apart pieces

theorem skipd_apart (rest : List UInt8) (apart : rest.head? ≠ some letterD) : skipd rest = rest := if_neg apart

theorem print_shown (buf : Nat → UInt8) (c : BitVec 8) :
    Conv.print buf { unset with isch := true, val := c.signExtend 64 } = some (shown c) := by
  have low : (c.signExtend 64).setWidth 8 = c := by
    apply BitVec.eq_of_getLsbD_eq
    intro i small
    have wide : i < 64 := Nat.lt_trans small (by decide)
    simp only [BitVec.getLsbD_setWidth, BitVec.getLsbD_signExtend, small, wide, decide_true, Bool.true_and, if_true]
  by_cases printable : isprintascii (c.signExtend 64) = true <;> simp [Conv.print, unset, shown, printable, low]

-- A piece prints what is told and leaves the rest of the format and of the arguments.
theorem kprintfloop_piece (buf : Nat → UInt8) (piece : Piece) (rest : List UInt8) (al : List Arg) (written : piece.Written)
    (apart : piece.greedy = true → rest.head? ≠ some letterD) :
    kprintfloop buf (piece.code ++ rest) (piece.args ++ al) = piece.told buf >>= fun out => (kprintfloop buf rest al).map (out ++ ·) := by
  cases piece with
  | text s => exact kprintfloop_text buf s rest al written
  | str s =>
      refine (kprintfloop_goes buf (letterS :: rest) rest (.str s :: al) al (s.getD []) unset rfl).trans ?_
      simp [Conv.print, unset, Piece.told]
  | char v =>
      refine (kprintfloop_goes buf (letterC :: rest) rest (.int v :: al) al [] { unset with isch := true, val := (v.setWidth 8).signExtend 64 } rfl).trans ?_
      rw [print_shown]
      rfl
  | short v => exact kprintfloop_goes buf (letterH :: rest) rest (.int v :: al) al [] _ rfl
  | dec v => exact kprintfloop_goes buf (letterD :: rest) rest (.int v :: al) al [] _ rfl
  | hex v => exact kprintfloop_goes buf (letterX :: rest) rest (.int v :: al) al [] _ rfl
  | uchar v => exact kprintfloop_goes buf (letterU :: letterC :: rest) rest (.int v :: al) al [] _ rfl
  | ushort v => exact kprintfloop_goes buf (letterU :: letterH :: rest) rest (.int v :: al) al [] _ rfl
  | udec v => exact kprintfloop_goes buf (letterU :: letterD :: rest) rest (.int v :: al) al [] _ rfl
  | long v => exact kprintfloop_goes buf (letterL :: letterD :: rest) rest (.long v :: al) al [] _ rfl
  | longhex v =>
      have read := kprintfloop_goes buf (letterL :: letterX :: rest) (skipd rest) (.long v :: al) al [] _ rfl
      rw [skipd_apart rest (apart rfl)] at read
      exact read
  | longuns v =>
      have read := kprintfloop_goes buf (letterL :: letterU :: rest) (skipd rest) (.long v :: al) al [] _ rfl
      rw [skipd_apart rest (apart rfl)] at read
      exact read
  | ulong v => exact kprintfloop_goes buf (letterU :: letterL :: rest) rest (.long v :: al) al [] _ rfl
  | ptr v =>
      have read := kprintfloop_goes buf (letterP :: rest) (skipd rest) (.ptr v :: al) al [] _ rfl
      rw [skipd_apart rest (apart rfl)] at read
      exact read

theorem kprintfloop_pieces (buf : Nat → UInt8) (pieces : List Piece) (written : ∀ piece ∈ pieces, piece.Written) (apart : Apart pieces) :
    kprintfloop buf (pieces.flatMap Piece.code) (pieces.flatMap Piece.args) = tellAll buf pieces := by
  induction pieces with
  | nil => exact kprintfloop_ends buf [] [] rfl
  | cons piece pieces ih =>
      have rest := ih (fun other member => written other (by simp [member])) apart.2
      rw [List.flatMap_cons, List.flatMap_cons, kprintfloop_piece buf piece _ _ (written piece (by simp)) apart.1, rest]
      rfl

-- The pieces that are printed as they are meant to be: no string, for which a space is
-- printed too, no character and no negative half word after %u, and of the longs in base
-- ten those that _ltodn divides right.
def Piece.Sound : Piece → Prop
  | .str _ => False
  | .uchar v => shown (v.setWidth 8) = [space]
  | .ushort v => 0 ≤ (v.setWidth 16).toInt
  | .long v => Tens v.toInt.natAbs
  | .longuns v => Tens v.toNat
  | .ulong v => Tens v.toNat
  | _ => True

theorem numtext_prints (base : Nat) (v : Int) (done : Option (Nat × Mem UInt8)) (prints : Prints base v done) :
    numtext done = some (signed base v) := by
  obtain ⟨l, str, made, -, text, -⟩ := prints
  rw [numtext, made]
  exact text

-- A long of 64 bits in the two bases.
section Longs

variable (buf : Nat → UInt8) (v : BitVec 64)

theorem long_dec (tens : Tens v.toInt.natAbs) : numtext (ltodn v ⟨buf, []⟩ LONGLONGBUFSIZE) = some (signed 10 v.toInt) :=
  numtext_prints _ _ _ ((ltodn_prints (by decide) (Nat.le_refl _) buf v).mpr tens)

theorem ulong_dec (tens : Tens v.toNat) : numtext (ultodn v ⟨buf, []⟩ LONGLONGBUFSIZE) = some (signed 10 v.toNat) :=
  numtext_prints _ _ _ ((ultodn_prints (by decide) (Nat.le_refl _) buf v).mpr tens)

theorem ulong_hex : numtext (ultoxn v ⟨buf, []⟩ LONGLONGBUFSIZE) = some (signed 16 v.toNat) :=
  numtext_prints _ _ _ (ultoxn_prints (by decide) (Nat.le_refl _) buf v)

end Longs

theorem extended_prints {w : Nat} (buf : Nat → UInt8) (v : BitVec w) (narrow : w ≤ 32) :
    numtext (ltodn (v.signExtend 64) ⟨buf, []⟩ LONGLONGBUFSIZE) = some (signed 10 v.toInt) := by
  have same : (v.signExtend 64).toInt = v.toInt := BitVec.toInt_signExtend_of_le (by omega)
  have above := v.toInt_lt
  have below := v.le_toInt
  have powers : (2 : Int) ^ (w - 1) ≤ 2 ^ 31 := by exact_mod_cast Nat.pow_le_pow_right (by decide) (by omega)
  rw [← same]
  apply long_dec
  apply tens_small
  rw [same]
  omega

theorem half_nonneg (v : BitVec 32) (nonneg : 0 ≤ (v.setWidth 16).toInt) :
    ((v.setWidth 16).signExtend 64).toNat = (v.setWidth 16).toNat := by
  have positive : (v.setWidth 16).msb = false := by
    apply BitVec.msb_eq_false_iff_two_mul_lt.mpr
    rw [BitVec.toInt_eq_toNat_cond] at nonneg
    split at nonneg
    · assumption
    · have small := (v.setWidth 16).isLt
      omega
  have small := (v.setWidth 16).isLt
  rw [BitVec.signExtend_eq_setWidth_of_msb_false positive, BitVec.toNat_setWidth, Nat.mod_eq_of_lt]
  omega

theorem word_wide (v : BitVec 32) : (v.setWidth 64).toNat = v.toNat := by
  have small := v.isLt
  rw [BitVec.toNat_setWidth, Nat.mod_eq_of_lt]
  omega

theorem told_sound (buf : Nat → UInt8) (piece : Piece) (sound : piece.Sound) : piece.told buf = some piece.meant := by
  cases piece with
  | text s => rfl
  | str s => exact sound.elim
  | char v => rfl
  | short v => exact extended_prints buf (v.setWidth 16) (by decide)
  | dec v => exact extended_prints buf v (by decide)
  | hex v =>
      have prints := ulong_hex buf (v.setWidth 64)
      rw [word_wide] at prints
      exact prints
  | uchar v => exact congrArg some sound.symm
  | ushort v =>
      have same := half_nonneg v sound
      have small := (v.setWidth 16).isLt
      have prints := ulong_dec buf ((v.setWidth 16).signExtend 64) (tens_small _ (by omega))
      rw [same] at prints
      exact prints
  | udec v =>
      have same := word_wide v
      have small := v.isLt
      have prints := ulong_dec buf (v.setWidth 64) (tens_small _ (by omega))
      rw [same] at prints
      exact prints
  | long v => exact long_dec buf v sound
  | longhex v => exact ulong_hex buf v
  | longuns v => exact ulong_dec buf v sound
  | ulong v => exact ulong_dec buf v sound
  | ptr v => exact ulong_hex buf v

theorem tell_all_sound (buf : Nat → UInt8) (pieces : List Piece) (sound : ∀ piece ∈ pieces, piece.Sound) :
    tellAll buf pieces = some (pieces.flatMap Piece.meant) := by
  induction pieces with
  | nil => rfl
  | cons piece pieces ih =>
      have rest := ih fun other member => sound other (by simp [member])
      rw [tellAll, told_sound buf piece (sound piece (by simp)), rest]
      rfl

-- kprintf takes every format that fits its buffer apart into its directives, reads for
-- each the argument that it stands for, and prints for all of them what is told; where
-- every piece is sound this is what was meant.
theorem kprintf_prints (buf : Nat → UInt8) (pieces : List Piece) (written : ∀ piece ∈ pieces, piece.Written) (apart : Apart pieces)
    (fits : (pieces.flatMap Piece.code).length ≤ MAXPRINTFSTR - 2) :
    kprintf buf (pieces.flatMap Piece.code) (pieces.flatMap Piece.args) = tellAll buf pieces ∧
      ((∀ piece ∈ pieces, piece.Sound) →
        kprintf buf (pieces.flatMap Piece.code) (pieces.flatMap Piece.args) = some (pieces.flatMap Piece.meant)) := by
  have told : kprintf buf (pieces.flatMap Piece.code) (pieces.flatMap Piece.args) = tellAll buf pieces := by
    rw [kprintf, List.take_of_length_le fits]
    exact kprintfloop_pieces buf pieces written apart
  exact ⟨told, fun sound => told.trans (tell_all_sound buf pieces sound)⟩

theorem kprintf_prints_fault :
    kprintf (fun _ => 0) [108, 111, 119, 32, 37, 120, 44, 32, 112, 105, 100, 32, 37, 108, 100, 32, 37, 115] [.int 0xb8000, .long (-7), .str (some [105, 110])] =
        tellAll (fun _ => 0) [.text [108, 111, 119, 32], .hex 0xb8000, .text [44, 32, 112, 105, 100, 32], .long (-7), .text [32], .str (some [105, 110])] ∧
      ((∀ piece ∈ [Piece.text [108, 111, 119, 32], .hex 0xb8000, .text [44, 32, 112, 105, 100, 32], .long (-7), .text [32], .str (some [105, 110])],
          piece.Sound) →
        kprintf (fun _ => 0) [108, 111, 119, 32, 37, 120, 44, 32, 112, 105, 100, 32, 37, 108, 100, 32, 37, 115]
            [.int 0xb8000, .long (-7), .str (some [105, 110])] =
          some ([Piece.text [108, 111, 119, 32], .hex 0xb8000, .text [44, 32, 112, 105, 100, 32], .long (-7), .text [32], .str (some [105, 110])].flatMap
            Piece.meant)) :=
  kprintf_prints (fun _ => 0) [.text [108, 111, 119, 32], .hex 0xb8000, .text [44, 32, 112, 105, 100, 32], .long (-7), .text [32], .str (some [105, 110])]
    (by simp [Piece.Written, percent]) (by simp [Apart, Piece.greedy]) (by decide)

end OsZero.Kern.Kprintf

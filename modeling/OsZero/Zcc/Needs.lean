import OsZero.Zcc.Token

set_option autoImplicit false

namespace OsZero.Zcc

open Cstring

variable {α β : Type}

theorem bind_keeps (lim : Nat) (Post : β → Prop) (call : Except Stop α) (next : α → Except Stop β) (keeps : Keeps lim Post (call >>= next)) :
    Keeps lim (fun found => Keeps lim Post (next found)) call := by
  rcases call with stop | found
  · rcases stop with str | _ <;> exact keeps
  · exact keeps

theorem map_keeps (lim : Nat) (Post : β → Prop) (call : Except Stop α) (f : α → β) (keeps : Keeps lim Post (call.map f)) :
    Keeps lim (fun found => Post (f found)) call := by
  rcases call with stop | found
  · rcases stop with str | _ <;> exact keeps
  · exact keeps

-- There is a token, and str has stayed in front of lim.
def Made (lim : Nat) (got : Option Got) : Prop := ∃ found, got = some found ∧ found.str.high ≤ lim

theorem to_high (str : Cur) (pos : Nat) : str.high ≤ (str.to pos).high ∧ pos ≤ (str.to pos).high :=
  ⟨Nat.le_max_left _ _, Nat.le_max_right _ _⟩

theorem spaces_made (lim : Nat) (got : Option Got) (made : Keeps lim (Made lim) (spaces got)) : Made lim got := by
  cases got with
  | none =>
    obtain ⟨found, same, -⟩ := made
    contradiction
  | some got =>
    refine ⟨got, rfl, ?_⟩
    have behind := map_keeps lim _ _ _ made
    unfold skip at behind
    cases scanned : scan isspace got.linebuf (nlinebuf - got.str.pos) got.str.pos with
    | none =>
      rw [scanned] at behind
      exact behind.elim
    | some pos =>
      rw [scanned] at behind
      obtain ⟨found, same, high⟩ := behind
      cases same
      exact Nat.le_trans (to_high got.str pos).1 high

theorem zpptoken_made (linebuf : Nat → UInt8) (lim str : Nat) (made : Keeps lim (Made lim) (zccgettoken linebuf str)) :
    Keeps lim (Made lim) (zpptoken linebuf ⟨str, str⟩) :=
  keeps_mono lim _ _ (spaces_made lim) _ (bind_keeps lim _ _ _ made)

theorem starts_not (linebuf : Nat → UInt8) (str : Nat) (word : List UInt8) (i : Nat) (c : UInt8) (get : word[i]? = some c)
    (other : linebuf (str + i) ≠ c) : ¬starts linebuf str word = true :=
  fun found => other (starts_get linebuf str word found i c get)

theorem oper_first (c : UInt8) (oper : zccisoper c = true) : c.toNat < 128 ∧ toktab c = .none ∧ c ≠ code '*' := by
  simp only [zccisoper, List.contains_iff_mem, optab, List.mem_cons, List.not_mem_nil, or_false] at oper
  rcases oper with rfl | rfl | rfl | rfl | rfl | rfl | rfl | rfl | rfl | rfl | rfl | rfl <;> decide

theorem qualifiers_second : ∀ id ∈ qualifiers, ∃ c, ((text id.1).takeWhile isident)[1]? = some c ∧ c ≠ code 'h' := by
  intro id listed
  simp only [qualifiers, List.mem_cons, List.not_mem_nil, or_false] at listed
  rcases listed with rfl | rfl | rfl | rfl <;> exact ⟨_, rfl, by decide⟩

section
variable (linebuf : Nat → UInt8) (lim : Nat) (line : Ended linebuf lim)

theorem made_ascii (str : Nat) (made : Keeps lim (Made lim) (zpptoken linebuf ⟨str, str⟩)) : (linebuf str).toNat < 128 := by
  refine Nat.lt_of_not_le fun upper => ?_
  unfold zpptoken at made
  simp only at made
  rw [if_pos upper] at made
  exact made

theorem made_begins (str : Nat) (made : Keeps lim (Made lim) (zpptoken linebuf ⟨str, str⟩)) :
    toktab (linebuf str) ≠ .none ∨ linebuf str = code '*' ∨ zccisoper (linebuf str) ∨ linebuf str = code '#' ∨
      isfirst (linebuf str) ∨ isxdigit (linebuf str) := by
  by_contra none
  simp only [not_or] at none
  obtain ⟨table, star, oper, sharp, first, digit⟩ := none
  have letter : ∀ c word, word[0]? = some c → isfirst c = true → ¬starts linebuf str word = true :=
    fun c word head ident => starts_not linebuf str word 0 c head fun same : linebuf str = c => first (same ▸ ident)
  have notWide : ¬(linebuf str = code 'L' ∧ linebuf (str + 1) = squote) := fun wide => first (wide.1 ▸ by decide)
  have noqual : zccqualid linebuf str = some 0 := by rw [zccqualid, zccfindid, if_neg first]
  rw [zpptoken_live linebuf ⟨str, str⟩ (made_ascii linebuf lim str made) table, if_neg star, if_neg oper, if_neg sharp, if_neg notWide,
    if_neg (letter (code 't') (text "typedef") rfl rfl), if_neg (letter (code '_') (text "__attribute__") rfl rfl)] at made
  have plain : gettoken linebuf ⟨str, str⟩ = .ok none := by
    rw [gettoken_found linebuf ⟨str, str⟩ 0 noqual, if_neg (fun other : (0 : Nat) ≠ 0 => other rfl),
      if_neg (letter (code 's') (text "struct") rfl rfl), if_neg (letter (code 'u') (text "union") rfl rfl), if_neg first, if_neg digit]
  rw [plain] at made
  obtain ⟨found, same, -⟩ := made
  contradiction

include line

theorem made_opers (str : Nat) (before : str ≤ lim) (made : Keeps lim (Made lim) (zpptoken linebuf ⟨str, str⟩))
    (oper : zccisoper (linebuf str) = true) : (linebuf (runend zccisoper linebuf str)).toNat < 128 := by
  obtain ⟨ascii, table, star⟩ := oper_first (linebuf str) oper
  obtain ⟨pos, skipped, scanned, -⟩ := skip_some linebuf lim line zccisoper (by decide) str ⟨str, str⟩ ⟨Nat.le_refl str, before, before⟩
  rw [zpptoken_live linebuf ⟨str, str⟩ ascii (not_not.mpr table), if_neg star, if_pos oper, opers_skipped linebuf _ _ skipped] at made
  rw [runend_scan _ _ _ pos scanned]
  refine Nat.lt_of_not_le fun upper => ?_
  rw [if_pos (show 128 ≤ (linebuf (Cur.to ⟨str, str⟩ pos).pos).toNat from upper)] at made
  exact made

theorem made_sharp (str : Nat) (before : str ≤ lim) (made : Keeps lim (Made lim) (zpptoken linebuf ⟨str, str⟩)) (here : linebuf str = code '#') :
    Sharp linebuf lim (runend isspace linebuf (str + 1)) := by
  have within := within_add linebuf lim line str ⟨str, str⟩ ⟨Nat.le_refl str, before, before⟩ (here ▸ by decide)
  obtain ⟨pos, skipped, scanned, after, -⟩ := skip_some linebuf lim line isspace (by decide) (str + 1) (Cur.add ⟨str, str⟩ 1) within
  rw [runend_scan isspace linebuf (str + 1) pos scanned]
  intro parm found
  rw [zpptoken_live linebuf ⟨str, str⟩ (here ▸ by decide) (here ▸ by decide), if_neg (here ▸ by decide), if_neg (here ▸ by decide), if_pos here,
    sharp_skipped linebuf _ _ parm skipped found] at made
  have behind := map_keeps lim _ _ _ made
  by_cases define : parm = zppDefineDir
  · subst define
    exact .inl rfl
  by_cases none : parm = 0
  · rw [if_pos none]
    rw [if_neg define, if_neg (not_not.mpr none)] at behind
    split at behind
    all_goals
      obtain ⟨found, same, high⟩ := behind
      cases same
      exact Nat.le_trans (to_high _ _).2 high
  · rw [if_neg none]
    rw [if_neg define, if_pos none] at behind
    obtain ⟨found, same, high⟩ := behind
    cases same
    have twice : pos + parmlentab parm + parmlentab parm ≤ lim := Nat.le_trans (to_high _ _).2 high
    exact .inr (by omega)

theorem made_short (str : Nat) (before : str ≤ lim) (made : Keeps lim (Made lim) (zpptoken linebuf ⟨str, str⟩)) : Short linebuf lim str := by
  intro short
  have first : linebuf str = code 's' := starts_get linebuf str (text "short") short 0 (code 's') rfl
  have second : linebuf (str + 1) = code 'h' := starts_get linebuf str (text "short") short 1 (code 'h') rfl
  have others : ∀ word c, word[0]? = some c → code 's' ≠ c → ¬starts linebuf str word = true :=
    fun word c head other => starts_not linebuf str word 0 c head (show linebuf str ≠ c from first ▸ other)
  have notWide : ¬(linebuf str = code 'L' ∧ linebuf (str + 1) = squote) := fun wide => absurd (first.symm.trans wide.1) (by decide)
  have notStruct : ¬starts linebuf str (text "struct") = true := starts_not linebuf str (text "struct") 1 (code 't') rfl (second ▸ by decide)
  obtain ⟨parm, found⟩ := zccfindid_defined qualifiers linebuf str lim line.nul line.room before
  have noqual : parm = 0 := by
    by_contra some_id
    obtain ⟨id, listed, -, stop, -, same⟩ := zccfindid_some qualifiers linebuf str parm found some_id
    obtain ⟨c, get, other⟩ := qualifiers_second id listed
    exact other ((slice_get linebuf str stop 1 c (same ▸ get)).symm.trans second)
  have start : Within str lim ⟨str, str⟩ := ⟨Nat.le_refl str, before, before⟩
  obtain ⟨stop, skipped, scanned, -, -, after⟩ := skip_some linebuf lim line isident (by decide) str ⟨str, str⟩ start
  obtain ⟨pos, spaced, found_pos, -⟩ := skip_some linebuf lim line isspace (by decide) (str + 1) _ (after (first ▸ by decide))
  have type : zppgettype linebuf str = some (zccShort, 14) := by
    have notUnsigned := others (text "unsigned char") (code 'u') rfl (by decide)
    have notChar := others (text "char") (code 'c') rfl (by decide)
    have notUshort := others (text "unsigned short") (code 'u') rfl (by decide)
    simp [zppgettype, typenames, notUnsigned, notChar, notUshort, short]
  rw [runend_scan isident linebuf str stop scanned, runend_scan isspace linebuf stop pos found_pos]
  by_cases label : linebuf stop = code ':'
  · exact .inl label
  by_cases func : linebuf pos = code '('
  · exact .inr (.inl func)
  rw [zpptoken_live linebuf ⟨str, str⟩ (first ▸ by decide) (first ▸ by decide), if_neg (first ▸ by decide), if_neg (first ▸ by decide),
    if_neg (first ▸ by decide), if_neg notWide, if_neg (others (text "typedef") (code 't') rfl (by decide)),
    if_neg (others (text "__attribute__") (code '_') rfl (by decide)), gettoken_found linebuf ⟨str, str⟩ parm found,
    if_neg (not_not.mpr noqual), if_neg notStruct, if_neg (others (text "union") (code 'u') rfl (by decide)), if_pos (first ▸ by decide),
    word_skipped linebuf _ _ skipped, if_neg (show ¬linebuf (Cur.to _ stop).pos = code ':' from label), name_skipped linebuf _ _ _ spaced,
    if_neg (show ¬linebuf (Cur.to _ pos).pos = code '(' from func), type] at made
  obtain ⟨got, same, high⟩ := made
  cases same
  exact .inr (.inr (Nat.le_trans (to_high _ _).2 high))

theorem supported_iff (str : Nat) (before : str ≤ lim) : Keeps lim (Made lim) (zccgettoken linebuf str) ↔ Supported linebuf lim str := by
  constructor
  · intro keeps
    have made := zpptoken_made linebuf lim str keeps
    exact ⟨made_ascii linebuf lim str made, made_begins linebuf lim str made, made_opers linebuf lim line str before made,
      made_sharp linebuf lim line str before made, made_short linebuf lim line str before made⟩
  · intro supported
    refine keeps_mono lim _ _ ?_ _ (zccgettoken_keeps linebuf lim line str before supported)
    rintro _ ⟨found, rfl, within, -⟩
    exact ⟨found, rfl, within.high⟩

end

end OsZero.Zcc

import OsZero.Zcc.Ident
import Mathlib.Data.List.Find
import Mathlib.Data.List.Infix
import Mathlib.Data.List.TakeWhile

set_option autoImplicit false

namespace OsZero.Zcc.Idtrie

open Cstring

def nstrtablvl : Nat := 64

def zccNone : Int := 0

-- A level table is named by the codes on the way to it, an entry by these and its own code.
structure Strtab where
  val : List Nat → Int
  ptr : List Nat → Bool

def calloc (tab : Strtab) (entry : List Nat) : Strtab where
  val := fun other => if other ≠ [] ∧ other.dropLast = entry then 0 else tab.val other
  ptr := fun other => if other = entry then true else if other ≠ [] ∧ other.dropLast = entry then false else tab.ptr other

def addloop (tab : Strtab) (ptr1 : List Nat) : List UInt8 → Option (Strtab × List Nat)
  | [] => some (tab, ptr1)
  | c :: str =>
      if isident c then
        let ch := chvaltab c
        let tab := if tab.ptr ptr1 then tab else calloc tab ptr1
        if ch < nstrtablvl then addloop tab (ptr1 ++ [ch]) str else none
      else some (tab, ptr1)

def zccaddid (tab : Strtab) (str : List UInt8) (val : Int) : Option Strtab :=
  if isfirst (str.headD 0) then
    let ch := chvaltab (str.headD 0)
    if ch < nstrtablvl then (addloop tab [ch] str.tail).map fun done => { done.1 with val := Function.update done.1.val done.2 val } else none
  else some tab

def findloop (tab : Strtab) (ptr1 : List Nat) : List UInt8 → Option Int
  | [] => some (tab.val ptr1)
  | c :: str =>
      if isident c then
        let ch := chvaltab c
        if tab.ptr ptr1 then if ch < nstrtablvl then findloop tab (ptr1 ++ [ch]) str else none
        else some zccNone
      else some (tab.val ptr1)

def zccfindid (tab : Strtab) (str : List UInt8) : Option Int :=
  if isfirst (str.headD 0) then
    let ch := chvaltab (str.headD 0)
    if ch < nstrtablvl then if tab.ptr [ch] then findloop tab [ch] str.tail else some zccNone
    else none
  else some zccNone

-- An identifier and its value.
abbrev Added := List UInt8 × Int

def run (adds : List Added) : Option Strtab := adds.foldlM (fun tab add => zccaddid tab add.1 add.2) ⟨fun _ => 0, fun _ => false⟩

-- The value that was added last for exactly the identifier at the start of str.
def lastval (adds : List Added) (str : List UInt8) : Int :=
  if isfirst (str.headD 0) then ((adds.reverse.find? fun add => add.1 = str.takeWhile isident).map Prod.snd).getD zccNone else zccNone

def Identifier (str : List UInt8) : Prop := isfirst (str.headD 0) = true ∧ ∀ c ∈ str, isident c = true

-- An identifier of one letter with no longer one behind the letter.
def Alone (adds : List Added) (str : List UInt8) : Prop :=
  ∃ c, isfirst (str.headD 0) = true ∧ str.takeWhile isident = [c] ∧ (∃ add ∈ adds, add.1 = [c]) ∧ ∀ add ∈ adds, add.1.headD 0 = c → add.1 = [c]

section Codes

theorem ident_cases (c : UInt8) (ident : isident c = true) :
    (48 ≤ c.toNat ∧ c.toNat ≤ 57 ∧ chvaltab c = c.toNat - 48) ∨ (65 ≤ c.toNat ∧ c.toNat ≤ 90 ∧ chvaltab c = c.toNat - 54) ∨
      (c.toNat = 95 ∧ chvaltab c = 37) ∨ 97 ≤ c.toNat ∧ c.toNat ≤ 122 ∧ chvaltab c = c.toNat - 59 := by
  have under : (code '_').toNat = 95 := rfl
  have among : (65 ≤ c.toNat ∧ c.toNat ≤ 90 ∨ 97 ≤ c.toNat ∧ c.toNat ≤ 122) ∨ (48 ≤ c.toNat ∧ c.toNat ≤ 57) ∨ c.toNat = 95 := by
    simp only [isident, isalnum, isalpha, isdigit, Bool.or_eq_true, decide_eq_true_eq, ← UInt8.toNat_inj, under] at ident
    omega
  simp only [chvaltab, isdigit, decide_eq_true_eq, ← UInt8.toNat_inj, under]
  obtain (upper | lower) | digit | same := among
  · refine .inr (.inl ⟨upper.1, upper.2, ?_⟩)
    split_ifs <;> omega
  · refine .inr (.inr (.inr ⟨lower.1, lower.2, ?_⟩))
    split_ifs <;> omega
  · exact .inl ⟨digit.1, digit.2, if_pos digit⟩
  · refine .inr (.inr (.inl ⟨same, ?_⟩))
    split_ifs <;> omega

theorem chvaltab_less (c : UInt8) (ident : isident c = true) : chvaltab c < nstrtablvl := by
  have bound : nstrtablvl = 64 := rfl
  rcases ident_cases c ident with digit | upper | under | lower <;> omega

-- The character of a code.
def character (ch : Nat) : Nat := if ch < 10 then ch + 48 else if ch < 37 then ch + 54 else if ch = 37 then 95 else ch + 59

theorem character_chvaltab (c : UInt8) (ident : isident c = true) : character (chvaltab c) = c.toNat := by
  unfold character
  rcases ident_cases c ident with digit | upper | under | lower <;> split_ifs <;> omega

theorem chvaltab_inj (c d : UInt8) (first : isident c = true) (second : isident d = true) (same : chvaltab c = chvaltab d) : c = d := by
  rw [← UInt8.toNat_inj, ← character_chvaltab c first, ← character_chvaltab d second, same]

def codes (word : List UInt8) : List Nat := word.map chvaltab

theorem codes_inj (word other : List UInt8) (first : ∀ c ∈ word, isident c = true) (second : ∀ c ∈ other, isident c = true)
    (same : codes word = codes other) : word = other := by
  induction word generalizing other with
  | nil => exact (List.map_eq_nil_iff.mp same.symm).symm
  | cons c word ih =>
    cases other with
    | nil => exact (List.cons_ne_nil _ _ same).elim
    | cons d other =>
      obtain ⟨head, tail⟩ := List.cons.inj same
      rw [chvaltab_inj c d (first c List.mem_cons_self) (second d List.mem_cons_self) head,
        ih other (fun e member => first e (List.mem_cons_of_mem _ member)) (fun e member => second e (List.mem_cons_of_mem _ member)) tail]

theorem ident_takeWhile (str : List UInt8) : ∀ c ∈ str.takeWhile isident, isident c = true := fun _ member => List.mem_takeWhile_imp member

end Codes

section Entries

-- The value of an entry and whether a table hangs on it, the newest addition first.
def value (older : List Added) (entry : List Nat) : Int := ((older.find? fun add => codes add.1 = entry).map Prod.snd).getD zccNone

def Inner (word entry : List Nat) : Prop := entry ≠ [] ∧ entry <+: word ∧ entry ≠ word

def Used (older : List Added) (entry : List Nat) : Prop := ∃ add ∈ older, Inner (codes add.1) entry

-- The tables while an identifier is added, of which the entry is reached.
structure Mid (older : List Added) (entry : List Nat) (tab : Strtab) : Prop where
  val : tab.val = value older
  ptr : ∀ other, tab.ptr other = true ↔ Used older other ∨ Inner entry other

theorem value_cons (add : Added) (older : List Added) (entry : List Nat) :
    value (add :: older) entry = if entry = codes add.1 then add.2 else value older entry := by
  by_cases here : entry = codes add.1
  · rw [if_pos here, value, List.find?_cons_of_pos (by exact decide_eq_true here.symm)]
    rfl
  · rw [if_neg here, value, List.find?_cons_of_neg (by rw [decide_eq_true_eq]; exact Ne.symm here)]
    rfl

-- Nothing was added behind an entry that no table hangs on.
theorem value_unused (older : List Added) (entry more : List Nat) (some_entry : entry ≠ []) (some_more : more ≠ []) (unused : ¬Used older entry) :
    value older (entry ++ more) = zccNone := by
  have missing : (older.find? fun add => codes add.1 = entry ++ more) = none := by
    refine List.find?_eq_none.mpr fun add member same => unused ⟨add, member, some_entry, ?_, fun whole => ?_⟩
    · exact ⟨more, (of_decide_eq_true same).symm⟩
    · exact some_more (List.self_eq_append_right.mp (whole.trans (of_decide_eq_true same)))
  rw [value, missing]
  rfl

theorem used_unused (older : List Added) (entry more : List Nat) (some_entry : entry ≠ []) (some_more : more ≠ []) (unused : ¬Used older entry) :
    ¬Used older (entry ++ more) := by
  rintro ⟨add, member, -, inside, -⟩
  refine unused ⟨add, member, some_entry, (List.prefix_append entry more).trans inside, fun whole => ?_⟩
  have long := inside.length_le
  rw [← whole, List.length_append] at long
  have positive := List.length_pos_iff.mpr some_more
  omega

theorem inner_child (entry other : List Nat) (ch : Nat) (some_entry : entry ≠ []) : Inner (entry ++ [ch]) other ↔ Inner entry other ∨ other = entry := by
  constructor
  · rintro ⟨some_other, inside, part⟩
    rcases List.prefix_concat_iff.mp inside with whole | before
    · exact absurd whole part
    · by_cases same : other = entry
      · exact .inr same
      · exact .inl ⟨some_other, before, same⟩
  · rintro (⟨some_other, inside, part⟩ | rfl)
    · refine ⟨some_other, inside.trans (List.prefix_append ..), fun whole => ?_⟩
      have long := inside.length_le
      rw [whole, List.length_append, List.length_singleton] at long
      omega
    · exact ⟨some_entry, List.prefix_append .., fun whole => absurd (List.self_eq_append_right.mp whole) (List.cons_ne_nil _ _)⟩

-- The empty entries of a new table have no value and no table.
theorem calloc_mid (older : List Added) (entry : List Nat) (tab : Strtab) (ch : Nat) (some_entry : entry ≠ []) (mid : Mid older entry tab) :
    Mid older (entry ++ [ch]) (if tab.ptr entry then tab else calloc tab entry) := by
  cases there : tab.ptr entry with
  | true =>
    refine ⟨mid.val, fun other => ?_⟩
    rw [if_pos rfl, mid.ptr, inner_child entry other ch some_entry]
    constructor
    · exact Or.imp_right .inl
    · rintro (used | inner | rfl)
      · exact .inl used
      · exact .inr inner
      · exact (mid.ptr other).mp there
  | false =>
    have unused : ¬Used older entry := fun used => Bool.false_ne_true (there.symm.trans ((mid.ptr entry).mpr (.inl used)))
    have child : ∀ other, other ≠ [] ∧ other.dropLast = entry → ∃ last, other = entry ++ [last] := by
      rintro other ⟨some_other, same⟩
      exact ⟨other.getLast some_other, (same ▸ List.dropLast_append_getLast some_other).symm⟩
    rw [if_neg Bool.false_ne_true]
    refine ⟨?_, fun other => ?_⟩
    · rw [calloc, ← mid.val]
      funext other
      by_cases below : other ≠ [] ∧ other.dropLast = entry
      · obtain ⟨last, rfl⟩ := child other below
        rw [mid.val, value_unused older entry [last] some_entry (List.cons_ne_nil _ _) unused]
        exact if_pos below
      · exact if_neg below
    · rw [inner_child entry other ch some_entry, calloc]
      dsimp only
      split_ifs with here below
      · exact iff_of_true rfl (.inr (.inr here))
      · obtain ⟨last, rfl⟩ := child other below
        refine iff_of_false not_false ?_
        rintro (used | ⟨-, inside, -⟩ | same)
        · exact used_unused older entry [last] some_entry (List.cons_ne_nil _ _) unused used
        · have long := inside.length_le
          rw [List.length_append, List.length_singleton] at long
          omega
        · exact here same
      · rw [mid.ptr]
        constructor
        · exact Or.imp_right .inl
        · rintro (used | inner | same)
          · exact .inl used
          · exact .inr inner
          · exact absurd same here

theorem addloop_mid (older : List Added) (str : List UInt8) (entry : List Nat) (tab : Strtab) (some_entry : entry ≠ []) (ident : ∀ c ∈ str, isident c = true)
    (mid : Mid older entry tab) : ∃ after, addloop tab entry str = some (after, entry ++ codes str) ∧ Mid older (entry ++ codes str) after := by
  induction str generalizing entry tab with
  | nil => exact ⟨tab, by rw [addloop, codes, List.map_nil, List.append_nil], by rw [codes, List.map_nil, List.append_nil]; exact mid⟩
  | cons c str ih =>
    have first := ident c List.mem_cons_self
    obtain ⟨after, done, kept⟩ := ih (entry ++ [chvaltab c]) _ (List.append_ne_nil_of_left_ne_nil some_entry _)
      (fun d member => ident d (List.mem_cons_of_mem _ member)) (calloc_mid older entry tab (chvaltab c) some_entry mid)
    have whole : entry ++ codes (c :: str) = entry ++ [chvaltab c] ++ codes str := by rw [List.append_assoc]; rfl
    refine ⟨after, ?_, whole ▸ kept⟩
    rw [whole, addloop, if_pos first]
    dsimp only
    rw [if_pos (chvaltab_less c first)]
    exact done

end Entries

section Runs

structure Kept (older : List Added) (tab : Strtab) : Prop where
  val : tab.val = value older
  ptr : ∀ other, tab.ptr other = true ↔ Used older other

theorem start_kept : Kept [] ⟨fun _ => 0, fun _ => false⟩ := by
  refine ⟨rfl, fun other => iff_of_false Bool.false_ne_true ?_⟩
  rintro ⟨add, none, -⟩
  exact absurd none List.not_mem_nil

theorem zccaddid_kept (older : List Added) (tab : Strtab) (add : Added) (identifier : Identifier add.1) (kept : Kept older tab) :
    ∃ after, zccaddid tab add.1 add.2 = some after ∧ Kept (add :: older) after := by
  obtain ⟨str, val⟩ := add
  cases str with
  | nil =>
    have letter : isfirst 0 = true := identifier.1
    exact absurd letter (by decide)
  | cons c str =>
    have first := identifier.2 c List.mem_cons_self
    have mid : Mid older [chvaltab c] tab := by
      refine ⟨kept.val, fun other => (kept.ptr other).trans ⟨.inl, ?_⟩⟩
      rintro (used | ⟨some_other, inside, part⟩)
      · exact used
      · rcases List.prefix_concat_iff.mp (List.nil_append [chvaltab c] ▸ inside) with whole | before
        · exact absurd whole part
        · exact absurd (List.prefix_nil.mp before) some_other
    obtain ⟨after, done, made⟩ := addloop_mid older str [chvaltab c] tab (List.cons_ne_nil _ _) (fun d member => identifier.2 d (List.mem_cons_of_mem _ member)) mid
    refine ⟨{ after with val := Function.update after.val (codes (c :: str)) val }, ?_, ?_, fun other => ?_⟩
    · have head : (c :: str).headD 0 = c := rfl
      rw [zccaddid, if_pos identifier.1, head]
      dsimp only
      rw [if_pos (chvaltab_less c first), List.tail_cons, done]
      rfl
    · funext other
      rw [value_cons, made.val]
      by_cases here : other = codes (c :: str)
      · rw [if_pos here, here]
        exact Function.update_self ..
      · rw [if_neg here]
        exact Function.update_of_ne here ..
    · refine (made.ptr other).trans ⟨?_, ?_⟩
      · rintro (⟨add, member, inner⟩ | inner)
        · exact ⟨add, List.mem_cons_of_mem _ member, inner⟩
        · exact ⟨(c :: str, val), List.mem_cons_self, inner⟩
      · rintro ⟨add, member, inner⟩
        rcases List.mem_cons.mp member with rfl | before
        · exact .inr inner
        · exact .inl ⟨add, before, inner⟩

theorem run_kept (adds : List Added) (tab : Strtab) (older : List Added) (identifiers : ∀ add ∈ adds, Identifier add.1) (kept : Kept older tab) :
    ∃ after, adds.foldlM (fun tab add => zccaddid tab add.1 add.2) tab = some after ∧ Kept (adds.reverse ++ older) after := by
  induction adds generalizing tab older with
  | nil => exact ⟨tab, rfl, kept⟩
  | cons add adds ih =>
    obtain ⟨next, added, keeps⟩ := zccaddid_kept older tab add (identifiers add List.mem_cons_self) kept
    obtain ⟨after, done, final⟩ := ih next (add :: older) (fun other member => identifiers other (List.mem_cons_of_mem _ member)) keeps
    refine ⟨after, ?_, ?_⟩
    · rw [List.foldlM_cons, added]
      exact done
    · rw [List.reverse_cons, List.append_assoc]
      exact final

theorem findloop_value (older : List Added) (tab : Strtab) (kept : Kept older tab) (str : List UInt8) (entry : List Nat) (some_entry : entry ≠ []) :
    findloop tab entry str = some (value older (entry ++ codes (str.takeWhile isident))) := by
  induction str generalizing entry with
  | nil => rw [findloop, kept.val, List.takeWhile_nil, codes, List.map_nil, List.append_nil]
  | cons c str ih =>
    rw [findloop]
    cases first : isident c with
    | false =>
      rw [if_neg Bool.false_ne_true, kept.val, List.takeWhile_cons_of_neg (by rw [first]; exact Bool.false_ne_true), codes, List.map_nil, List.append_nil]
    | true =>
      have whole : entry ++ codes (c :: str.takeWhile isident) = entry ++ [chvaltab c] ++ codes (str.takeWhile isident) := by
        rw [List.append_assoc]
        rfl
      rw [if_pos rfl, List.takeWhile_cons_of_pos first]
      dsimp only
      by_cases used : Used older entry
      · rw [if_pos ((kept.ptr entry).mpr used), if_pos (chvaltab_less c first), ih _ (List.append_ne_nil_of_left_ne_nil some_entry _), whole]
      · have some_more : codes (c :: str.takeWhile isident) ≠ [] := List.cons_ne_nil _ _
        rw [if_neg fun there => used ((kept.ptr entry).mp there), value_unused older entry _ some_entry some_more used]

-- What the lookup of an identifier gives.
theorem zccfindid_value (older : List Added) (tab : Strtab) (kept : Kept older tab) (c : UInt8) (str : List UInt8) (letter : isfirst c = true)
    [Decidable (Used older [chvaltab c])] :
    zccfindid tab (c :: str) = some (if Used older [chvaltab c] then value older (codes (c :: str.takeWhile isident)) else zccNone) := by
  have head : (c :: str).headD 0 = c := rfl
  rw [zccfindid, head, if_pos letter]
  dsimp only
  rw [if_pos (chvaltab_less c (isident_of_first c letter)), List.tail_cons]
  by_cases used : Used older [chvaltab c]
  · rw [if_pos ((kept.ptr _).mpr used), if_pos used, findloop_value older tab kept str _ (List.cons_ne_nil _ _)]
    rfl
  · rw [if_neg fun there => used ((kept.ptr _).mp there), if_neg used]

theorem value_word (older : List Added) (word : List UInt8) (identifiers : ∀ add ∈ older, Identifier add.1) (ident : ∀ c ∈ word, isident c = true) :
    value older (codes word) = ((older.find? fun add => add.1 = word).map Prod.snd).getD zccNone := by
  rw [value]
  refine congrArg (fun found => (Option.map Prod.snd found).getD zccNone) (List.find?_congr fun add member => ?_)
  refine decide_eq_decide.mpr ⟨fun same => ?_, fun same => same ▸ rfl⟩
  exact codes_inj add.1 word (identifiers add member).2 ident same

-- A value that is there is not ZCC_NONE.
theorem value_none (older : List Added) (word : List UInt8) (vals : ∀ add ∈ older, add.2 ≠ zccNone) :
    ((older.find? fun add => add.1 = word).map Prod.snd).getD zccNone = zccNone ↔ ∀ add ∈ older, add.1 ≠ word := by
  cases found : older.find? fun add => add.1 = word with
  | none =>
    refine iff_of_true rfl fun add member same => ?_
    exact List.find?_eq_none.mp found add member (decide_eq_true same)
  | some add =>
    have member := List.mem_of_find?_eq_some found
    have same : add.1 = word := of_decide_eq_true (List.find?_some (p := fun add : Added => decide (add.1 = word)) found)
    exact iff_of_false (vals add member) fun none => none add member same

-- A table hangs on a letter that an identifier goes on behind.
theorem used_letter (older : List Added) (identifiers : ∀ add ∈ older, Identifier add.1) (c : UInt8) (ident : isident c = true) :
    Used older [chvaltab c] ↔ ∃ add ∈ older, add.1.headD 0 = c ∧ add.1 ≠ [c] := by
  constructor
  · rintro ⟨add, member, -, ⟨rest, inside⟩, part⟩
    refine ⟨add, member, ?_, fun same => part (by rw [same]; rfl)⟩
    have idents := (identifiers add member).2
    cases chars : add.1 with
    | nil =>
      rw [chars] at inside
      contradiction
    | cons d str =>
      rw [chars] at inside idents
      have head := (List.cons.inj inside).1
      exact (chvaltab_inj c d ident (idents d List.mem_cons_self) head).symm
  · rintro ⟨add, member, head, longer⟩
    obtain ⟨letter, idents⟩ := identifiers add member
    have single : ∀ d ∈ [c], isident d = true := fun d same => List.mem_singleton.mp same ▸ ident
    refine ⟨add, member, List.cons_ne_nil _ _, ?_, fun whole => longer (codes_inj add.1 [c] idents single whole.symm)⟩
    cases chars : add.1 with
    | nil =>
      rw [chars] at letter
      exact absurd (show isfirst 0 = true from letter) (by decide)
    | cons d str =>
      rw [chars] at head
      have same : d = c := head
      exact ⟨codes str, by rw [same]; rfl⟩

theorem zccfindid_iff (adds : List Added) (tab : Strtab) (str : List UInt8) (identifiers : ∀ add ∈ adds, Identifier add.1)
    (vals : ∀ add ∈ adds, add.2 ≠ zccNone) (kept : Kept adds.reverse tab) : zccfindid tab str = some (lastval adds str) ↔ ¬Alone adds str := by
  have others : isfirst (str.headD 0) = false → (zccfindid tab str = some (lastval adds str) ↔ ¬Alone adds str) := by
    intro other
    refine iff_of_true (by rw [zccfindid, lastval, other]; rfl) ?_
    rintro ⟨c, letter, -⟩
    exact Bool.false_ne_true (other.symm.trans letter)
  cases str with
  | nil => exact others rfl
  | cons c str =>
    cases letter : isfirst c with
    | false => exact others letter
    | true =>
      have ident := isident_of_first c letter
      have word : (c :: str).takeWhile isident = c :: str.takeWhile isident := List.takeWhile_cons_of_pos ident
      have reversed : ∀ add ∈ adds.reverse, Identifier add.1 := fun add member => identifiers add (List.mem_reverse.mp member)
      have spec : lastval adds (c :: str) = value adds.reverse (codes (c :: str.takeWhile isident)) := by
        rw [← word, value_word adds.reverse _ reversed (ident_takeWhile _), lastval]
        exact if_pos letter
      have none := value_none adds.reverse (c :: str.takeWhile isident) fun add member => vals add (List.mem_reverse.mp member)
      rw [← value_word adds.reverse _ reversed (by rw [← word]; exact ident_takeWhile _)] at none
      classical
      rw [zccfindid_value adds.reverse tab kept c str letter, spec, Option.some_inj]
      have used := used_letter adds.reverse reversed c ident
      by_cases hangs : Used adds.reverse [chvaltab c]
      · rw [if_pos hangs]
        refine iff_of_true rfl ?_
        rintro ⟨d, -, single, -, only⟩
        obtain ⟨rfl, -⟩ := List.cons.inj (word.symm.trans single)
        obtain ⟨add, member, head, longer⟩ := used.mp hangs
        exact longer (only add (List.mem_reverse.mp member) head)
      · rw [if_neg hangs]
        have only : ∀ add ∈ adds.reverse, add.1.headD 0 = c → add.1 = [c] := by
          intro add member head
          by_contra longer
          exact hangs (used.mpr ⟨add, member, head, longer⟩)
        rw [eq_comm, none]
        constructor
        · rintro absent ⟨d, -, single, ⟨add, member, same⟩, -⟩
          refine absent add (List.mem_reverse.mpr member) ?_
          rw [same, ← single, word]
        · intro clear add member same
          have single := only add member (by rw [same]; rfl)
          refine clear ⟨c, letter, ?_, ⟨add, List.mem_reverse.mp member, single⟩, fun other inside => only other (List.mem_reverse.mpr inside)⟩
          rw [word, ← same, single]

end Runs

end OsZero.Zcc.Idtrie

import OsZero.Lib.Cstring

set_option autoImplicit false

namespace OsZero.Zcc

open Cstring

def nlinebuf : Nat := 4096

def nstrhash : Nat := 4096

def zccExternQual : Nat := 0x01
def zccStaticQual : Nat := 0x02
def zccConstQual : Nat := 0x03
def zccVolatileQual : Nat := 0x04
def zppIfDir : Nat := 0x05
def zppElifDir : Nat := 0x06
def zppElseDir : Nat := 0x07
def zppEndifDir : Nat := 0x08
def zppIfdefDir : Nat := 0x09
def zppIfndefDir : Nat := 0x0a
def zppDefineDir : Nat := 0x0b
def zppUndefDir : Nat := 0x0c

def parmlentab (parm : Nat) : Nat := [0, 6, 6, 5, 8, 2, 4, 4, 5, 5, 6, 6, 5].getD parm 0

def chvaltab (c : UInt8) : Nat :=
  if isdigit c then c.toNat - 48
  else if 64 ≤ c.toNat ∧ c.toNat ≤ 90 then c.toNat - 64 + 0x0a
  else if c = code '_' then 0x25
  else if 97 ≤ c.toNat ∧ c.toNat ≤ 122 then c.toNat - 97 + 0x26
  else 0xffff

def isfirst (c : UInt8) : Bool := isalpha c || c = code '_'

def isident (c : UInt8) : Bool := isalnum c || c = code '_'

structure Hashstr where
  str : List UInt8
  val : Nat

-- Each chain has its newest item first.
abbrev Hashtab := Nat → List Hashstr

-- Only the low bits of the key are kept, so it does not matter that it is a long.
def hashkey (word : List UInt8) : Nat := word.foldl (fun key c => key * 8 + chvaltab c) 0 % nstrhash

def zccaddid (tab : Hashtab) (str : List UInt8) (val : Nat) : Hashtab :=
  if isfirst (str.headD 0) then
    let word := str.takeWhile isident
    Function.update tab (hashkey word) (⟨word, val⟩ :: tab (hashkey word))
  else tab

-- strncmp is over the length of the word, so an item that goes on behind it
-- ends the search as well.
def chainval (items : List Hashstr) (word : List UInt8) : Nat :=
  match items.find? fun item => word.isPrefixOf item.str with
  | some item => if item.str.length = word.length then item.val else 0
  | none => 0

def zccfindid (tab : Hashtab) (linebuf : Nat → UInt8) (str : Nat) : Option Nat :=
  if isfirst (linebuf str) then
    (scan isident linebuf (nlinebuf - str) str).map fun lim =>
      chainval (tab (hashkey (slice linebuf str lim))) (slice linebuf str lim)
  else some 0

def hashtab (ids : List (String × Nat)) : Hashtab := ids.foldl (fun tab id => zccaddid tab (text id.1) id.2) fun _ => []

def qualifiers : List (String × Nat) :=
  [("extern", zccExternQual), ("static", zccStaticQual), ("const", zccConstQual), ("volatile", zccVolatileQual)]

def directives : List (String × Nat) :=
  [("ifdef", zppIfdefDir), ("elif", zppElifDir), ("else", zppElseDir), ("endif", zppEndifDir), ("ifndef", zppIfndefDir), ("if", zppIfDir),
    ("define", zppDefineDir), ("undef", zppUndefDir)]

def qualhash : Hashtab := hashtab qualifiers

def preprochash : Hashtab := hashtab directives

def zccqualid (linebuf : Nat → UInt8) (str : Nat) : Option Nat := zccfindid qualhash linebuf str

def zccpreprocid (linebuf : Nat → UInt8) (str : Nat) : Option Nat := zccfindid preprochash linebuf str

theorem isident_of_first (c : UInt8) (first : isfirst c = true) : isident c = true := by
  unfold isfirst at first
  unfold isident isalnum
  cases letter : isalpha c with
  | true => rfl
  | false =>
    rw [letter, Bool.false_or] at first
    rw [first, Bool.or_true]

def Registered (ids : List (String × Nat)) (item : Hashstr) : Prop :=
  ∃ id ∈ ids, item = ⟨(text id.1).takeWhile isident, id.2⟩

theorem zccaddid_mem (tab : Hashtab) (str : List UInt8) (val key : Nat) (item : Hashstr) (inside : item ∈ zccaddid tab str val key) :
    item = ⟨str.takeWhile isident, val⟩ ∨ item ∈ tab key := by
  unfold zccaddid at inside
  split at inside
  · by_cases here : key = hashkey (str.takeWhile isident)
    · subst here
      rw [Function.update_self, List.mem_cons] at inside
      exact inside
    · rw [Function.update_of_ne here] at inside
      exact .inr inside
  · exact .inr inside

theorem hashtab_mem (ids : List (String × Nat)) (key : Nat) (item : Hashstr) (inside : item ∈ hashtab ids key) : Registered ids item := by
  suffices all : ∀ (ids : List (String × Nat)) (tab : Hashtab), item ∈ ids.foldl (fun tab id => zccaddid tab (text id.1) id.2) tab key →
      Registered ids item ∨ item ∈ tab key by
    exact (all ids (fun _ => []) inside).resolve_right List.not_mem_nil
  intro ids
  induction ids with
  | nil => exact fun tab inside => .inr inside
  | cons id ids ih =>
    intro tab inside
    obtain ⟨other, listed, rfl⟩ | before := ih _ inside
    · exact .inl ⟨other, List.mem_cons_of_mem id listed, rfl⟩
    · obtain rfl | before := zccaddid_mem tab (text id.1) id.2 key item before
      · exact .inl ⟨id, List.mem_cons_self, rfl⟩
      · exact .inr before

theorem chainval_some (items : List Hashstr) (word : List UInt8) (found : chainval items word ≠ 0) :
    ∃ item ∈ items, item.val = chainval items word ∧ item.str = word := by
  unfold chainval at found ⊢
  cases search : items.find? fun item => word.isPrefixOf item.str with
  | none => simp [search] at found
  | some item =>
    simp only [search] at found ⊢
    by_cases same : item.str.length = word.length
    · have start : word <+: item.str := List.isPrefixOf_iff_prefix.mp (List.find?_some (p := fun item : Hashstr => word.isPrefixOf item.str) search)
      exact ⟨item, List.mem_of_find?_eq_some search, by rw [if_pos same], (start.eq_of_length same.symm).symm⟩
    · rw [if_neg same] at found
      contradiction

-- The word found is the one that the value is registered for.
theorem zccfindid_some (ids : List (String × Nat)) (linebuf : Nat → UInt8) (str val : Nat)
    (found : zccfindid (hashtab ids) linebuf str = some val) (some_id : val ≠ 0) :
    ∃ id ∈ ids, id.2 = val ∧ ∃ lim, scan isident linebuf (nlinebuf - str) str = some lim ∧
      slice linebuf str lim = (text id.1).takeWhile isident := by
  unfold zccfindid at found
  split at found
  · obtain ⟨lim, scanned, rfl⟩ := Option.map_eq_some_iff.mp found
    obtain ⟨item, inside, val, same⟩ := chainval_some _ _ some_id
    obtain ⟨id, listed, rfl⟩ := hashtab_mem ids _ item inside
    exact ⟨id, listed, val, lim, scanned, same.symm⟩
  · exact absurd (Option.some.inj found).symm some_id

theorem parmlentab_qualifiers : ∀ id ∈ qualifiers, parmlentab id.2 = ((text id.1).takeWhile isident).length := by decide +kernel

theorem parmlentab_positive : ∀ id ∈ qualifiers, 0 < parmlentab id.2 := by decide

theorem parmlentab_directives : ∀ id ∈ directives, parmlentab id.2 = ((text id.1).takeWhile isident).length := by decide +kernel

-- Every length in parmlentab is that of the word it is for.
theorem zccfindid_length (ids : List (String × Nat)) (lengths : ∀ id ∈ ids, parmlentab id.2 = ((text id.1).takeWhile isident).length)
    (linebuf : Nat → UInt8) (str lim val : Nat) (nul : linebuf lim = 0) (room : lim < nlinebuf) (before : str ≤ lim)
    (found : zccfindid (hashtab ids) linebuf str = some val) : str + parmlentab val ≤ lim := by
  by_cases some_id : val = 0
  · subst some_id
    exact before
  · obtain ⟨id, listed, rfl, pos, scanned, same⟩ := zccfindid_some ids linebuf str val found some_id
    have stop : isident (linebuf lim) = false := by
      rw [nul]
      rfl
    obtain ⟨other, again, low, high, -⟩ := scan_stops isident linebuf (nlinebuf - str) str lim stop before (by omega)
    rw [scanned] at again
    cases again
    have table := lengths id listed
    rw [← same, slice_length] at table
    omega

theorem zccfindid_defined (ids : List (String × Nat)) (linebuf : Nat → UInt8) (str lim : Nat) (nul : linebuf lim = 0)
    (room : lim < nlinebuf) (before : str ≤ lim) : ∃ val, zccfindid (hashtab ids) linebuf str = some val := by
  unfold zccfindid
  split
  · have stop : isident (linebuf lim) = false := by
      rw [nul]
      rfl
    obtain ⟨pos, found, -⟩ := scan_stops isident linebuf (nlinebuf - str) str lim stop before (by omega)
    rw [found]
    exact ⟨_, rfl⟩
  · exact ⟨0, rfl⟩

end OsZero.Zcc

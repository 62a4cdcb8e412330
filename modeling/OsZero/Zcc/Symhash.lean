import Mathlib.Data.BitVec
import OsZero.Zcc.Ident
import OsZero.Lib.Binned
import Mathlib.Data.List.Find

set_option autoImplicit false

namespace OsZero.Zcc

open Cstring Links Chains

-- tmp = *name++; ch = chvaltab[tmp]; a negative char is no index of the table. The index of
-- the last character that is read is kept as well.
def zcchashloop (name : Nat → UInt8) : Nat → Nat → BitVec 64 → Option (BitVec 64 × Nat)
  | 0, _, _ => none
  | fuel + 1, i, val =>
      if 128 ≤ (name i).toNat then none
      else if chvaltab (name i) = 0 then some (val, i)
      else zcchashloop name fuel (i + 1) (val + BitVec.ofNat 64 (chvaltab (name i)))

def zcchashsym (fuel : Nat) (name : Nat → UInt8) : Option (Nat × Nat) :=
  (zcchashloop name fuel 0 0).map fun read => ((read.1 &&& 0xffff).toNat, read.2)

section Symbols

variable {Sym : Type} [DecidableEq Sym]

structure Symhash (Sym : Type) where
  symhash : Nat → Option Sym
  heap : Heap Sym

variable (name : Sym → Cstr) (fuel : Nat)

def zccaddsym (tab : Symhash Sym) (sym : Sym) : Option (Symhash Sym) :=
  (zcchashsym fuel (name sym).buf).map fun val =>
    ⟨Function.update tab.symhash val.1 (some sym), pushFront (tab.heap.setPrev sym none) sym (tab.symhash val.1)⟩

def zccfindsym (tab : Symhash Sym) (ptr : Cstr) : Option (Option Sym) :=
  zcchashsym fuel ptr.buf >>= fun val => search tab.heap.next (fun sym => ptr.bytes = (name sym).bytes) fuel (tab.symhash val.1)

def zccrmsym (tab : Symhash Sym) (sym : Sym) : Option (Symhash Sym) :=
  match tab.heap.prev sym with
  | none => (zcchashsym fuel (name sym).buf).map fun val => ⟨Function.update tab.symhash val.1 (tab.heap.next sym), unlink tab.heap sym⟩
  | some _ => some ⟨tab.symhash, unlink tab.heap sym⟩

inductive Symop (Sym : Type) where
  | zccaddsym (sym : Sym)
  | zccrmsym (sym : Sym)

def symstep (tab : Symhash Sym) : Symop Sym → Option (Symhash Sym)
  | .zccaddsym sym => zccaddsym name fuel tab sym
  | .zccrmsym sym => zccrmsym name fuel tab sym

def nosyms : Symhash Sym := ⟨fun _ => none, ⟨fun _ => none, fun _ => none⟩⟩

-- The symbols that are added and not removed, the newest first.
def symlive : List Sym → List (Symop Sym) → List Sym
  | live, [] => live
  | live, .zccaddsym sym :: ops => symlive (sym :: live) ops
  | live, .zccrmsym sym :: ops => symlive (live.erase sym) ops

-- Symbols are added that are not in the table and removed that are.
def Symlegal : List Sym → List (Symop Sym) → Prop
  | _, [] => True
  | live, .zccaddsym sym :: ops => sym ∉ live ∧ Symlegal (sym :: live) ops
  | live, .zccrmsym sym :: ops => sym ∈ live ∧ Symlegal (live.erase sym) ops

-- An identifier of the language.
def Identifier (str : Cstr) : Prop := isfirst (str.buf 0) = true ∧ ∀ c ∈ str.bytes, isident c = true

-- The hash needs no character behind the terminating NUL and is the same for every other
-- string of these characters.
def Settled (str : Cstr) : Prop :=
  ∃ fuel val last, last ≤ str.len ∧ ∀ other : Cstr, other.bytes = str.bytes → zcchashsym fuel other.buf = some (val, last)

def Symsright (ops : List (Symop Sym)) (str : Cstr) : Prop :=
  (∀ sym, .zccaddsym sym ∈ ops → Settled (name sym)) ∧ Settled str ∧
    ∃ fuel tab, ops.foldlM (symstep name fuel) nosyms = some tab ∧
      zccfindsym name fuel tab str = some ((symlive [] ops).find? fun sym => str.bytes = (name sym).bytes)

end Symbols

section Hashes

theorem chvaltab_zero (c : UInt8) : chvaltab c = 0 ↔ c = code '0' := by
  have zero : (code '0').toNat = 48 := rfl
  rw [← UInt8.toNat_inj, zero]
  unfold chvaltab
  split_ifs with digit upper under lower
  · have among : 48 ≤ c.toNat ∧ c.toNat ≤ 57 := of_decide_eq_true digit
    omega
  · exact iff_of_false not_false (by omega)
  · rw [under]
    decide
  · exact iff_of_false not_false (by omega)
  · refine iff_of_false (by decide) fun same => digit ?_
    exact decide_eq_true ⟨by omega, by omega⟩

theorem isident_ascii (c : UInt8) (ident : isident c = true) : c.toNat < 128 := by
  simp only [isident, isalnum, isalpha, isdigit, Bool.or_eq_true, decide_eq_true_eq] at ident
  rcases ident with (letter | digit) | under
  · omega
  · omega
  · rw [under]
    decide

-- The characters that are summed up.
def hashed (chars : List UInt8) : List UInt8 := chars.takeWhile (· ≠ code '0')

def hashsum (chars : List UInt8) (val : BitVec 64) : BitVec 64 := (hashed chars).foldl (fun val c => val + BitVec.ofNat 64 (chvaltab c)) val

theorem hashloop_reads (chars : List UInt8) (buf : Nat → UInt8) (fuel i : Nat) (val : BitVec 64) (read : ∀ j c, chars[j]? = some c → buf (i + j) = c)
    (ascii : ∀ c ∈ chars, c.toNat < 128) (zero : code '0' ∈ chars) (enough : chars.length < fuel) :
    zcchashloop buf fuel i val = some (hashsum chars val, i + (hashed chars).length) := by
  induction chars generalizing fuel i val with
  | nil => exact (List.not_mem_nil zero).elim
  | cons c chars ih =>
    cases fuel with
    | zero => contradiction
    | succ fuel =>
      have here : buf i = c := read 0 c rfl
      have low : ¬128 ≤ c.toNat := Nat.not_le.mpr (ascii c List.mem_cons_self)
      rw [zcchashloop, here, if_neg low]
      by_cases last : c = code '0'
      · have none : hashed (c :: chars) = [] := List.takeWhile_cons_of_neg (by simp [last])
        rw [if_pos ((chvaltab_zero c).mpr last), hashsum, none]
        rfl
      · have more : hashed (c :: chars) = c :: hashed chars := List.takeWhile_cons_of_pos (by simp [last])
        have later : code '0' ∈ chars := (List.mem_cons.mp zero).resolve_left (Ne.symm last)
        have behind : ∀ j d, chars[j]? = some d → buf (i + 1 + j) = d := by
          intro j d get
          rw [Nat.add_right_comm]
          exact read (j + 1) d get
        rw [if_neg fun same => last ((chvaltab_zero c).mp same), ih fuel (i + 1) _ behind (fun d member => ascii d (List.mem_cons_of_mem _ member)) later
          (Nat.lt_of_succ_lt_succ enough), hashsum, hashsum, more, List.foldl_cons, List.length_cons, Nat.add_right_comm i 1, Nat.add_assoc]

-- The hash of a name with a 0 digit.
def hashval (chars : List UInt8) : Nat := (hashsum chars 0 &&& 0xffff).toNat

theorem bytes_read (str : Cstr) (j : Nat) (c : UInt8) (get : str.bytes[j]? = some c) : str.buf (0 + j) = c := slice_get str.buf 0 str.len j c get

theorem bytes_length (str : Cstr) : str.bytes.length = str.len := slice_length str.buf 0 str.len

theorem hashsym_reads (str : Cstr) (fuel : Nat) (ascii : ∀ c ∈ str.bytes, isident c = true) (zero : code '0' ∈ str.bytes) (enough : str.len < fuel) :
    zcchashsym fuel str.buf = some (hashval str.bytes, (hashed str.bytes).length) := by
  rw [zcchashsym, hashloop_reads str.bytes str.buf fuel 0 0 (bytes_read str) (fun c member => isident_ascii c (ascii c member)) zero
    (by rw [bytes_length]; exact enough), Nat.zero_add]
  rfl

theorem hashed_length (str : Cstr) : (hashed str.bytes).length ≤ str.len :=
  (List.takeWhile_sublist _).length_le.trans_eq (bytes_length str)

-- A hash that stops has come to a 0 digit.
theorem hashloop_stops (buf : Nat → UInt8) (fuel i last : Nat) (val result : BitVec 64) (done : zcchashloop buf fuel i val = some (result, last)) :
    buf last = code '0' := by
  induction fuel generalizing i val with
  | zero => contradiction
  | succ fuel ih =>
    rw [zcchashloop] at done
    split_ifs at done with high zero
    · obtain ⟨-, rfl⟩ := Prod.mk.inj (Option.some.inj done)
      exact (chvaltab_zero _).mp zero
    · exact ih _ _ done

theorem settled_iff (str : Cstr) (identifier : Identifier str) : Settled str ↔ code '0' ∈ str.bytes := by
  constructor
  · rintro ⟨fuel, val, last, within, hashes⟩
    obtain ⟨⟨result, index⟩, looped, same⟩ := Option.map_eq_some_iff.mp (hashes str rfl)
    obtain rfl := (Prod.mk.inj same).2
    have zero := hashloop_stops str.buf fuel 0 index 0 result looped
    have before : index ≠ str.len := by
      rintro rfl
      exact absurd (str.nul.symm.trans zero) (by decide)
    refine List.mem_map.mpr ⟨index, List.mem_range.mpr (by omega), ?_⟩
    rw [Nat.zero_add]
    exact zero
  · intro zero
    refine ⟨str.len + 1, hashval str.bytes, (hashed str.bytes).length, hashed_length str, fun other same => ?_⟩
    have length : other.len = str.len := by rw [← bytes_length other, ← bytes_length str, same]
    rw [hashsym_reads other (str.len + 1) (same ▸ identifier.2) (same ▸ zero) (by omega), same]

end Hashes

section Runs

variable {Sym : Type} [DecidableEq Sym] (name : Sym → Cstr)

def symkey (sym : Sym) : Nat := hashval (name sym).bytes

-- A name that the hash is right for, with fuel for it.
def Hashable (fuel : Nat) (str : Cstr) : Prop := Identifier str ∧ code '0' ∈ str.bytes ∧ str.len < fuel

theorem hashable_reads (fuel : Nat) (str : Cstr) (hashable : Hashable fuel str) :
    zcchashsym fuel str.buf = some (hashval str.bytes, (hashed str.bytes).length) :=
  hashsym_reads str fuel hashable.1.2 hashable.2.1 hashable.2.2

variable (fuel : Nat)

theorem zccaddsym_binned (tab : Symhash Sym) (live : List Sym) (sym : Sym) (binned : Binned tab.heap tab.symhash (symkey name) live)
    (absent : sym ∉ live) (hashable : Hashable fuel (name sym)) :
    ∃ next, zccaddsym name fuel tab sym = some next ∧ Binned next.heap next.symhash (symkey name) (sym :: live) := by
  refine ⟨⟨Function.update tab.symhash (symkey name sym) (some sym), _⟩, ?_, binned_push tab.heap tab.symhash (symkey name) live sym binned absent⟩
  rw [zccaddsym, hashable_reads fuel _ hashable]
  rfl

theorem zccrmsym_binned (tab : Symhash Sym) (live : List Sym) (sym : Sym) (binned : Binned tab.heap tab.symhash (symkey name) live)
    (member : sym ∈ live) (hashable : Hashable fuel (name sym)) :
    ∃ next, zccrmsym name fuel tab sym = some next ∧ Binned next.heap next.symhash (symkey name) (live.erase sym) := by
  have kept := binned_unlink tab.heap tab.symhash (symkey name) live sym binned member
  cases before : tab.heap.prev sym with
  | none =>
    rw [unlinkHead, before] at kept
    refine ⟨⟨Function.update tab.symhash (symkey name sym) (tab.heap.next sym), unlink tab.heap sym⟩, ?_, kept⟩
    rw [zccrmsym, before]
    dsimp only
    rw [hashable_reads fuel _ hashable]
    rfl
  | some prev =>
    rw [unlinkHead, before] at kept
    dsimp only at kept
    rw [Function.update_eq_self] at kept
    refine ⟨⟨tab.symhash, unlink tab.heap sym⟩, ?_, kept⟩
    rw [zccrmsym, before]

omit [DecidableEq Sym] in
theorem zccfindsym_latest (tab : Symhash Sym) (live : List Sym) (str : Cstr) (binned : Binned tab.heap tab.symhash (symkey name) live)
    (hashable : Hashable fuel str) (enough : live.length < fuel) :
    zccfindsym name fuel tab str = some (live.find? fun sym => str.bytes = (name sym).bytes) := by
  have seg := binned_seg tab.heap tab.symhash (symkey name) live binned (hashval str.bytes)
  have short : (live.filter fun sym => symkey name sym = hashval str.bytes).length < fuel :=
    Nat.lt_of_le_of_lt (List.length_filter_le _ _) enough
  rw [zccfindsym, hashable_reads fuel str hashable]
  refine (search_seg tab.heap.next _ fuel _ _ seg short).trans (congrArg some ?_)
  rw [List.find?_filter]
  refine List.find?_congr fun sym _ => ?_
  by_cases same : str.bytes = (name sym).bytes
  · rw [decide_eq_true same]
    exact decide_eq_true ⟨decide_eq_true (congrArg hashval same.symm), rfl⟩
  · rw [decide_eq_false same]
    exact decide_eq_false fun both => Bool.false_ne_true both.2

theorem symlive_length (ops : List (Symop Sym)) (live : List Sym) : (symlive live ops).length ≤ live.length + ops.length := by
  induction ops generalizing live with
  | nil => exact Nat.le_refl _
  | cons op ops ih =>
    cases op with
    | zccaddsym sym =>
      have more := ih (sym :: live)
      rw [List.length_cons] at more
      rw [symlive, List.length_cons]
      omega
    | zccrmsym sym =>
      have more := ih (live.erase sym)
      have less := List.length_erase_le (l := live) (a := sym)
      rw [symlive, List.length_cons]
      omega

-- Every symbol that is live or added has a name that the hash is right for.
theorem run_binned (ops : List (Symop Sym)) (tab : Symhash Sym) (live : List Sym) (binned : Binned tab.heap tab.symhash (symkey name) live)
    (legal : Symlegal live ops) (here : ∀ sym ∈ live, Hashable fuel (name sym)) (added : ∀ sym, .zccaddsym sym ∈ ops → Hashable fuel (name sym)) :
    ∃ last, ops.foldlM (symstep name fuel) tab = some last ∧ Binned last.heap last.symhash (symkey name) (symlive live ops) := by
  induction ops generalizing tab live with
  | nil => exact ⟨tab, rfl, binned⟩
  | cons op ops ih =>
    have later := fun sym member => added sym (List.mem_cons_of_mem op member)
    cases op with
    | zccaddsym sym =>
      have hashable := added sym List.mem_cons_self
      obtain ⟨next, done, kept⟩ := zccaddsym_binned name fuel tab live sym binned legal.1 hashable
      obtain ⟨last, rest, final⟩ := ih next (sym :: live) kept legal.2
        (fun other member => (List.mem_cons.mp member).elim (fun same => same ▸ hashable) (here other)) later
      refine ⟨last, ?_, final⟩
      rw [List.foldlM_cons, symstep, done]
      exact rest
    | zccrmsym sym =>
      obtain ⟨next, done, kept⟩ := zccrmsym_binned name fuel tab live sym binned legal.1 (here sym legal.1)
      obtain ⟨last, rest, final⟩ := ih next (live.erase sym) kept legal.2 (fun other member => here other (List.mem_of_mem_erase member)) later
      refine ⟨last, ?_, final⟩
      rw [List.foldlM_cons, symstep, done]
      exact rest

end Runs

section Results

variable {Sym : Type} [DecidableEq Sym] (name : Sym → Cstr)

omit [DecidableEq Sym] in
theorem names_bound (ops : List (Symop Sym)) : ∃ bound, ∀ sym, .zccaddsym sym ∈ ops → (name sym).len < bound := by
  induction ops with
  | nil => exact ⟨0, fun sym none => absurd none List.not_mem_nil⟩
  | cons op ops ih =>
    obtain ⟨bound, room⟩ := ih
    cases op with
    | zccaddsym first =>
      refine ⟨max bound ((name first).len + 1), fun sym member => ?_⟩
      rcases List.mem_cons.mp member with same | later
      · obtain rfl := Symop.zccaddsym.inj same
        exact Nat.lt_of_lt_of_le (Nat.lt_succ_self _) (Nat.le_max_right ..)
      · exact Nat.lt_of_lt_of_le (room sym later) (Nat.le_max_left ..)
    | zccrmsym first =>
      refine ⟨bound, fun sym member => room sym ?_⟩
      exact (List.mem_cons.mp member).resolve_left (by simp)

theorem symbols_right_iff (ops : List (Symop Sym)) (str : Cstr) (legal : Symlegal [] ops) (names : ∀ sym, .zccaddsym sym ∈ ops → Identifier (name sym))
    (identifier : Identifier str) :
    Symsright name ops str ↔ (∀ sym, .zccaddsym sym ∈ ops → code '0' ∈ (name sym).bytes) ∧ code '0' ∈ str.bytes := by
  constructor
  · rintro ⟨settled, looked, -⟩
    exact ⟨fun sym member => (settled_iff _ (names sym member)).mp (settled sym member), (settled_iff str identifier).mp looked⟩
  · rintro ⟨zeros, zero⟩
    refine ⟨fun sym member => (settled_iff _ (names sym member)).mpr (zeros sym member), (settled_iff str identifier).mpr zero, ?_⟩
    obtain ⟨fuel, room, enough⟩ : ∃ fuel, (∀ sym, .zccaddsym sym ∈ ops → (name sym).len < fuel) ∧ str.len + ops.length < fuel := by
      obtain ⟨bound, room⟩ := names_bound name ops
      exact ⟨bound + str.len + ops.length + 1, fun sym member => by have less := room sym member; omega, by omega⟩
    obtain ⟨tab, done, binned⟩ := run_binned name fuel ops nosyms [] (binned_empty _ _ _ fun _ => rfl) legal (fun sym none => absurd none List.not_mem_nil)
      fun sym member => ⟨names sym member, zeros sym member, room sym member⟩
    have short := symlive_length ops ([] : List Sym)
    rw [List.length_nil] at short
    exact ⟨fuel, tab, done, zccfindsym_latest name fuel tab _ str binned ⟨identifier, zero, by omega⟩ (by omega)⟩

end Results

-- A name, and what is in the memory behind it.
def one0 : Cstr := ⟨fun i => (text "a0").getD i 0, 2, by decide, by decide⟩

def short0 : Cstr := ⟨fun i => [97, 0, 48].getD i 0, 1, by decide, by decide⟩

def shortb0 : Cstr := ⟨fun i => [97, 0, 98, 48].getD i 0, 1, by decide, by decide⟩

theorem identifier_one0 : Identifier one0 := ⟨by decide, by decide +kernel⟩

def other0 : Cstr := ⟨fun i => (text "b0").getD i 0, 2, by decide, by decide⟩

theorem identifier_other0 : Identifier other0 := ⟨by decide, by decide +kernel⟩

-- Two symbols of one name and one of another name.
def shadowing (sym : Fin 3) : Cstr := if sym = 2 then other0 else one0

-- The newer symbol of the name is found, and the older one when that is removed.
theorem symbols_right_iff_shadowing :
    Symsright shadowing [.zccaddsym 0, .zccaddsym 1, .zccaddsym 2] one0 ∧
      Symsright shadowing [.zccaddsym 0, .zccaddsym 1, .zccaddsym 2, .zccrmsym 1] one0 := by
  have names : ∀ sym, Identifier (shadowing sym) := by
    intro sym
    unfold shadowing
    split_ifs
    · exact identifier_other0
    · exact identifier_one0
  have zeros : ∀ sym, code '0' ∈ (shadowing sym).bytes := by
    unfold shadowing
    decide +kernel
  have zero : code '0' ∈ one0.bytes := zeros 0
  constructor
  · refine (symbols_right_iff shadowing _ one0 ?_ (fun sym _ => names sym) identifier_one0).mpr ⟨fun sym _ => zeros sym, zero⟩
    exact ⟨by decide, by decide, by decide, trivial⟩
  · refine (symbols_right_iff shadowing _ one0 ?_ (fun sym _ => names sym) identifier_one0).mpr ⟨fun sym _ => zeros sym, zero⟩
    exact ⟨by decide, by decide, by decide, by decide, trivial⟩

-- The same name in two places has two hashes, and the symbol is not found.
theorem zccfindsym_misses :
    Identifier short0 ∧ short0.bytes = shortb0.bytes ∧ zcchashsym 9 short0.buf = some (37, 2) ∧ zcchashsym 9 shortb0.buf = some (76, 3) ∧
      ([Symop.zccaddsym ()].foldlM (symstep (fun _ => short0) 9) nosyms >>= fun tab => zccfindsym (fun _ => short0) 9 tab shortb0) = some none ∧
      ¬Symsright (fun _ : Unit => short0) [.zccaddsym ()] shortb0 := by
  refine ⟨⟨by decide, by decide +kernel⟩, by decide, by decide, by decide, by decide, ?_⟩
  rintro ⟨settled, -, -⟩
  have zero := (settled_iff short0 ⟨by decide, by decide +kernel⟩).mp (settled () (List.mem_singleton_self _))
  exact absurd zero (by decide)

end OsZero.Zcc

import OsZero.Zas.Translate
import OsZero.Lib.Buckets

set_option autoImplicit false

namespace OsZero.Zas.Symtab

open Cstring Buckets

-- A C string: the characters before its NUL.
abbrev Name := { chars : List UInt8 // 0 ∉ chars }

instance : Inhabited Name := ⟨⟨[], List.not_mem_nil⟩⟩

structure Zasval where
  name : Name
  val : BitVec 64
deriving Inhabited

structure Zassymrec where
  name : Name
  adr : Adr
deriving Inhabited

structure Zaslabel where
  name : Name
  adr : Adr
deriving Inhabited

structure Zasline where
  adr : Adr
  file : Name
  num : BitVec 64
  data : Name
deriving Inhabited

def isfirst (c : UInt8) : Bool := isalpha c || c = code '_'

def isword (c : UInt8) : Bool := isalnum c || c = code '_'

-- key += *str++, with a signed char.
def charsum (chars : List UInt8) : BitVec 64 := chars.foldl (fun key c => key + (BitVec.ofNat 8 c.toNat).signExtend 64) 0

def linesum (adr : Adr) : BitVec 64 := (adr &&& 0xff) + ((adr >>> 8) &&& 0xff) + ((adr >>> 16) &&& 0xff) + ((adr >>> 24) &&& 0xff)

section Tables

-- Is the program built with ZASZEROHASH?
variable (zaszerohash : Bool)

def zasnhash : Nat := if zaszerohash then 1 <<< nhashbit else 1024

def masked (key : BitVec 64) : Nat := (key &&& (BitVec.ofNat 64 (zasnhash zaszerohash) - 1)).toNat

def symkey (chars : List UInt8) : Nat :=
  if zaszerohash then (hashq128 (charsum chars) nhashbit).toNat else masked zaszerohash (charsum chars)

-- item->next = hash[key]; hash[key] = item;
def enter {R : Type} (table : Table Nat R) (key item : Nat) (fields : R) : Option (Table Nat R) :=
  table.load (zasnhash zaszerohash) key >>= fun link => (table.set item fields link).store (zasnhash zaszerohash) key item

def lookup {R : Type} (table : Table Nat R) (key fuel : Nat) (p : R → Bool) : Option (Option Nat) :=
  table.load (zasnhash zaszerohash) key >>= table.walk p fuel

-- The key is masked after the link was read.
def zasaddline (table : Table Nat Zasline) (newline : Nat) (fields : Zasline) : Option (Table Nat Zasline) :=
  let key := linesum fields.adr
  table.load (zasnhash zaszerohash) key.toNat >>= fun link =>
    (table.set newline fields link).store (zasnhash zaszerohash) (masked zaszerohash key) newline

def zasfindline (fuel : Nat) (table : Table Nat Zasline) (adr : Adr) : Option (Option Nat) :=
  lookup zaszerohash table (masked zaszerohash (linesum adr)) fuel fun line => line.adr = adr

def zasaddval (table : Table Nat Zasval) (val : Nat) (fields : Zasval) : Option (Table Nat Zasval) :=
  enter zaszerohash table (masked zaszerohash (charsum fields.name.1)) val fields

-- strncmp(val->name, ptr, len) with the len characters of the identifier. The pointer that
-- is returned, *valptr and *retptr.
def zasfindval (fuel : Nat) (table : Table Nat Zasval) (str : Name) : Option (Option (Nat × BitVec 64 × List UInt8)) :=
  if isfirst (str.1.headD 0) then
    let ptr := str.1.takeWhile isword
    (lookup zaszerohash table (masked zaszerohash (charsum ptr)) fuel fun val => ptr.isPrefixOf val.name.1).map fun found =>
      found.map fun val => (val, (table.fields val).val, str.1.dropWhile isword)
  else some none

def zasaddsym (table : Table Nat Zassymrec) (sym : Nat) (fields : Zassymrec) : Option (Table Nat Zassymrec) :=
  enter zaszerohash table (symkey zaszerohash fields.name.1) sym fields

def zasfindsym (fuel : Nat) (table : Table Nat Zassymrec) (name : Name) : Option (Option Nat) :=
  lookup zaszerohash table (symkey zaszerohash name.1) fuel fun sym => sym.name = name

def zasaddglob (table : Table Nat Zaslabel) (label : Nat) (fields : Zaslabel) : Option (Table Nat Zaslabel) :=
  enter zaszerohash table (masked zaszerohash (charsum fields.name.1)) label fields

def zasfindglob (fuel : Nat) (table : Table Nat Zaslabel) (name : Name) : Option (Option Nat) :=
  lookup zaszerohash table (masked zaszerohash (charsum name.1)) fuel fun label => label.name = name

-- The nth call adds the nth record.
inductive Call where
  | zasaddval (fields : Zasval)
  | zasaddsym (fields : Zassymrec)
  | zasaddglob (fields : Zaslabel)
  | zasaddline (fields : Zasline)

structure Symtabs where
  zasvalhash : Table Nat Zasval
  zassymhash : Table Nat Zassymrec
  zasglobhash : Table Nat Zaslabel
  zaslinehash : Table Nat Zasline
  count : Nat

def step (tabs : Symtabs) : Call → Option Symtabs
  | .zasaddval fields => (zasaddval zaszerohash tabs.zasvalhash tabs.count fields).map fun table =>
      { tabs with zasvalhash := table, count := tabs.count + 1 }
  | .zasaddsym fields => (zasaddsym zaszerohash tabs.zassymhash tabs.count fields).map fun table =>
      { tabs with zassymhash := table, count := tabs.count + 1 }
  | .zasaddglob fields => (zasaddglob zaszerohash tabs.zasglobhash tabs.count fields).map fun table =>
      { tabs with zasglobhash := table, count := tabs.count + 1 }
  | .zasaddline fields => (zasaddline zaszerohash tabs.zaslinehash tabs.count fields).map fun table =>
      { tabs with zaslinehash := table, count := tabs.count + 1 }

def empty {R : Type} [Inhabited R] : Table Nat R := ⟨fun _ => none, fun _ => none, fun _ => default⟩

def start : Symtabs := ⟨empty, empty, empty, empty, 0⟩

def run (calls : List Call) : Option Symtabs := calls.foldlM (step zaszerohash) start

end Tables

def Call.val : Call → Option Zasval
  | .zasaddval fields => some fields
  | _ => none

def Call.sym : Call → Option Zassymrec
  | .zasaddsym fields => some fields
  | _ => none

def Call.glob : Call → Option Zaslabel
  | .zasaddglob fields => some fields
  | _ => none

def Call.line : Call → Option Zasline
  | .zasaddline fields => some fields
  | _ => none

-- The records of one kind that calls add, the newest call and record first.
def records {R : Type} (pick : Call → Option R) : List Call → List (Nat × R)
  | [] => []
  | call :: older => (pick call).toList.map (fun fields => (older.length, fields)) ++ records pick older

-- The latest record of a kind that passes a test.
def latest {R : Type} (pick : Call → Option R) (calls : List Call) (p : R → Bool) : Option (Nat × R) :=
  (records pick calls.reverse).find? fun record => p record.2

-- The latest value of exactly the identifier at the start of str, and the text behind it.
def latestval (calls : List Call) (str : Name) : Option (Nat × BitVec 64 × List UInt8) :=
  if isfirst (str.1.headD 0) then
    (latest Call.val calls fun val => val.name.1 = str.1.takeWhile isword).map fun record => (record.1, record.2.val, str.1.dropWhile isword)
  else none

-- Every call and lookup stays inside the tables and every lookup finds the latest record.
def Right (zaszerohash : Bool) (calls : List Call) (str name : Name) (adr : Adr) : Prop :=
  ∃ tabs, run zaszerohash calls = some tabs ∧ ∀ fuel, calls.length < fuel →
    zasfindval zaszerohash fuel tabs.zasvalhash str = some (latestval calls str) ∧
    zasfindsym zaszerohash fuel tabs.zassymhash name = some ((latest Call.sym calls fun sym => sym.name = name).map Prod.fst) ∧
    zasfindglob zaszerohash fuel tabs.zasglobhash name = some ((latest Call.glob calls fun label => label.name = name).map Prod.fst) ∧
    zasfindline zaszerohash fuel tabs.zaslinehash adr = some ((latest Call.line calls fun line => line.adr = adr).map Prod.fst)

-- The name of a later value in the bucket of the identifier goes on behind it.
def Hidden (zaszerohash : Bool) (calls : List Call) (str : Name) : Prop :=
  let ptr := str.1.takeWhile isword
  isfirst (str.1.headD 0) = true ∧
    Ahead (fun val : Zasval => masked zaszerohash (charsum val.name.1) = masked zaszerohash (charsum ptr) ∧ ptr.isPrefixOf val.name.1 = true)
      (fun val => val.name.1 = ptr) (records Call.val calls.reverse)

section Keys

variable (zaszerohash : Bool)

theorem masked_mod (key : BitVec 64) : masked zaszerohash key = key.toNat % zasnhash zaszerohash := by
  obtain ⟨bits, size, mask⟩ : ∃ bits, zasnhash zaszerohash = 2 ^ bits ∧ (BitVec.ofNat 64 (zasnhash zaszerohash) - 1).toNat = 2 ^ bits - 1 := by
    cases zaszerohash
    · exact ⟨10, by decide, by decide⟩
    · exact ⟨16, by decide, by decide⟩
  rw [masked, BitVec.toNat_and, mask, size]
  exact Nat.and_two_pow_sub_one_eq_mod key.toNat bits

theorem masked_less (key : BitVec 64) : masked zaszerohash key < zasnhash zaszerohash := by
  rw [masked_mod]
  apply Nat.mod_lt
  cases zaszerohash <;> decide

theorem hashq128_less (key : BitVec 64) : (hashq128 key nhashbit).toNat < 2 ^ 16 := by
  have mask : (((1 : BitVec 64) <<< nhashbit) - 1).toNat < 2 ^ 16 := by decide
  rw [hashq128, BitVec.toNat_and]
  exact Nat.lt_of_le_of_lt Nat.and_le_right mask

theorem symkey_less (chars : List UInt8) : symkey zaszerohash chars < zasnhash zaszerohash := by
  cases zaszerohash with
  | false => exact masked_less false (charsum chars)
  | true =>
    have size : zasnhash true = 2 ^ 16 := by decide
    rw [symkey, if_pos rfl, size]
    exact hashq128_less (charsum chars)

-- Four bytes sum up to less than the smaller table.
theorem linesum_small (adr : Adr) : (linesum adr).toNat < 1024 := by
  have byte : ∀ word : BitVec 64, (word &&& 0xff).toNat ≤ 255 := fun word => Nat.and_le_right
  have first := byte adr
  have second := byte (adr >>> 8)
  have third := byte (adr >>> 16)
  have fourth := byte (adr >>> 24)
  unfold linesum
  generalize adr &&& 0xff = one at *
  generalize adr >>> 8 &&& 0xff = two at *
  generalize adr >>> 16 &&& 0xff = three at *
  generalize adr >>> 24 &&& 0xff = four at *
  rw [BitVec.toNat_add, BitVec.toNat_add, BitVec.toNat_add]
  omega

theorem linesum_less (adr : Adr) : (linesum adr).toNat < zasnhash zaszerohash := by
  have small := linesum_small adr
  have least : 1024 ≤ zasnhash zaszerohash := by cases zaszerohash <;> decide
  omega

theorem linesum_masked (adr : Adr) : masked zaszerohash (linesum adr) = (linesum adr).toNat := by
  rw [masked_mod, Nat.mod_eq_of_lt (linesum_less zaszerohash adr)]

end Keys

section Records

variable {R : Type} (pick : Call → Option R)

theorem records_less (older : List Call) (record : Nat × R) (member : record ∈ records pick older) : record.1 < older.length := by
  induction older with
  | nil => contradiction
  | cons call older ih =>
    rcases List.mem_append.mp member with new | old
    · obtain ⟨fields, -, rfl⟩ := List.mem_map.mp new
      exact Nat.lt_succ_self _
    · exact Nat.lt_succ_of_lt (ih old)

theorem records_fresh (older : List Call) : older.length ∉ (records pick older).map Prod.fst := by
  intro member
  obtain ⟨record, inside, same⟩ := List.mem_map.mp member
  exact absurd (records_less pick older record inside) (by omega)

theorem records_length (older : List Call) : (records pick older).length ≤ older.length := by
  induction older with
  | nil => exact Nat.le_refl 0
  | cons call older ih =>
    have one : (pick call).toList.length ≤ 1 := by cases pick call <;> simp
    rw [records, List.length_append, List.length_map, List.length_cons]
    omega

end Records

section Steps

variable (zaszerohash : Bool)

theorem enter_filed {R : Type} (table : Table Nat R) (key : R → Nat) (entries : List (Nat × R)) (item : Nat) (fields : R)
    (filed : Filed table key entries) (fresh : item ∉ entries.map Prod.fst) (inside : key fields < zasnhash zaszerohash) :
    ∃ after, enter zaszerohash table (key fields) item fields = some after ∧ Filed after key ((item, fields) :: entries) := by
  obtain ⟨after, stored, kept⟩ := filed_push table (zasnhash zaszerohash) key entries item fields filed fresh inside
  have loaded : table.load (zasnhash zaszerohash) (key fields) = some (table.head (key fields)) := if_pos inside
  refine ⟨after, ?_, kept⟩
  rw [enter, loaded]
  exact stored

theorem zasaddline_enter (table : Table Nat Zasline) (newline : Nat) (fields : Zasline) :
    zasaddline zaszerohash table newline fields = enter zaszerohash table (masked zaszerohash (linesum fields.adr)) newline fields := by
  rw [zasaddline, enter, linesum_masked]

theorem lookup_latest {R : Type} (table : Table Nat R) (key : R → Nat) (entries : List (Nat × R)) (p : R → Bool) (bin fuel : Nat)
    (filed : Filed table key entries) (enough : entries.length < fuel) (inside : bin < zasnhash zaszerohash)
    (only : ∀ fields, p fields = true → key fields = bin) :
    lookup zaszerohash table bin fuel p = some ((entries.find? fun entry => p entry.2).map Prod.fst) := by
  have loaded : table.load (zasnhash zaszerohash) bin = some (table.head bin) := if_pos inside
  rw [lookup, loaded]
  exact walk_latest table key entries filed p bin fuel enough only

structure Kept (tabs : Symtabs) (older : List Call) : Prop where
  count : tabs.count = older.length
  vals : Filed tabs.zasvalhash (fun val => masked zaszerohash (charsum val.name.1)) (records Call.val older)
  syms : Filed tabs.zassymhash (fun sym => symkey zaszerohash sym.name.1) (records Call.sym older)
  globs : Filed tabs.zasglobhash (fun label => masked zaszerohash (charsum label.name.1)) (records Call.glob older)
  lines : Filed tabs.zaslinehash (fun line => masked zaszerohash (linesum line.adr)) (records Call.line older)

theorem start_kept : Kept zaszerohash start [] :=
  ⟨rfl, filed_empty _ _ fun _ => rfl, filed_empty _ _ fun _ => rfl, filed_empty _ _ fun _ => rfl, filed_empty _ _ fun _ => rfl⟩

theorem step_kept (tabs : Symtabs) (older : List Call) (kept : Kept zaszerohash tabs older) (call : Call) :
    ∃ next, step zaszerohash tabs call = some next ∧ Kept zaszerohash next (call :: older) := by
  obtain ⟨count, vals, syms, globs, lines⟩ := kept
  cases call with
  | zasaddval fields =>
    obtain ⟨after, stored, filed⟩ := enter_filed zaszerohash _ _ _ older.length fields vals (records_fresh Call.val older) (masked_less ..)
    refine ⟨{ tabs with zasvalhash := after, count := tabs.count + 1 }, ?_, congrArg Nat.succ count, filed, syms, globs, lines⟩
    rw [step, zasaddval, count, stored]
    rfl
  | zasaddsym fields =>
    obtain ⟨after, stored, filed⟩ := enter_filed zaszerohash _ _ _ older.length fields syms (records_fresh Call.sym older) (symkey_less ..)
    refine ⟨{ tabs with zassymhash := after, count := tabs.count + 1 }, ?_, congrArg Nat.succ count, vals, filed, globs, lines⟩
    rw [step, zasaddsym, count, stored]
    rfl
  | zasaddglob fields =>
    obtain ⟨after, stored, filed⟩ := enter_filed zaszerohash _ _ _ older.length fields globs (records_fresh Call.glob older) (masked_less ..)
    refine ⟨{ tabs with zasglobhash := after, count := tabs.count + 1 }, ?_, congrArg Nat.succ count, vals, syms, filed, lines⟩
    rw [step, zasaddglob, count, stored]
    rfl
  | zasaddline fields =>
    obtain ⟨after, stored, filed⟩ := enter_filed zaszerohash _ _ _ older.length fields lines (records_fresh Call.line older) (masked_less ..)
    refine ⟨{ tabs with zaslinehash := after, count := tabs.count + 1 }, ?_, congrArg Nat.succ count, vals, syms, globs, filed⟩
    rw [step, zasaddline_enter, count, stored]
    rfl

theorem run_kept (calls : List Call) (tabs : Symtabs) (older : List Call) (kept : Kept zaszerohash tabs older) :
    ∃ next, calls.foldlM (step zaszerohash) tabs = some next ∧ Kept zaszerohash next (calls.reverse ++ older) := by
  induction calls generalizing tabs older with
  | nil => exact ⟨tabs, rfl, kept⟩
  | cons call calls ih =>
    obtain ⟨next, stepped, keeps⟩ := step_kept zaszerohash tabs older kept call
    obtain ⟨last, done, final⟩ := ih next (call :: older) keeps
    refine ⟨last, ?_, ?_⟩
    · rw [List.foldlM_cons, stepped]
      exact done
    · rw [List.reverse_cons, List.append_assoc]
      exact final

end Steps

section Results

variable (zaszerohash : Bool) (calls : List Call) (str name : Name) (adr : Adr)

-- The lookup of an identifier, by entries.
theorem zasfindval_entries (table : Table Nat Zasval) (entries : List (Nat × Zasval)) (fuel : Nat)
    (filed : Filed table (fun val => masked zaszerohash (charsum val.name.1)) entries) (enough : entries.length < fuel)
    (first : isfirst (str.1.headD 0) = true) :
    zasfindval zaszerohash fuel table str = some ((entries.find? fun entry =>
      decide (masked zaszerohash (charsum entry.2.name.1) = masked zaszerohash (charsum (str.1.takeWhile isword)) ∧
        (str.1.takeWhile isword).isPrefixOf entry.2.name.1 = true)).map fun entry => (entry.1, entry.2.val, str.1.dropWhile isword)) := by
  have loaded : table.load (zasnhash zaszerohash) (masked zaszerohash (charsum (str.1.takeWhile isword))) =
    some (table.head (masked zaszerohash (charsum (str.1.takeWhile isword)))) := if_pos (masked_less ..)
  have walked := walk_filed table _ entries filed (fun val => (str.1.takeWhile isword).isPrefixOf val.name.1)
    (masked zaszerohash (charsum (str.1.takeWhile isword))) fuel enough
  simp only [zasfindval, first, if_true, lookup, loaded, Option.bind_eq_bind, Option.bind_some, walked, Option.map_some, Option.map_map]
  refine congrArg some (Option.map_congr fun entry found => ?_)
  rw [Function.comp_apply, filed.fields entry (List.mem_of_find?_eq_some found)]

theorem records_short {R : Type} (pick : Call → Option R) (fuel : Nat) (enough : calls.length < fuel) : (records pick calls.reverse).length < fuel := by
  have length := records_length pick calls.reverse
  rw [List.length_reverse] at length
  omega

-- The other three lookups are by the whole key.
theorem others_latest (tabs : Symtabs) (kept : Kept zaszerohash tabs calls.reverse) (fuel : Nat) (enough : calls.length < fuel) :
    zasfindsym zaszerohash fuel tabs.zassymhash name = some ((latest Call.sym calls fun sym => sym.name = name).map Prod.fst) ∧
      zasfindglob zaszerohash fuel tabs.zasglobhash name = some ((latest Call.glob calls fun label => label.name = name).map Prod.fst) ∧
      zasfindline zaszerohash fuel tabs.zaslinehash adr = some ((latest Call.line calls fun line => line.adr = adr).map Prod.fst) := by
  refine ⟨?_, ?_, ?_⟩
  · refine lookup_latest zaszerohash _ _ _ _ _ fuel kept.syms (records_short calls _ fuel enough) (symkey_less ..) fun fields same => ?_
    rw [of_decide_eq_true same]
  · refine lookup_latest zaszerohash _ _ _ _ _ fuel kept.globs (records_short calls _ fuel enough) (masked_less ..) fun fields same => ?_
    rw [of_decide_eq_true same]
  · refine lookup_latest zaszerohash _ _ _ _ _ fuel kept.lines (records_short calls _ fuel enough) (masked_less ..) fun fields same => ?_
    rw [of_decide_eq_true same]

theorem symtabs_right_iff : Right zaszerohash calls str name adr ↔ ¬Hidden zaszerohash calls str := by
  obtain ⟨tabs, done, kept⟩ := run_kept zaszerohash calls start [] (start_kept zaszerohash)
  rw [List.append_nil] at kept
  have others := others_latest zaszerohash calls name adr tabs kept
  cases first : isfirst (str.1.headD 0) with
  | false =>
    refine iff_of_true ⟨tabs, done, fun fuel enough => ⟨?_, others fuel enough⟩⟩ fun hidden => ?_
    · rw [zasfindval, latestval, first]
      rfl
    · exact absurd (first.symm.trans hidden.1) Bool.false_ne_true
  | true =>
    have entries := fun fuel enough => zasfindval_entries zaszerohash str tabs.zasvalhash _ fuel kept.vals (records_short calls Call.val fuel enough) first
    constructor
    · rintro ⟨same, again, right⟩ ⟨-, ahead⟩
      obtain rfl := Option.some.inj (done.symm.trans again)
      have found := (right (calls.length + 1) (Nat.lt_succ_self _)).1
      rw [entries _ (Nat.lt_succ_self _), latestval, if_pos first] at found
      refine find_ahead _ _ _ kept.vals.nodup ahead ?_
      have pointers := congrArg (Option.map fun result => result.1) (Option.some.inj found)
      simp only [Option.map_map] at pointers
      exact pointers
    · intro clear
      refine ⟨tabs, done, fun fuel enough => ⟨?_, others fuel enough⟩⟩
      rw [entries fuel enough, latestval, if_pos first]
      refine congrArg (fun found => some (Option.map _ found)) (find_same _ _ _ (fun fields same => ?_) fun ahead => clear ⟨first, ahead⟩)
      have exact_name := of_decide_eq_true same
      exact decide_eq_true ⟨by rw [exact_name], by rw [exact_name]; exact List.isPrefixOf_iff_prefix.mpr (List.prefix_refl _)⟩

end Results

-- The name added last goes on behind the identifier by 1024.
def shortname : Name := ⟨text "a", by decide⟩

def longname : Name := ⟨text "afffffffffj", by decide⟩

theorem zasfindval_longer :
    (run false [.zasaddval ⟨shortname, 1⟩, .zasaddval ⟨longname, 2⟩] >>= fun tabs => zasfindval false 3 tabs.zasvalhash shortname) =
        some (some (1, 2, [])) ∧
      latestval [.zasaddval ⟨shortname, 1⟩, .zasaddval ⟨longname, 2⟩] shortname = some (0, 1, []) ∧
      ¬Right false [.zasaddval ⟨shortname, 1⟩, .zasaddval ⟨longname, 2⟩] shortname shortname 0 := by
  have found : (run false [.zasaddval ⟨shortname, 1⟩, .zasaddval ⟨longname, 2⟩] >>= fun tabs => zasfindval false 3 tabs.zasvalhash shortname) =
      some (some (1, 2, [])) := by decide +kernel
  refine ⟨found, by decide +kernel, ?_⟩
  rintro ⟨tabs, done, right⟩
  have first := (right 3 (by decide)).1
  rw [done, Option.bind_eq_bind, Option.bind_some, first] at found
  exact absurd found (by decide +kernel)

end OsZero.Zas.Symtab

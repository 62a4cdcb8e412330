import Mathlib.Algebra.Group.Nat.Defs
import Mathlib.Data.BitVec
import OsZero.Zcc.Idtrie
import OsZero.Lib.Buckets

set_option autoImplicit false

namespace OsZero.Zcc.Idhash

open Cstring Buckets Idtrie

-- The characters that are stored one behind the other in the sz bytes of item->str.
structure Strbuf where
  chars : List UInt8
  sz : Nat

-- *ptr++ = c; none outside of the allocated bytes.
def Strbuf.put (buf : Strbuf) (c : UInt8) : Option Strbuf :=
  if buf.chars.length < buf.sz then some { buf with chars := buf.chars ++ [c] } else none

-- if (len == sz) the string is moved to twice as many bytes.
def Strbuf.grow (buf : Strbuf) : Strbuf := if buf.chars.length = buf.sz then { buf with sz := buf.sz <<< 1 } else buf

def shifted (key : BitVec 64) (c : UInt8) : BitVec 64 := (key <<< 3) + BitVec.ofNat 64 (chvaltab c)

def copyloop (buf : Strbuf) (key : BitVec 64) : List UInt8 → Option (Strbuf × BitVec 64)
  | [] => some (buf, key)
  | c :: str => if isident c then buf.grow.put c >>= fun buf => copyloop buf (shifted key c) str else some (buf, key)

-- key &= (NSTRHASH - 1);
def masked (key : BitVec 64) : Nat := (key &&& (BitVec.ofNat 64 nstrhash - 1)).toNat

structure Item where
  str : List UInt8
  val : Int
deriving Inhabited

-- The string of an item is what stands in front of the NUL that is put behind it.
def zccaddid (tab : Table Nat Item) (item : Nat) (str : List UInt8) (val : Int) : Option (Table Nat Item) :=
  if isfirst (str.headD 0) then
    (Strbuf.mk [] 8).put (str.headD 0) >>= fun buf =>
      copyloop buf (shifted 0 (str.headD 0)) str.tail >>= fun copied =>
        copied.1.put 0 >>= fun _ =>
          tab.load nstrhash (masked copied.2) >>= fun link => (tab.set item ⟨copied.1.chars, val⟩ link).store nstrhash (masked copied.2) item
  else some tab

def idkey (word : List UInt8) : Nat := masked (word.foldl shifted 0)

-- strncmp(item->str, ptr, len) with the len characters of the identifier.
def zccfindid (fuel : Nat) (tab : Table Nat Item) (str : List UInt8) : Option Int :=
  if isfirst (str.headD 0) then
    let ptr := str.takeWhile isident
    (tab.load nstrhash (idkey ptr) >>= tab.walk (fun item => ptr.isPrefixOf item.str) fuel).map fun found =>
      (found.map fun item => if (tab.fields item).str.length = ptr.length then (tab.fields item).val else zccNone).getD zccNone
  else some zccNone

-- The nth addition fills the nth item.
def run (adds : List Added) : Option (Table Nat Item × Nat) :=
  adds.foldlM (fun state add => (zccaddid state.1 state.2 add.1 add.2).map fun tab => (tab, state.2 + 1)) (⟨fun _ => none, fun _ => none, fun _ => default⟩, 0)

def items : List Added → List (Nat × Item)
  | [] => []
  | add :: older => (older.length, ⟨add.1, add.2⟩) :: items older

-- A length that fills the string up to its last byte.
def Full (len : Nat) : Prop := ∃ doublings, len = 8 * 2 ^ doublings

-- The identifier was added, and after it one of its bucket that goes on behind it.
def Hidden (adds : List Added) (str : List UInt8) : Prop :=
  let word := str.takeWhile isident
  isfirst (str.headD 0) = true ∧ (∃ add ∈ adds, add.1 = word) ∧
    Ahead (fun item : Item => idkey item.str = idkey word ∧ word.isPrefixOf item.str = true) (fun item => item.str = word) (items adds.reverse)

-- Both builds store inside of what they have allocated and find the value added last.
def Right (adds : List Added) (str : List UInt8) : Prop :=
  (∃ state, run adds = some state ∧ ∀ fuel, adds.length < fuel → zccfindid fuel state.1 str = some (lastval adds str)) ∧
    ∃ tab, Idtrie.run adds = some tab ∧ Idtrie.zccfindid tab str = some (lastval adds str)

section Strings

-- The buffer is the smallest one of 8, 16, 32, ... bytes that holds the characters.
def Sized (buf : Strbuf) : Prop := ∃ doublings, buf.sz = 8 * 2 ^ doublings ∧ buf.chars.length ≤ buf.sz ∧ (doublings = 0 ∨ buf.sz < 2 * buf.chars.length)

theorem sized_full (buf : Strbuf) (sized : Sized buf) : buf.chars.length < buf.sz ↔ ¬Full buf.chars.length := by
  obtain ⟨doublings, size, fits, least⟩ := sized
  constructor
  · rintro less ⟨other, full⟩
    have before : other < doublings := by
      rw [full, size] at less
      exact (Nat.pow_lt_pow_iff_right (by decide : 1 < 2)).mp (Nat.lt_of_mul_lt_mul_left less)
    rcases least with first | more
    · omega
    · rw [size, full, Nat.mul_left_comm, ← Nat.pow_succ'] at more
      have after := (Nat.pow_lt_pow_iff_right (by decide : 1 < 2)).mp (Nat.lt_of_mul_lt_mul_left more)
      omega
  · intro other
    exact Nat.lt_of_le_of_ne fits fun full => other ⟨doublings, full.trans size⟩

theorem grow_put (buf : Strbuf) (c : UInt8) (sized : Sized buf) (started : 0 < buf.chars.length) :
    ∃ after, buf.grow.put c = some after ∧ after.chars = buf.chars ++ [c] ∧ Sized after := by
  obtain ⟨doublings, size, fits, least⟩ := sized
  have longer : (buf.chars ++ [c]).length = buf.chars.length + 1 := List.length_append
  by_cases full : buf.chars.length = buf.sz
  · have double : buf.sz <<< 1 = 2 * buf.sz := by rw [Nat.shiftLeft_eq, Nat.pow_one, Nat.mul_comm]
    refine ⟨⟨buf.chars ++ [c], buf.sz <<< 1⟩, ?_, rfl, doublings + 1, ?_, ?_, .inr ?_⟩
    · rw [Strbuf.grow, if_pos full, Strbuf.put]
      exact if_pos (by dsimp only; omega)
    · rw [double, size, Nat.pow_succ']
      exact Nat.mul_left_comm ..
    · dsimp only
      omega
    · dsimp only
      omega
  · refine ⟨⟨buf.chars ++ [c], buf.sz⟩, ?_, rfl, doublings, size, ?_, least.imp_right fun less => ?_⟩
    · rw [Strbuf.grow, if_neg full, Strbuf.put]
      exact if_pos (by omega)
    · dsimp only
      omega
    · dsimp only
      omega

theorem copyloop_copies (str : List UInt8) (buf : Strbuf) (key : BitVec 64) (ident : ∀ c ∈ str, isident c = true) (sized : Sized buf)
    (started : 0 < buf.chars.length) :
    ∃ after, copyloop buf key str = some (after, str.foldl shifted key) ∧ after.chars = buf.chars ++ str ∧ Sized after := by
  induction str generalizing buf key with
  | nil => exact ⟨buf, rfl, (List.append_nil _).symm, sized⟩
  | cons c str ih =>
    obtain ⟨next, put, chars, kept⟩ := grow_put buf c sized started
    obtain ⟨after, done, all, last⟩ := ih next (shifted key c) (fun d member => ident d (List.mem_cons_of_mem _ member)) kept
      (by rw [chars, List.length_append]; omega)
    refine ⟨after, ?_, ?_, last⟩
    · rw [copyloop, if_pos (ident c List.mem_cons_self), put]
      exact done
    · rw [all, chars, List.append_assoc]
      rfl

end Strings

section Tables

theorem masked_less (key : BitVec 64) : masked key < nstrhash := by
  have mask : (BitVec.ofNat 64 nstrhash - 1).toNat < nstrhash := by decide
  rw [masked, BitVec.toNat_and]
  exact Nat.lt_of_le_of_lt Nat.and_le_right mask

-- An identifier is filed if its string has room for the NUL; else the NUL is stored behind it.
theorem zccaddid_stores (tab : Table Nat Item) (entries : List (Nat × Item)) (item : Nat) (add : Added) (identifier : Identifier add.1)
    (filed : Filed tab (fun item => idkey item.str) entries) (fresh : item ∉ entries.map Prod.fst) :
    (Full add.1.length → zccaddid tab item add.1 add.2 = none) ∧
      (¬Full add.1.length → ∃ after, zccaddid tab item add.1 add.2 = some after ∧
        Filed after (fun item => idkey item.str) ((item, ⟨add.1, add.2⟩) :: entries)) := by
  obtain ⟨str, val⟩ := add
  cases str with
  | nil =>
    have letter : isfirst 0 = true := identifier.1
    exact absurd letter (by decide)
  | cons c str =>
    have start : (Strbuf.mk [] 8).put c = some ⟨[c], 8⟩ := rfl
    obtain ⟨⟨chars, sz⟩, copied, same, sized⟩ := copyloop_copies str ⟨[c], 8⟩ (shifted 0 c) (fun d member => identifier.2 d (List.mem_cons_of_mem _ member))
      ⟨0, rfl, Nat.le_of_ble_eq_true rfl, .inl rfl⟩ Nat.one_pos
    have whole : chars = c :: str := same
    subst whole
    have room := sized_full _ sized
    have key : masked (str.foldl shifted (shifted 0 c)) = idkey (c :: str) := rfl
    have body : zccaddid tab item (c :: str) val = (Strbuf.mk (c :: str) sz).put 0 >>= fun _ =>
        tab.load nstrhash (idkey (c :: str)) >>= fun link => (tab.set item ⟨c :: str, val⟩ link).store nstrhash (idkey (c :: str)) item := by
      have head : (c :: str).headD 0 = c := rfl
      rw [zccaddid, if_pos identifier.1, head, start, List.tail_cons, Option.bind_eq_bind, Option.bind_some, copied]
      rfl
    constructor
    · intro full
      have outside : (Strbuf.mk (c :: str) sz).put 0 = none := if_neg fun less => room.mp less full
      rw [body, outside]
      rfl
    · intro other
      have inside : (Strbuf.mk (c :: str) sz).put 0 = some ⟨(c :: str) ++ [0], sz⟩ := if_pos (room.mpr other)
      obtain ⟨after, stored, kept⟩ := filed_push tab nstrhash (fun item => idkey item.str) entries item ⟨c :: str, val⟩ filed fresh (masked_less _)
      have loaded : tab.load nstrhash (idkey (c :: str)) = some (tab.head (idkey (c :: str))) := if_pos (masked_less _)
      refine ⟨after, ?_, kept⟩
      rw [body, inside, loaded]
      exact stored

theorem items_less (older : List Added) (item : Nat × Item) (member : item ∈ items older) : item.1 < older.length := by
  induction older with
  | nil => contradiction
  | cons add older ih =>
    rcases List.mem_cons.mp member with rfl | before
    · exact Nat.lt_succ_self _
    · exact Nat.lt_succ_of_lt (ih before)

theorem items_fresh (older : List Added) : older.length ∉ (items older).map Prod.fst := by
  intro member
  obtain ⟨item, inside, same⟩ := List.mem_map.mp member
  exact absurd (items_less older item inside) (by omega)

theorem items_length (older : List Added) : (items older).length = older.length := by
  induction older with
  | nil => rfl
  | cons add older ih => rw [items, List.length_cons, List.length_cons, ih]

theorem items_find (older : List Added) (word : List UInt8) :
    ((items older).find? fun item => item.2.str = word).map (fun item => item.2.val) = (older.find? fun add => add.1 = word).map Prod.snd := by
  induction older with
  | nil => rfl
  | cons add older ih =>
    by_cases same : add.1 = word
    · rw [items, List.find?_cons_of_pos (by exact decide_eq_true same), List.find?_cons_of_pos (by exact decide_eq_true same)]
      rfl
    · rw [items, List.find?_cons_of_neg (by rw [decide_eq_true_eq]; exact same), List.find?_cons_of_neg (by rw [decide_eq_true_eq]; exact same), ih]

theorem run_filed (adds : List Added) (tab : Table Nat Item) (older : List Added) (identifiers : ∀ add ∈ adds, Identifier add.1)
    (filed : Filed tab (fun item => idkey item.str) (items older)) :
    ((∃ add ∈ adds, Full add.1.length) →
        adds.foldlM (fun state add => (zccaddid state.1 state.2 add.1 add.2).map fun tab => (tab, state.2 + 1)) (tab, older.length) = none) ∧
      ((∀ add ∈ adds, ¬Full add.1.length) → ∃ after,
        adds.foldlM (fun state add => (zccaddid state.1 state.2 add.1 add.2).map fun tab => (tab, state.2 + 1)) (tab, older.length) =
          some (after, (adds.reverse ++ older).length) ∧ Filed after (fun item => idkey item.str) (items (adds.reverse ++ older))) := by
  induction adds generalizing tab older with
  | nil =>
    refine ⟨fun full => ?_, fun _ => ⟨tab, rfl, filed⟩⟩
    obtain ⟨add, none, -⟩ := full
    exact absurd none List.not_mem_nil
  | cons add adds ih =>
    have first := zccaddid_stores tab (items older) older.length add (identifiers add List.mem_cons_self) filed (items_fresh older)
    have rest := fun other member => identifiers other (List.mem_cons_of_mem add member)
    by_cases full : Full add.1.length
    · refine ⟨fun _ => ?_, fun none => absurd full (none add List.mem_cons_self)⟩
      rw [List.foldlM_cons, first.1 full]
      rfl
    · obtain ⟨next, stored, kept⟩ := first.2 full
      have later := ih next (add :: older) rest kept
      rw [List.foldlM_cons, stored, List.reverse_cons, List.append_assoc]
      refine ⟨fun some_full => later.1 ?_, fun none => later.2 fun other member => none other (List.mem_cons_of_mem _ member)⟩
      obtain ⟨other, member, fills⟩ := some_full
      exact ⟨other, (List.mem_cons.mp member).resolve_left (fun same => full (same ▸ fills)), fills⟩

end Tables

section Results

-- The item that the walk stops at counts if it is the identifier.
theorem zccfindid_entries (tab : Table Nat Item) (entries : List (Nat × Item)) (fuel : Nat) (str : List UInt8)
    (filed : Filed tab (fun item => idkey item.str) entries) (enough : entries.length < fuel) (letter : isfirst (str.headD 0) = true) :
    zccfindid fuel tab str = some ((((entries.find? fun entry => decide (idkey entry.2.str = idkey (str.takeWhile isident) ∧
      (str.takeWhile isident).isPrefixOf entry.2.str = true)).filter fun entry => entry.2.str = str.takeWhile isident).map fun entry => entry.2.val).getD zccNone) := by
  have loaded : tab.load nstrhash (idkey (str.takeWhile isident)) = some (tab.head (idkey (str.takeWhile isident))) := if_pos (masked_less _)
  have walked := walk_filed tab _ entries filed (fun item => (str.takeWhile isident).isPrefixOf item.str) (idkey (str.takeWhile isident)) fuel enough
  simp only [zccfindid, letter, if_true, loaded, Option.bind_eq_bind, Option.bind_some, walked, Option.map_some]
  refine congrArg some ?_
  cases found : entries.find? fun entry => decide (idkey entry.2.str = idkey (str.takeWhile isident) ∧ (str.takeWhile isident).isPrefixOf entry.2.str = true) with
  | none => rfl
  | some entry =>
    have passed := of_decide_eq_true (List.find?_some (p := fun entry : Nat × Item =>
      decide (idkey entry.2.str = idkey (str.takeWhile isident) ∧ (str.takeWhile isident).isPrefixOf entry.2.str = true)) found)
    have inside : str.takeWhile isident <+: entry.2.str := List.isPrefixOf_iff_prefix.mp passed.2
    rw [Option.map_some, Option.map_some, Option.getD_some, filed.fields entry (List.mem_of_find?_eq_some found)]
    by_cases same : entry.2.str = str.takeWhile isident
    · rw [if_pos (congrArg List.length same), Option.filter_some_pos (by exact decide_eq_true same)]
      rfl
    · rw [if_neg fun length => same (inside.eq_of_length length.symm).symm, Option.filter_some_neg (by exact decide_eq_false same)]
      rfl

theorem zccfindid_iff (adds : List Added) (tab : Table Nat Item) (str : List UInt8) (fuel : Nat) (vals : ∀ add ∈ adds, add.2 ≠ zccNone)
    (filed : Filed tab (fun item => idkey item.str) (items adds.reverse)) (enough : adds.length < fuel) :
    zccfindid fuel tab str = some (lastval adds str) ↔ ¬Hidden adds str := by
  cases letter : isfirst (str.headD 0) with
  | false =>
    refine iff_of_true (by rw [zccfindid, lastval, letter]; rfl) fun hidden => ?_
    exact Bool.false_ne_true (letter.symm.trans hidden.1)
  | true =>
    have spec : lastval adds str = (((items adds.reverse).find? fun item => item.2.str = str.takeWhile isident).map fun item => item.2.val).getD zccNone := by
      rw [items_find, lastval, if_pos letter]
    have short : (items adds.reverse).length < fuel := by
      rw [items_length, List.length_reverse]
      exact enough
    rw [zccfindid_entries tab _ fuel str filed short letter]
    by_cases ahead : Ahead (fun item : Item => idkey item.str = idkey (str.takeWhile isident) ∧ (str.takeWhile isident).isPrefixOf item.str = true)
        (fun item => item.str = str.takeWhile isident) (items adds.reverse)
    · rw [find_ahead_none _ _ _ ahead, Option.map_none, Option.getD_none, Option.some_inj, eq_comm, lastval, if_pos letter,
        value_none adds.reverse _ fun add member => vals add (List.mem_reverse.mp member)]
      constructor
      · rintro none ⟨-, ⟨add, member, same⟩, -⟩
        exact none add (List.mem_reverse.mpr member) same
      · intro clear add member same
        exact clear ⟨letter, ⟨add, List.mem_reverse.mp member, same⟩, ahead⟩
    · rw [spec]
      refine iff_of_true ?_ fun hidden => ahead hidden.2.2
      rw [find_same _ _ _ (fun item same => ?_) ahead]
      · exact congrArg (fun found => some (Option.getD (Option.map (fun item : Nat × Item => item.2.val) found) zccNone))
          (find_passes (fun item : Item => decide (item.str = str.takeWhile isident)) _)
      · have word : item.str = str.takeWhile isident := of_decide_eq_true same
        exact decide_eq_true ⟨by rw [word], by rw [word]; exact List.isPrefixOf_iff_prefix.mpr (List.prefix_refl _)⟩

theorem ids_right_iff (adds : List Added) (str : List UInt8) (identifiers : ∀ add ∈ adds, Identifier add.1) (vals : ∀ add ∈ adds, add.2 ≠ zccNone) :
    Right adds str ↔ (∀ add ∈ adds, ¬Full add.1.length) ∧ ¬Hidden adds str ∧ ¬Alone adds str := by
  have empty : Filed (⟨fun _ => none, fun _ => none, fun _ => default⟩ : Table Nat Item) (fun item => idkey item.str) (items []) :=
    filed_empty _ _ fun _ => rfl
  have hashed := run_filed adds _ [] identifiers empty
  obtain ⟨trie, done, kept⟩ := Idtrie.run_kept adds _ [] identifiers Idtrie.start_kept
  rw [List.append_nil] at hashed kept
  have tried := Idtrie.zccfindid_iff adds trie str identifiers vals kept
  have second : (∃ tab, Idtrie.run adds = some tab ∧ Idtrie.zccfindid tab str = some (lastval adds str)) ↔ ¬Alone adds str := by
    rw [← tried]
    constructor
    · rintro ⟨tab, again, found⟩
      obtain rfl := Option.some.inj (done.symm.trans again)
      exact found
    · exact fun found => ⟨trie, done, found⟩
  rw [Right, second, ← and_assoc]
  refine and_congr_left fun _ => ?_
  constructor
  · rintro ⟨state, ran, found⟩
    have room : ∀ add ∈ adds, ¬Full add.1.length := by
      intro add member full
      have fails := hashed.1 ⟨add, member, full⟩
      exact absurd (ran.symm.trans fails) (Option.some_ne_none state)
    obtain ⟨after, again, filed⟩ := hashed.2 room
    obtain rfl := Option.some.inj (ran.symm.trans again)
    exact ⟨room, (zccfindid_iff adds after str _ vals filed (Nat.lt_succ_self _)).mp (found _ (Nat.lt_succ_self _))⟩
  · rintro ⟨room, clear⟩
    obtain ⟨after, ran, filed⟩ := hashed.2 room
    exact ⟨_, ran, fun fuel enough => (zccfindid_iff adds after str fuel vals filed enough).mpr clear⟩

end Results

-- An identifier, one that goes on behind it, and the first one with another value.
def prefixed : List Added := [(text "in", 4), (text "int", 5), (text "in", 6)]

theorem ids_right_iff_prefixed : (Right prefixed (text "in;") ∧ lastval prefixed (text "in;") = 6) ∧
    Right prefixed (text "int x") ∧ lastval prefixed (text "int x") = 5 := by
  have identifiers : ∀ add ∈ prefixed, Identifier add.1 := by
    unfold Identifier
    decide +kernel
  have vals : ∀ add ∈ prefixed, add.2 ≠ zccNone := by decide
  have room : ∀ add ∈ prefixed, ¬Full add.1.length := by
    rintro add member ⟨doublings, full⟩
    have short : ∀ add ∈ prefixed, 0 < add.1.length ∧ add.1.length < 8 := by decide
    have bounds := short add member
    have power := Nat.one_le_two_pow (n := doublings)
    omega
  have letters : ((text "in;").takeWhile isident).length ≠ 1 ∧ ((text "int x").takeWhile isident).length ≠ 1 := by decide +kernel
  refine ⟨⟨(ids_right_iff prefixed (text "in;") identifiers vals).mpr ⟨room, ?_, ?_⟩, by decide +kernel⟩,
    (ids_right_iff prefixed (text "int x") identifiers vals).mpr ⟨room, ?_, ?_⟩, by decide +kernel⟩
  · rintro ⟨-, -, ahead⟩
    exact absurd ((Buckets.ahead_cons _ _ _ _).mp ahead).1 (by decide +kernel)
  · rintro ⟨c, -, single, -⟩
    exact letters.1 (congrArg List.length single)
  · rintro ⟨-, -, ahead⟩
    rcases ((Buckets.ahead_cons _ _ _ _).mp ahead).2 with longer | ahead
    · exact absurd longer (by decide +kernel)
    · exact absurd ((Buckets.ahead_cons _ _ _ _).mp ahead).1 (by decide +kernel)
  · rintro ⟨c, -, single, -⟩
    exact letters.2 (congrArg List.length single)

-- The string of volatile is as long as its first buffer, and x alone is not found.
theorem zccaddid_overflows :
    run [(text "volatile", 4)] = none ∧ (Idtrie.run [(text "x", 7)] >>= fun tab => Idtrie.zccfindid tab (text "x")) = some zccNone ∧
      ¬Right [(text "volatile", 4)] (text "volatile") ∧ ¬Right [(text "x", 7)] (text "x") := by
  have stored : run [(text "volatile", 4)] = none := by decide
  have found : (Idtrie.run [(text "x", 7)] >>= fun tab => Idtrie.zccfindid tab (text "x")) = some zccNone := by decide
  refine ⟨stored, found, ?_, ?_⟩
  · rintro ⟨⟨state, ran, -⟩, -⟩
    exact absurd (ran.symm.trans stored) (Option.some_ne_none state)
  · rintro ⟨-, tab, ran, value⟩
    rw [ran, Option.bind_eq_bind, Option.bind_some, value] at found
    exact absurd found (by decide)

end OsZero.Zcc.Idhash

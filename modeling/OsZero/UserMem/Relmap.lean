import OsZero.UserMem.Cells

set_option autoImplicit false

namespace OsZero.UserMem

def memwordsizeshift : Nat := 3
def membufbitmapwords : Nat := 16
def wordsize : Nat := 8

-- A buffer with the words in which other threads mark the blocks they free.
structure Relbuf where
  buf : Membuf
  relmap : Nat → BitVec 64

-- Behind its 16 words relmap runs on into stk, four entries to a word.
def membufsetrel (rel : Relbuf) (id : Nat) : Relbuf :=
  let ndx := id >>> memwordsizeshift
  let bit := id &&& ((1 <<< memwordsizeshift) - 1)
  if ndx < membufbitmapwords then
    { rel with relmap := Function.update rel.relmap ndx (rel.relmap ndx ||| (1#64 <<< bit)) }
  else
    let entry := 4 * (ndx - membufbitmapwords)
    { rel with buf := { rel.buf with stk := Function.update rel.buf.stk entry (rel.buf.stk entry ||| (1 <<< bit)) } }

-- A long is a long long here.
def tzerol (u : BitVec 64) : Nat := tzeroll u

-- The do loop on one word; id is what it leaves in the counter of the outer
-- loop.
def memrelword (buf : Membuf) (rel : BitVec 64) (ofs : Nat) : Nat → Option (Membuf × Nat)
  | 0 => none
  | fuel + 1 =>
      let id := tzerol rel
      if id < wordsize then
        let ofs := ofs + wordsize * 8
        (membufputfree buf ((id + ofs) % 65536)).bind fun buf => memrelword buf (rel ||| ~~~(1#64 <<< id)) ofs fuel
      else some (buf, id)

def memrelwords (relmap : Nat → BitVec 64) (buf : Membuf) (id : Nat) : Nat → Option Membuf
  | 0 => none
  | fuel + 1 =>
      if id < membufbitmapwords then
        if relmap id ≠ 0 then
          (memrelword buf (relmap id) id fuel).bind fun word => memrelwords relmap word.1 (word.2 + 1 + 1) fuel
        else memrelwords relmap buf (id + 1) fuel
      else some buf

def membuffreerel (fuel : Nat) (rel : Relbuf) : Option Relbuf :=
  (memrelwords rel.relmap rel.buf 0 fuel).map fun buf => { rel with buf := buf }

def freeids (buf : Membuf) : List Nat := (List.range (buf.geo.nblk - buf.stktop)).map fun cur => buf.stk (buf.stktop + cur)

-- Blocks in use that are to be marked in a buffer that has no mark yet.
structure Remote (rel : Relbuf) (ids : List Nat) : Prop where
  stacked : Stacked rel.buf
  clear : ∀ ndx < membufbitmapwords, rel.relmap ndx = 0
  distinct : ids.Nodup
  busy : ∀ id ∈ ids, id < rel.buf.geo.nblk ∧ ¬ Idle rel.buf id

structure Collected (rel after : Relbuf) (ids : List Nat) : Prop where
  free : (freeids after.buf).Perm (freeids rel.buf ++ ids)
  nfree : after.buf.nfree = rel.buf.nfree + ids.length
  clear : ∀ ndx < membufbitmapwords, after.relmap ndx = 0
  header : after.buf.geo = rel.buf.geo ∧ after.buf.tls = rel.buf.tls
  stk : ∀ entry, rel.buf.geo.nblk ≤ entry → after.buf.stk entry = rel.buf.stk entry

def GivenBack (rel : Relbuf) (ids : List Nat) : Prop :=
  ∃ fuel after, membuffreerel fuel (ids.foldl membufsetrel rel) = some after ∧ Collected rel after ids

theorem tzerol_low (u : BitVec 64) (i : Nat) (small : i < 64) (set : u.getLsbD i = true) :
    tzerol u ≤ i ∧ u.getLsbD (tzerol u) = true := by
  unfold tzerol tzeroll
  cases found : (List.range 64).find? fun j => u.getLsbD j with
  | none =>
      have clear := List.find?_eq_none.mp found i (List.mem_range.mpr small)
      exact absurd set clear
  | some first =>
      obtain ⟨here, -, before⟩ := List.find?_range_eq_some.mp found
      refine ⟨?_, here⟩
      by_contra above
      have clear := before i (by simpa using above)
      simp [set] at clear

-- The mask sets every bit but one, and that one is set.
theorem ormask_odd (rel : BitVec 64) (set : rel.getLsbD (tzerol rel) = true) :
    (rel ||| ~~~(1#64 <<< tzerol rel)).getLsbD 0 = true := by
  generalize tzerol rel = id at *
  cases id with
  | zero => simp [set]
  | succ id => simp

-- A word with a bit below WORDSIZE keeps the loop going until the stack is
-- overrun.
theorem relword_spins (fuel : Nat) (buf : Membuf) (rel : BitVec 64) (ofs i : Nat) (small : i < wordsize)
    (set : rel.getLsbD i = true) : memrelword buf rel ofs fuel = none := by
  induction fuel generalizing buf rel ofs i with
  | zero => rfl
  | succ fuel ih =>
      unfold wordsize at small
      obtain ⟨low, here⟩ := tzerol_low rel i (by omega) set
      rw [memrelword]
      dsimp only
      rw [if_pos (show tzerol rel < wordsize by unfold wordsize; omega), Option.bind_eq_none_iff]
      exact fun after _ => ih after _ _ 0 (by decide) (ormask_odd rel here)

def Low (relmap : Nat → BitVec 64) : Prop :=
  ∀ ndx < membufbitmapwords, relmap ndx ≠ 0 → ∃ i < wordsize, (relmap ndx).getLsbD i = true

theorem relwords_spin (fuel : Nat) (relmap : Nat → BitVec 64) (buf : Membuf) (id ndx : Nat) (low : Low relmap) (ahead : id ≤ ndx)
    (inside : ndx < membufbitmapwords) (marked : relmap ndx ≠ 0) : memrelwords relmap buf id fuel = none := by
  induction fuel generalizing id with
  | zero => rfl
  | succ fuel ih =>
      rw [memrelwords, if_pos (by omega)]
      by_cases here : relmap id = 0
      · rw [if_neg (not_not_intro here)]
        apply ih
        by_contra past
        have same : id = ndx := by omega
        exact marked (same ▸ here)
      · rw [if_pos here]
        obtain ⟨i, small, set⟩ := low id (by omega) here
        rw [relword_spins fuel buf (relmap id) id i small set]
        rfl

theorem relwords_clear (fuel : Nat) (relmap : Nat → BitVec 64) (buf : Membuf) (id : Nat)
    (clear : ∀ ndx < membufbitmapwords, relmap ndx = 0) :
    memrelwords relmap buf id fuel = if membufbitmapwords - id < fuel then some buf else none := by
  induction fuel generalizing id with
  | zero => rfl
  | succ fuel ih =>
      rw [memrelwords]
      by_cases inside : id < membufbitmapwords
      · rw [if_pos inside, if_neg (not_not_intro (clear id inside)), ih (id + 1)]
        simp only [show membufbitmapwords - (id + 1) < fuel ↔ membufbitmapwords - id < fuel + 1 by omega]
      · rw [if_neg inside, if_pos (by omega)]

theorem setrel_low (rel : Relbuf) (id : Nat) (low : Low rel.relmap) : Low (membufsetrel rel id).relmap := by
  intro ndx inside marked
  have bit : id &&& ((1 <<< memwordsizeshift) - 1) < wordsize :=
    Nat.lt_of_le_of_lt Nat.and_le_right (show (1 <<< 3) - 1 < 8 by decide)
  have small := bit
  unfold wordsize at small
  unfold membufsetrel at marked ⊢
  dsimp only at marked ⊢
  split at marked
  · rename_i fits
    rw [if_pos fits]
    dsimp only at marked ⊢
    by_cases same : ndx = id >>> memwordsizeshift
    · subst same
      refine ⟨_, bit, ?_⟩
      rw [Function.update_self, BitVec.getLsbD_or, BitVec.getLsbD_shiftLeft]
      simp [show id &&& ((1 <<< memwordsizeshift) - 1) < 64 by omega]
    · rw [Function.update_of_ne same] at marked ⊢
      exact low ndx inside marked
  · rename_i fits
    rw [if_neg fits]
    exact low ndx inside marked

theorem setrel_kept (rel : Relbuf) (id : Nat) : (membufsetrel rel id).buf.nfree = rel.buf.nfree := by
  unfold membufsetrel
  dsimp only
  split <;> rfl

theorem setrels_low (ids : List Nat) (rel : Relbuf) (low : Low rel.relmap) :
    Low (ids.foldl membufsetrel rel).relmap ∧ (ids.foldl membufsetrel rel).buf.nfree = rel.buf.nfree := by
  induction ids generalizing rel with
  | nil => exact ⟨low, rfl⟩
  | cons id ids ih =>
      obtain ⟨rest, kept⟩ := ih (membufsetrel rel id) (setrel_low rel id low)
      exact ⟨rest, kept.trans (setrel_kept rel id)⟩

-- The collector gets through only where it finds no word with a mark, and then
-- it gives nothing back.
theorem collected_nothing (rel : Relbuf) (ids : List Nat) (low : Low rel.relmap) (back : GivenBack rel ids) : ids = [] := by
  obtain ⟨fuel, after, call, collected⟩ := back
  obtain ⟨marks, kept⟩ := setrels_low ids rel low
  obtain ⟨buf, words, rfl⟩ := Option.map_eq_some_iff.mp call
  by_cases clear : ∀ ndx < membufbitmapwords, (ids.foldl membufsetrel rel).relmap ndx = 0
  · rw [relwords_clear fuel _ _ 0 clear] at words
    split at words
    · cases words
      have grown := collected.nfree
      rw [kept] at grown
      exact List.eq_nil_of_length_eq_zero (by omega)
    · cases words
  · obtain ⟨ndx, inside, marked⟩ : ∃ ndx < membufbitmapwords, (ids.foldl membufsetrel rel).relmap ndx ≠ 0 := by simpa using clear
    rw [relwords_spin fuel _ _ 0 ndx marks (Nat.zero_le ndx) inside marked] at words
    cases words

theorem clear_low (relmap : Nat → BitVec 64) (clear : ∀ ndx < membufbitmapwords, relmap ndx = 0) : Low relmap :=
  fun ndx inside marked => absurd (clear ndx inside) marked

theorem membuffreerel_returns (rel : Relbuf) (ids : List Nat) (remote : Remote rel ids) : GivenBack rel ids ↔ ids = [] := by
  constructor
  · exact collected_nothing rel ids (clear_low rel.relmap remote.clear)
  · rintro rfl
    refine ⟨17, rel, ?_, ?_⟩
    · rw [List.foldl_nil, membuffreerel, relwords_clear 17 _ _ 0 remote.clear, if_pos (by decide)]
      rfl
    · exact ⟨by simp, by simp, remote.clear, ⟨rfl, rfl⟩, fun _ _ => rfl⟩

def usedup (nblk : Nat) : Relbuf := ⟨⟨⟨0x101000, .small, 4, nblk, 0⟩, true, 0, fun cur => cur, nblk⟩, fun _ => 0⟩

theorem usedup_remote (nblk : Nat) (ids : List Nat) (small : nblk ≤ membufmaxblks) (distinct : ids.Nodup)
    (below : ∀ id ∈ ids, id < nblk) : Remote (usedup nblk) ids := by
  refine ⟨⟨?_, Nat.le_refl nblk, small, ?_, ?_⟩, fun _ _ => rfl, distinct, fun id member => ⟨below id member, ?_⟩⟩
  · exact Int.add_zero _
  · exact fun cur _ high => high
  · exact fun one two _ _ _ _ same => same
  · rintro ⟨cur, low, high, -⟩
    exact absurd high (Nat.not_lt_of_le low)

theorem membuffreerel_returns_none : GivenBack (usedup 1024) [] :=
  (membuffreerel_returns _ [] (usedup_remote 1024 [] (by decide) .nil (by simp))).mpr rfl

-- One marked block is enough: the loop on its word does not end.
theorem marked_block_lost :
    Remote (usedup 1024) [0] ∧ (∀ fuel, membuffreerel fuel (membufsetrel (usedup 1024) 0) = none) ∧ ¬ GivenBack (usedup 1024) [0] := by
  have remote := usedup_remote 1024 [0] (by decide) (by simp) (by simp)
  have low := clear_low (usedup 1024).relmap remote.clear
  refine ⟨remote, fun fuel => ?_, fun back => ?_⟩
  · rw [membuffreerel, relwords_spin fuel _ _ 0 0 (setrel_low (usedup 1024) 0 low) (Nat.le_refl 0) (by decide) (by decide)]
    rfl
  · cases collected_nothing (usedup 1024) [0] low back

end OsZero.UserMem

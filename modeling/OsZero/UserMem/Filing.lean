import Mathlib.Data.List.Perm.Subperm
import OsZero.UserMem.Colors
import OsZero.UserMem.Lookup

set_option autoImplicit false

namespace OsZero.UserMem

open Chains Runs

theorem blkcolor_exact (sites : Sites) (blk : Nat) : memblkcolor sites blk = 2 * ((memblkadr sites blk + 32) / 65536 % 9) := by
  have low := sites.below (blk / 32)
  refine hashtabadr_exact _ ?_
  unfold memblkadr
  omega

-- Whatever its color, a block has room for its first 54 items.
theorem early_inside (sites : Sites) (blk n : Nat) (early : n < 54) : Inside sites blk n := by
  have color := blkcolor_exact sites blk
  unfold Inside memhashwords memhasharraywords
  omega

theorem first_inside (sites : Sites) (blk : Nat) : Inside sites blk 0 := early_inside sites blk 0 (by decide)

-- The blocks of the chains and of the free list, each in the order of its
-- links; no block is in two of them.
structure Linkage (hash : Hash) (blocks : Nat → List Nat) (spare : List Nat) : Prop where
  chains : ∀ key, Seg hash.chain (hash.head key) (blocks key) none
  buf : Seg hash.chain hash.hashbuf spare none
  nodup : ∀ key, (blocks key).Nodup
  spareNodup : spare.Nodup
  apart : ∀ key other blk, blk ∈ blocks key → blk ∈ blocks other → key = other
  unused : ∀ key blk, blk ∈ blocks key → blk ∉ spare
  made : ∀ key blk, blk ∈ blocks key → blk < hash.nblk
  spareMade : ∀ blk ∈ spare, blk < hash.nblk

def locked (hash : Hash) (key : Nat) : Hash := { hash with lk := Function.update hash.lk key true }

theorem lkbit_free (hash : Hash) (key : Nat) (free : hash.lk = fun _ => false) : memlkbit hash key = some (locked hash key) := by
  simp [memlkbit, locked, free]

theorem lock_released (key : Nat) :
    Function.update (Function.update (fun _ : Nat => false) key true) key false = fun _ => false := by
  simp

theorem relbit_locked (hash : Hash) (key : Nat) (free : hash.lk = fun _ => false) : memrelbit (locked hash key) key = hash := by
  cases hash
  simp only at free
  simp only [memrelbit, locked, free, lock_released]

theorem blocks_bounded (hash : Hash) (blocks : Nat → List Nat) (spare : List Nat) (linkage : Linkage hash blocks spare)
    (key : Nat) : (blocks key).length ≤ hash.nblk := by
  have inside : blocks key ⊆ List.range hash.nblk := fun blk member => List.mem_range.mpr (linkage.made key blk member)
  have bound := (List.subperm_of_subset (linkage.nodup key) inside).length_le
  rwa [List.length_range] at bound

theorem linkage_frame (hash after : Hash) (blocks : Nat → List Nat) (spare : List Nat) (linkage : Linkage hash blocks spare)
    (chain : after.chain = hash.chain) (head : after.head = hash.head) (hashbuf : after.hashbuf = hash.hashbuf)
    (nblk : after.nblk = hash.nblk) : Linkage after blocks spare := by
  obtain ⟨chains, buf, nodup, spareNodup, apart, unused, made, spareMade⟩ := linkage
  rw [← chain, ← head] at chains
  rw [← chain, ← hashbuf] at buf
  rw [← nblk] at made spareMade
  exact ⟨chains, buf, nodup, spareNodup, apart, unused, made, spareMade⟩

theorem lookup_hit (hash : Hash) (blocks : Nat → List Nat) (spare : List Nat) (linkage : Linkage hash blocks spare) (key : Nat)
    (page : BitVec 64) (front back : List Nat) (blk slot : Nat) (split : blocks key = front ++ blk :: back)
    (miss : ∀ other ∈ front, memfindslot hash page other = none) (hit : memfindslot hash page blk = some slot) :
    memlookup hash key page = some (.found blk slot front.getLast?) := by
  have seg := linkage.chains key
  have bound := blocks_bounded hash blocks spare linkage key
  rw [split] at seg bound
  cases start : hash.head key with
  | none =>
      rw [start] at seg
      cases front <;> cases seg.1
  | some first =>
      rw [start] at seg
      have walk := findblk_hit hash page front back blk slot hash.nblk first none none seg bound miss hit
      simp only [memlookup, start, walk, Option.or_none]

theorem lookup_none (hash : Hash) (blocks : Nat → List Nat) (spare : List Nat) (linkage : Linkage hash blocks spare) (key : Nat)
    (page : BitVec 64) (miss : ∀ blk ∈ blocks key, memfindslot hash page blk = none) :
    memlookup hash key page = some (.missing ((blocks key).foldl (fun dest item => memdest hash item dest) none)) := by
  have seg := linkage.chains key
  have bound := blocks_bounded hash blocks spare linkage key
  cases start : hash.head key with
  | none =>
      rw [start] at seg
      cases chain : blocks key with
      | nil => simp only [memlookup, start, List.foldl_nil]
      | cons first rest =>
          rw [chain] at seg
          cases seg.1
  | some first =>
      rw [start] at seg
      simp only [memlookup, start, findblk_miss hash page _ hash.nblk first none none seg bound miss]

-- Where the walk tells an addition to go: to a block of the chain that is not
-- full, or nowhere when all are.
def Choice (hash : Hash) (chain : List Nat) (dest : Option (Nat × Nat)) : Prop :=
  (dest = none ∧ ∀ blk ∈ chain, hash.ntab blk = memhasharrayitems) ∨
    ∃ blk ∈ chain, dest = some (blk, hash.ntab blk) ∧ hash.ntab blk ≠ memhasharrayitems

theorem first_hit (hash : Hash) (page : BitVec 64) (chain : List Nat) :
    (∀ blk ∈ chain, memfindslot hash page blk = none) ∨
      ∃ front blk back slot, chain = front ++ blk :: back ∧ (∀ other ∈ front, memfindslot hash page other = none) ∧
        memfindslot hash page blk = some slot := by
  induction chain with
  | nil => exact Or.inl (by simp)
  | cons blk chain ih =>
      cases here : memfindslot hash page blk with
      | some slot => exact Or.inr ⟨[], blk, chain, slot, rfl, by simp, here⟩
      | none =>
          rcases ih with miss | ⟨front, other, back, slot, split, miss, hit⟩
          · exact Or.inl (by simpa [here] using miss)
          · exact Or.inr ⟨blk :: front, other, back, slot, by rw [split]; rfl, by simpa [here] using miss, hit⟩

theorem lookup_cases (hash : Hash) (blocks : Nat → List Nat) (spare : List Nat) (linkage : Linkage hash blocks spare) (key : Nat)
    (page : BitVec 64) :
    (∃ front blk back slot, blocks key = front ++ blk :: back ∧ slot < hash.ntab blk ∧ hash.adr blk slot = page ∧
        memlookup hash key page = some (.found blk slot front.getLast?)) ∨
      ∃ dest, memlookup hash key page = some (.missing dest) ∧ Choice hash (blocks key) dest := by
  rcases first_hit hash page (blocks key) with miss | ⟨front, blk, back, slot, split, miss, hit⟩
  · exact Or.inr ⟨_, lookup_none hash blocks spare linkage key page miss, dest_first hash (blocks key)⟩
  · obtain ⟨inside, same⟩ := slot_sound hash page blk slot hit
    exact Or.inl ⟨front, blk, back, slot, split, inside, same,
      lookup_hit hash blocks spare linkage key page front back blk slot split miss hit⟩

theorem mem_to_front (front back : List Nat) (item blk : Nat) : blk ∈ toFront item front back ↔ blk ∈ front ++ item :: back := by
  simp only [toFront, List.mem_cons, List.mem_append]
  tauto

theorem to_front_linkage (hash : Hash) (blocks : Nat → List Nat) (spare : List Nat) (key : Nat) (front back : List Nat) (last blk : Nat)
    (linkage : Linkage hash blocks spare) (split : blocks key = front ++ [last] ++ blk :: back) :
    Linkage (memhashtofront (locked hash key) key blk (some last))
      (Function.update blocks key (toFront blk (front ++ [last]) back)) spare := by
  have nodup := linkage.nodup key
  have seg := linkage.chains key
  rw [split] at nodup seg
  have members : ∀ other item, item ∈ Function.update blocks key (toFront blk (front ++ [last]) back) other ↔ item ∈ blocks other := by
    intro other item
    by_cases same : other = key
    · subst same
      rw [Function.update_self, split, mem_to_front]
    · rw [Function.update_of_ne same]
  have lastMember : last ∈ blocks key := by simp [split]
  have blkMember : blk ∈ blocks key := by simp [split]
  constructor
  · intro other
    by_cases same : other = key
    · subst same
      simp only [memhashtofront, memsethead, locked, Function.update_self]
      exact seg_to_front hash.chain (hash.head other) front back last blk seg nodup
    · simp only [memhashtofront, memsethead, locked, Function.update_of_ne same]
      apply seg_update _ _ _ _ _ _ (seg_update _ _ _ _ _ _ (linkage.chains other) ?_)
      · exact fun member => same (linkage.apart other key blk member blkMember)
      · exact fun member => same (linkage.apart other key last member lastMember)
  · simp only [memhashtofront, memsethead, locked]
    exact seg_update _ _ _ _ _ _ (seg_update _ _ _ _ _ _ linkage.buf (linkage.unused key last lastMember))
      (linkage.unused key blk blkMember)
  · intro other
    by_cases same : other = key
    · subst same
      rw [Function.update_self]
      exact List.perm_middle.nodup_iff.mp nodup
    · rw [Function.update_of_ne same]
      exact linkage.nodup other
  · exact linkage.spareNodup
  · intro one two item first second
    exact linkage.apart one two item ((members one item).mp first) ((members two item).mp second)
  · intro other item member
    exact linkage.unused other item ((members other item).mp member)
  · intro other item member
    exact linkage.made other item ((members other item).mp member)
  · exact linkage.spareMade

-- A block that is found comes to the front of its chain, and no item changes.
structure Fronted (hash after : Hash) (blocks others : Nat → List Nat) (spare : List Nat) : Prop where
  linkage : Linkage after others spare
  members : ∀ key blk, blk ∈ blocks key → blk ∈ others key
  ntab : after.ntab = hash.ntab
  adr : after.adr = hash.adr
  val : after.val = hash.val
  free : after.lk = fun _ => false
  buffree : after.buflk = false

theorem found_fronted (hash : Hash) (blocks : Nat → List Nat) (spare : List Nat) (key blk : Nat) (front back : List Nat)
    (free : hash.lk = fun _ => false) (buffree : hash.buflk = false) (linkage : Linkage hash blocks spare)
    (split : blocks key = front ++ blk :: back) :
    ∃ others, Fronted hash (memhashtofront (locked hash key) key blk front.getLast?) blocks others spare := by
  cases last : front.getLast? with
  | none =>
      rw [memhashtofront, relbit_locked hash key free]
      exact ⟨blocks, linkage, fun _ _ same => same, rfl, rfl, rfl, free, buffree⟩
  | some prev =>
      obtain ⟨before, rfl⟩ := List.getLast?_eq_some_iff.mp last
      refine ⟨_, to_front_linkage hash blocks spare key before back prev blk linkage split, ?_, rfl, rfl, rfl, ?_, buffree⟩
      · intro other item member
        by_cases same : other = key
        · subst same
          rw [Function.update_self, mem_to_front, ← split]
          exact member
        · rw [Function.update_of_ne same]
          exact member
      · simp only [memhashtofront, memsethead, locked, free, lock_released]

structure Stored (hash after : Hash) (blk : Nat) (page desc : BitVec 64) : Prop where
  ntab : after.ntab = Function.update hash.ntab blk (hash.ntab blk + 1)
  adr : after.adr = Function.update hash.adr blk (Function.update (hash.adr blk) (hash.ntab blk) page)
  val : after.val = Function.update hash.val blk (Function.update (hash.val blk) (hash.ntab blk) desc)

theorem stored_new (hash after : Hash) (blk : Nat) (page desc : BitVec 64) (stored : Stored hash after blk page desc) :
    hash.ntab blk < after.ntab blk ∧ after.adr blk (hash.ntab blk) = page ∧ after.val blk (hash.ntab blk) = desc := by
  simp [stored.ntab, stored.adr, stored.val]

theorem stored_old (hash after : Hash) (blk : Nat) (page desc : BitVec 64) (stored : Stored hash after blk page desc)
    (other i : Nat) (inside : i < hash.ntab other) :
    i < after.ntab other ∧ after.adr other i = hash.adr other i ∧ after.val other i = hash.val other i := by
  rw [stored.ntab, stored.adr, stored.val]
  by_cases same : other = blk
  · subst same
    have different : i ≠ hash.ntab other := by omega
    simp only [Function.update_self, Function.update_of_ne different]
    exact ⟨by omega, trivial, trivial⟩
  · simp only [Function.update_of_ne same]
    exact ⟨inside, trivial, trivial⟩

theorem stored_cases (hash after : Hash) (blk : Nat) (page desc : BitVec 64) (stored : Stored hash after blk page desc)
    (other i : Nat) (inside : i < after.ntab other) : (other = blk ∧ i = hash.ntab blk) ∨ i < hash.ntab other := by
  rw [stored.ntab] at inside
  by_cases same : other = blk
  · subst same
    rw [Function.update_self] at inside
    omega
  · rw [Function.update_of_ne same] at inside
    exact Or.inr inside

theorem storeitem_inside (sites : Sites) (hash : Hash) (blk : Nat) (page desc : BitVec 64) (inside : Inside sites blk (hash.ntab blk)) :
    ∃ after, memstoreitem sites hash blk (hash.ntab blk) page desc = some after ∧ Stored hash after blk page desc ∧
      after.chain = hash.chain ∧ after.head = hash.head ∧ after.hashbuf = hash.hashbuf ∧ after.nblk = hash.nblk ∧
      after.lk = hash.lk ∧ after.buflk = hash.buflk := by
  unfold memstoreitem
  rw [if_pos inside]
  exact ⟨_, rfl, ⟨rfl, rfl, rfl⟩, rfl, rfl, rfl, rfl, rfl, rfl⟩

theorem linkitems_spec (n next : Nat) (hash : Hash) :
    (∀ blk, (memlinkhashitems n next hash).chain blk = if next ≤ blk ∧ blk < next + n then some (blk + 1) else hash.chain blk) ∧
      (∀ blk, (memlinkhashitems n next hash).ntab blk = if next ≤ blk ∧ blk < next + n then 0 else hash.ntab blk) ∧
      (memlinkhashitems n next hash).head = hash.head ∧ (memlinkhashitems n next hash).adr = hash.adr ∧
      (memlinkhashitems n next hash).val = hash.val ∧ (memlinkhashitems n next hash).lk = hash.lk := by
  induction n generalizing next hash with
  | zero =>
      refine ⟨fun blk => ?_, fun blk => ?_, rfl, rfl, rfl, rfl⟩
      · rw [if_neg (by omega)]
        rfl
      · rw [if_neg (by omega)]
        rfl
  | succ n ih =>
      obtain ⟨chain, ntab, head, adr, val, lk⟩ := ih (next + 1)
        { meminithashitem hash next with chain := Function.update (meminithashitem hash next).chain next (some (next + 1)) }
      refine ⟨fun blk => ?_, fun blk => ?_, head, adr, val, lk⟩
      · rw [memlinkhashitems, chain]
        by_cases same : blk = next
        · subst same
          rw [if_neg (by omega), if_pos (by omega)]
          exact Function.update_self _ _ _
        · by_cases later : next + 1 ≤ blk ∧ blk < next + 1 + n
          · rw [if_pos later, if_pos (by omega)]
          · rw [if_neg later, if_neg (by omega)]
            simp [meminithashitem, same]
      · rw [memlinkhashitems, ntab]
        by_cases same : blk = next
        · subst same
          rw [if_neg (by omega), if_pos (by omega)]
          simp [meminithashitem]
        · by_cases later : next + 1 ≤ blk ∧ blk < next + 1 + n
          · rw [if_pos later, if_pos (by omega)]
          · rw [if_neg later, if_neg (by omega)]
            simp [meminithashitem, same]

def Filed (hash : Hash) (blocks : Nat → List Nat) : Prop := ∀ blk, hash.ntab blk ≠ 0 → ∃ key, blk ∈ blocks key

theorem unused_empty (hash : Hash) (blocks : Nat → List Nat) (filed : Filed hash blocks) (blk : Nat)
    (outside : ∀ key, blk ∉ blocks key) : hash.ntab blk = 0 := by
  by_contra used
  obtain ⟨key, member⟩ := filed blk used
  exact outside key member

-- What a block from memgethashitem is: a block that is in no list, with the
-- other lists and all items as they were.
structure Taken (hash after : Hash) (blocks : Nat → List Nat) (rest : List Nat) (item : Nat) : Prop where
  linkage : Linkage after blocks rest
  new : ∀ key, item ∉ blocks key
  gone : item ∉ rest
  made : item < after.nblk
  head : after.head = hash.head
  ntab : after.ntab = hash.ntab
  adr : after.adr = hash.adr
  val : after.val = hash.val
  lk : after.lk = hash.lk
  free : after.buflk = false

theorem gethashitem_spare (hash : Hash) (blocks : Nat → List Nat) (spare : List Nat) (item : Nat)
    (linkage : Linkage hash blocks (item :: spare)) (free : hash.buflk = false) :
    ∃ after, memgethashitem hash = some (after, item) ∧ Taken hash after blocks spare item := by
  obtain ⟨start, rest⟩ := linkage.buf
  obtain ⟨gone, nodup⟩ := List.nodup_cons.mp linkage.spareNodup
  refine ⟨{ hash with hashbuf := hash.chain item, buflk := false }, ?_, ?_⟩
  · simp [memgethashitem, free, start]
  · refine ⟨⟨linkage.chains, rest, linkage.nodup, nodup, linkage.apart, ?_, linkage.made, ?_⟩, ?_, gone,
      linkage.spareMade item List.mem_cons_self, rfl, rfl, rfl, rfl, rfl, rfl⟩
    · exact fun key blk member inside => linkage.unused key blk member (List.mem_cons_of_mem _ inside)
    · exact fun blk member => linkage.spareMade blk (List.mem_cons_of_mem _ member)
    · exact fun key member => linkage.unused key item member List.mem_cons_self

-- The list that a new mapping leaves in g_mem.hashbuf.
theorem mapitems_listed (hash : Hash) :
    Seg (memmaphashitems hash).1.chain (memmaphashitems hash).1.hashbuf (List.range' (hash.nblk + 1) 31) none := by
  apply seg_consecutive _ (hash.nblk + 1) 30
  · intro blk low high
    have last : blk ≠ hash.nblk + 1 + 30 := by omega
    simp only [memmaphashitems, Function.update_of_ne last, (linkitems_spec _ _ _).1]
    rw [if_pos (by omega)]
  · simp [memmaphashitems]

theorem gethashitem_mapped (hash : Hash) (blocks : Nat → List Nat) (linkage : Linkage hash blocks []) (free : hash.buflk = false)
    (empty : ∀ blk, hash.nblk ≤ blk → hash.ntab blk = 0) :
    ∃ after, memgethashitem hash = some (after, hash.nblk) ∧ Taken hash after blocks (List.range' (hash.nblk + 1) 31) hash.nblk := by
  have none : hash.hashbuf = none := linkage.buf
  obtain ⟨chain, ntab, head, adr, val, lk⟩ := linkitems_spec 31 (hash.nblk + 1) (meminithashitem hash hash.nblk)
  have below : ∀ key blk, blk ∈ blocks key → blk < hash.nblk := linkage.made
  refine ⟨(memmaphashitems hash).1, ?_, ⟨⟨?_, mapitems_listed hash, linkage.nodup, List.nodup_range', linkage.apart, ?_, ?_, ?_⟩, ?_, ?_, ?_, head, ?_,
    adr, val, lk, rfl⟩⟩
  · simp [memgethashitem, free, none, memmaphashitems]
  · intro key
    have same : (memmaphashitems hash).1.head key = hash.head key := congrFun head key
    rw [same]
    apply seg_frame hash.chain _ _ _ _ (linkage.chains key)
    intro blk member
    have low := below key blk member
    have last : blk ≠ hash.nblk + 1 + 30 := by omega
    have here : blk ≠ hash.nblk := by omega
    simp only [memmaphashitems, Function.update_of_ne last, chain]
    rw [if_neg (by omega)]
    simp [meminithashitem, here]
  · intro key blk member inside
    have low := below key blk member
    have high := (List.mem_range'_1.mp inside).1
    omega
  · intro key blk member
    have low := below key blk member
    change blk < hash.nblk + 32
    omega
  · intro blk member
    have high := (List.mem_range'_1.mp member).2
    change blk < hash.nblk + 32
    omega
  · intro key member
    have low := below key hash.nblk member
    omega
  · intro member
    have low := (List.mem_range'_1.mp member).1
    omega
  · change hash.nblk < hash.nblk + 32
    omega
  · funext blk
    change (memlinkhashitems 31 (hash.nblk + 1) (meminithashitem hash hash.nblk)).ntab blk = hash.ntab blk
    rw [ntab]
    by_cases mapped : hash.nblk + 1 ≤ blk ∧ blk < hash.nblk + 1 + 31
    · rw [if_pos mapped, empty blk (by omega)]
    · rw [if_neg mapped]
      by_cases here : blk = hash.nblk
      · subst here
        simp [meminithashitem, empty]
      · simp [meminithashitem, here]

theorem gethashitem_taken (hash : Hash) (blocks : Nat → List Nat) (spare : List Nat)
    (linkage : Linkage hash blocks spare) (filed : Filed hash blocks) (free : hash.buflk = false) :
    ∃ after item rest, memgethashitem hash = some (after, item) ∧ Taken hash after blocks rest item := by
  cases spare with
  | nil =>
      have empty : ∀ blk, hash.nblk ≤ blk → hash.ntab blk = 0 := by
        intro blk high
        apply unused_empty hash blocks filed
        intro key member
        have low := linkage.made key blk member
        omega
      obtain ⟨after, got, taken⟩ := gethashitem_mapped hash blocks linkage free empty
      exact ⟨after, hash.nblk, _, got, taken⟩
  | cons item spare =>
      obtain ⟨after, got, taken⟩ := gethashitem_spare hash blocks spare item linkage free
      exact ⟨after, item, spare, got, taken⟩

theorem front_linkage (hash after : Hash) (blocks : Nat → List Nat) (rest : List Nat) (key item : Nat)
    (taken : Taken hash after blocks rest item) :
    Linkage (memsethead { after with chain := Function.update after.chain item (after.head key) } key (some item))
      (Function.update blocks key (item :: blocks key)) rest := by
  have linkage := taken.linkage
  have members : ∀ other blk, blk ∈ Function.update blocks key (item :: blocks key) other →
      (other = key ∧ blk = item) ∨ blk ∈ blocks other := by
    intro other blk member
    by_cases same : other = key
    · subst same
      rw [Function.update_self] at member
      rcases List.mem_cons.mp member with here | there
      · exact Or.inl ⟨rfl, here⟩
      · exact Or.inr there
    · rw [Function.update_of_ne same] at member
      exact Or.inr member
  constructor
  · intro other
    by_cases same : other = key
    · subst same
      simp only [memsethead, Function.update_self]
      refine ⟨rfl, ?_⟩
      rw [Function.update_self]
      exact seg_update _ _ _ _ _ _ (linkage.chains other) (taken.new other)
    · simp only [memsethead, Function.update_of_ne same]
      exact seg_update _ _ _ _ _ _ (linkage.chains other) (taken.new other)
  · exact seg_update _ _ _ _ _ _ linkage.buf taken.gone
  · intro other
    by_cases same : other = key
    · subst same
      rw [Function.update_self]
      exact List.nodup_cons.mpr ⟨taken.new other, linkage.nodup other⟩
    · rw [Function.update_of_ne same]
      exact linkage.nodup other
  · exact linkage.spareNodup
  · intro one two blk left right
    rcases members one blk left with ⟨rfl, rfl⟩ | oldLeft
    · rcases members two blk right with ⟨rfl, -⟩ | oldRight
      · rfl
      · exact absurd oldRight (taken.new two)
    · rcases members two blk right with ⟨rfl, rfl⟩ | oldRight
      · exact absurd oldLeft (taken.new one)
      · exact linkage.apart one two blk oldLeft oldRight
  · intro other blk member
    rcases members other blk member with ⟨-, rfl⟩ | member
    · exact taken.gone
    · exact linkage.unused other blk member
  · intro other blk member
    rcases members other blk member with ⟨-, rfl⟩ | member
    · exact taken.made
    · exact linkage.made other blk member
  · exact linkage.spareMade

structure Added (hash after : Hash) (blocks others : Nat → List Nat) (spare : List Nat) (blk : Nat) (page desc : BitVec 64) : Prop where
  linkage : Linkage after others spare
  stored : Stored hash after blk page desc
  member : blk ∈ others (memhashkey page)
  members : ∀ key item, item ∈ blocks key → item ∈ others key
  free : after.lk = fun _ => false
  buffree : after.buflk = false

theorem additem_room (sites : Sites) (hash : Hash) (blocks : Nat → List Nat) (spare : List Nat) (blk : Nat) (page desc : BitVec 64)
    (free : hash.lk = fun _ => false) (buffree : hash.buflk = false) (linkage : Linkage hash blocks spare)
    (member : blk ∈ blocks (memhashkey page)) (inside : Inside sites blk (hash.ntab blk)) :
    ∃ next, memadditem sites (locked hash (memhashkey page)) (memhashkey page) page desc (some (blk, hash.ntab blk)) = some next ∧
      Added hash next blocks blocks spare blk page desc := by
  obtain ⟨after, store, stored, chain, head, hashbuf, nblk, lk, buflk⟩ :=
    storeitem_inside sites (locked hash (memhashkey page)) blk page desc inside
  change memstoreitem sites (locked hash (memhashkey page)) blk (hash.ntab blk) page desc = some after at store
  refine ⟨memrelbit after (memhashkey page), by simp only [memadditem, store, Option.map_some], ?_, ?_, member,
    fun _ _ same => same, ?_, ?_⟩
  · exact linkage_frame hash _ blocks spare linkage chain head hashbuf nblk
  · exact ⟨stored.ntab, stored.adr, stored.val⟩
  · simp only [memrelbit, lk, locked, free, lock_released]
  · exact buflk.trans buffree

theorem addblk_added (sites : Sites) (hash : Hash) (blocks : Nat → List Nat) (spare : List Nat) (page desc : BitVec 64)
    (free : hash.lk = fun _ => false) (buffree : hash.buflk = false) (linkage : Linkage hash blocks spare)
    (filed : Filed hash blocks) :
    ∃ next others rest blk, memaddblk sites (locked hash (memhashkey page)) (memhashkey page) page desc = some next ∧
      Added hash next blocks others rest blk page desc := by
  have lockedLinkage := linkage_frame hash (locked hash (memhashkey page)) blocks spare linkage rfl rfl rfl rfl
  obtain ⟨got, item, rest, call, taken⟩ := gethashitem_taken _ blocks spare lockedLinkage filed buffree
  have empty : got.ntab item = 0 := by
    rw [taken.ntab]
    exact unused_empty hash blocks filed item taken.new
  have front := front_linkage _ got blocks rest (memhashkey page) item taken
  obtain ⟨after, store, stored, chain, head, hashbuf, nblk, lk, buflk⟩ :=
    storeitem_inside sites { got with chain := Function.update got.chain item (got.head (memhashkey page)) } item page desc
      (by simpa only [empty] using first_inside sites item)
  simp only [empty] at store
  refine ⟨memsethead after (memhashkey page) (some item), Function.update blocks (memhashkey page) (item :: blocks (memhashkey page)),
    rest, item, ?_, ?_, ?_, ?_, ?_, ?_, ?_⟩
  · simp only [memaddblk, call, Option.bind_eq_bind, Option.bind_some, store]
  · refine linkage_frame _ (memsethead after (memhashkey page) (some item)) _ rest front chain ?_ hashbuf nblk
    simp only [memsethead, head]
  · have same : got.ntab = hash.ntab ∧ got.adr = hash.adr ∧ got.val = hash.val := ⟨taken.ntab, taken.adr, taken.val⟩
    obtain ⟨ntab, adr, val⟩ := stored
    simp only [same.1, same.2.1, same.2.2] at ntab adr val
    exact ⟨ntab, adr, val⟩
  · rw [Function.update_self]
    exact List.mem_cons_self
  · intro other blk member
    by_cases same : other = memhashkey page
    · subst same
      rw [Function.update_self]
      exact List.mem_cons_of_mem _ member
    · rw [Function.update_of_ne same]
      exact member
  · simp only [memsethead, lk, taken.lk, locked, free, lock_released]
  · exact buflk.trans taken.free

theorem additem_added (sites : Sites) (hash : Hash) (blocks : Nat → List Nat) (spare : List Nat) (page desc : BitVec 64)
    (dest : Option (Nat × Nat)) (free : hash.lk = fun _ => false) (buffree : hash.buflk = false) (linkage : Linkage hash blocks spare)
    (filed : Filed hash blocks)
    (room : ∀ blk ∈ blocks (memhashkey page), hash.ntab blk ≠ memhasharrayitems → Inside sites blk (hash.ntab blk))
    (choice : Choice hash (blocks (memhashkey page)) dest) :
    ∃ next others rest blk, memadditem sites (locked hash (memhashkey page)) (memhashkey page) page desc dest = some next ∧
      Added hash next blocks others rest blk page desc := by
  rcases choice with ⟨rfl, full⟩ | ⟨blk, member, rfl, space⟩
  · obtain ⟨next, others, rest, blk, call, added⟩ := addblk_added sites hash blocks spare page desc free buffree linkage filed
    have nowhere := findroom_full (locked hash (memhashkey page)) (blocks (memhashkey page)) hash.nblk (hash.head (memhashkey page)) none
      (linkage.chains _) (blocks_bounded hash blocks spare linkage _) full
    change memfindroom (locked hash (memhashkey page)) (locked hash (memhashkey page)).nblk
      ((locked hash (memhashkey page)).head (memhashkey page)) none = some none at nowhere
    exact ⟨next, others, rest, blk, by simp only [memadditem, nowhere, Option.bind_some, memaddroom, call], added⟩
  · obtain ⟨next, call, added⟩ := additem_room sites hash blocks spare blk page desc free buffree linkage member (room blk member space)
    exact ⟨next, blocks, spare, blk, call, added⟩

-- A hash whose items are all of one kind. A page may have several: an
-- addition that does not find its page stores it again.
structure Records (hash : Hash) (Item : BitVec 64 → BitVec 64 → Prop) : Prop where
  free : hash.lk = fun _ => false
  buffree : hash.buflk = false
  linked : ∃ blocks spare, Linkage hash blocks spare ∧ Filed hash blocks
  items : ∀ blk i, i < hash.ntab blk → Item (hash.adr blk i) (hash.val blk i)

def Roomy (sites : Sites) (hash : Hash) : Prop := ∀ blk, hash.ntab blk ≠ memhasharrayitems → Inside sites blk (hash.ntab blk)

def hasroom (hash : Hash) : Bool := (List.range hash.nblk).all fun blk => hash.ntab blk < 54

-- A block that was not made yet has no items.
theorem records_roomy (sites : Sites) (hash : Hash) (Item : BitVec 64 → BitVec 64 → Prop) (records : Records hash Item)
    (room : hasroom hash = true) : Roomy sites hash := by
  obtain ⟨blocks, spare, linkage, filed⟩ := records.linked
  intro blk _
  apply early_inside
  by_cases empty : hash.ntab blk = 0
  · omega
  · obtain ⟨key, member⟩ := filed blk empty
    have made := linkage.made key blk member
    simp only [hasroom, List.all_eq_true, List.mem_range, decide_eq_true_eq] at room
    exact room blk made

theorem records_mono (hash : Hash) (Item Other : BitVec 64 → BitVec 64 → Prop) (records : Records hash Item)
    (weaken : ∀ page desc, Item page desc → Other page desc) : Records hash Other :=
  ⟨records.free, records.buffree, records.linked, fun blk i inside => weaken _ _ (records.items blk i inside)⟩

theorem added_filed (hash after : Hash) (blocks others : Nat → List Nat) (spare : List Nat) (blk : Nat) (page desc : BitVec 64)
    (filed : Filed hash blocks) (added : Added hash after blocks others spare blk page desc) : Filed after others := by
  intro other used
  rcases stored_cases hash after blk page desc added.stored other 0 (Nat.pos_of_ne_zero used) with ⟨rfl, -⟩ | old
  · exact ⟨_, added.member⟩
  · obtain ⟨key, member⟩ := filed other (Nat.ne_of_gt old)
    exact ⟨key, added.members key other member⟩

theorem add_records (sites : Sites) (hash : Hash) (Item : BitVec 64 → BitVec 64 → Prop) (ptr buf id : BitVec 64)
    (records : Records hash Item) (roomy : Roomy sites hash) (new : Item (memptrpage ptr) (buf ||| id)) :
    ∃ next out, membufop sites hash (.add ptr buf id) = some (next, out) ∧ Records next Item := by
  obtain ⟨free, buffree, ⟨blocks, spare, linkage, filed⟩, items⟩ := records
  have lockedLinkage := linkage_frame hash (locked hash (memhashkey (memptrpage ptr))) blocks spare linkage rfl rfl rfl rfl
  rcases lookup_cases _ blocks spare lockedLinkage (memhashkey (memptrpage ptr)) (memptrpage ptr) with
    ⟨front, blk, back, slot, split, -, -, lookup⟩ | ⟨dest, lookup, choice⟩
  · obtain ⟨others, fronted⟩ := found_fronted hash blocks spare _ blk front back free buffree linkage split
    refine ⟨memhashtofront (locked hash (memhashkey (memptrpage ptr))) (memhashkey (memptrpage ptr)) blk front.getLast?,
      hash.val blk slot, ?_, fronted.free, fronted.buffree, ⟨others, spare, fronted.linkage, ?_⟩, ?_⟩
    · simp only [membufop, Memop.page, lkbit_free hash _ free, lookup, Option.bind_eq_bind, Option.bind_some, memfinish]
      rfl
    · intro other used
      rw [fronted.ntab] at used
      obtain ⟨key, member⟩ := filed other used
      exact ⟨key, fronted.members key other member⟩
    · rw [fronted.ntab, fronted.adr, fronted.val]
      exact items
  · obtain ⟨next, others, rest, blk, call, added⟩ := additem_added sites hash blocks spare (memptrpage ptr) (buf ||| id) dest free
      buffree linkage filed (fun blk _ => roomy blk) choice
    refine ⟨next, buf ||| id, ?_, added.free, added.buffree,
      ⟨others, rest, added.linkage, added_filed hash next blocks others rest blk _ _ filed added⟩, ?_⟩
    · simp only [membufop, Memop.page, lkbit_free hash _ free, lookup, Option.bind_eq_bind, Option.bind_some, memfinish,
        call, Option.map_some]
    · intro other i inside
      rcases stored_cases hash next blk _ _ added.stored other i inside with ⟨rfl, rfl⟩ | old
      · obtain ⟨-, adr, val⟩ := stored_new hash next other _ _ added.stored
        rw [adr, val]
        exact new
      · obtain ⟨-, adr, val⟩ := stored_old hash next blk _ _ added.stored other i old
        rw [adr, val]
        exact items other i old

theorem lookup_records (hash : Hash) (Item : BitVec 64 → BitVec 64 → Prop) (page : BitVec 64) (records : Records hash Item) :
    ∃ lookup, memlookup (locked hash (memhashkey page)) (memhashkey page) page = some lookup ∧
      ∀ blk slot prev, lookup = .found blk slot prev → Item page (hash.val blk slot) := by
  obtain ⟨-, -, ⟨blocks, spare, linkage, -⟩, items⟩ := records
  have lockedLinkage := linkage_frame hash (locked hash (memhashkey page)) blocks spare linkage rfl rfl rfl rfl
  rcases lookup_cases _ blocks spare lockedLinkage (memhashkey page) page with
    ⟨front, blk, back, slot, split, inside, same, lookup⟩ | ⟨dest, lookup, -⟩
  · refine ⟨_, lookup, ?_⟩
    rintro _ _ _ ⟨⟩
    have item := items blk slot inside
    change hash.adr blk slot = page at same
    rwa [same] at item
  · exact ⟨_, lookup, nofun⟩

end OsZero.UserMem

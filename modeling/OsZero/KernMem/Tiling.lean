import OsZero.KernMem.Buddy

set_option autoImplicit false

namespace OsZero.KernMem

-- The blocks that the loop of meminitvirt records, address and bucket, in its order.
def meminitblks : Nat → Nat → Nat → List (Nat × Nat)
  | 0, _, _ => []
  | bktid + 1, nbyte, adr =>
      if nbyte = 0 ∨ bktid + 1 < pagesizelog2 then []
      else if nbyte &&& (1 <<< (bktid + 1)) ≠ 0 then
        (adr, bktid + 1) :: meminitblks bktid (nbyte - (1 <<< (bktid + 1))) (adr + (1 <<< (bktid + 1)))
      else meminitblks bktid nbyte adr

def recorded (pool : Mempool) (lim : Nat) : List (Nat × Nat) := meminitblks (ptrbits - 1) (lim - pool.base) pool.base

-- A block is recorded as free in its header and on the list of its bucket.
def record (pool : Mempool) (blk : Nat × Nat) : Mempool :=
  (pool.onMag (memgetmag blk.1 pool) (memmagmkfree blk.2)).setList blk.2 (some (memgetmag blk.1 pool))

theorem meminitbkts_records (bktid nbyte adr : Nat) (pool : Mempool) :
    meminitbkts bktid nbyte adr pool = (meminitblks bktid nbyte adr).foldl record pool := by
  induction bktid generalizing nbyte adr pool with
  | zero => rfl
  | succ bktid ih =>
      rw [meminitbkts, meminitblks]
      by_cases ends : nbyte = 0 ∨ bktid + 1 < pagesizelog2
      · rw [if_pos ends, if_pos ends]
        rfl
      · rw [if_neg ends, if_neg ends]
        by_cases bit : nbyte &&& (1 <<< (bktid + 1)) ≠ 0
        · rw [if_pos bit, if_pos bit, List.foldl_cons]
          exact ih _ _ _
        · rw [if_neg bit, if_neg bit]
          exact ih _ _ _

-- What the remaining length says of a round of the loop that is made.
theorem remaining_cases (bktid nbyte : Nat) (small : nbyte < 1 <<< (bktid + 2)) :
    (nbyte < 1 <<< (bktid + 1) ∧ nbyte &&& (1 <<< (bktid + 1)) = 0) ∨
      ∃ rest, nbyte = (1 <<< (bktid + 1)) + rest ∧ rest < 1 <<< (bktid + 1) ∧ nbyte &&& (1 <<< (bktid + 1)) ≠ 0 := by
  rcases Nat.lt_or_ge nbyte (1 <<< (bktid + 1)) with less | more
  · exact .inl ⟨less, bit_clear nbyte (bktid + 1) less⟩
  · obtain ⟨rest, rfl⟩ := Nat.exists_eq_add_of_le more
    have double : 1 <<< (bktid + 2) = _ := shift_double (bktid + 1)
    have under : rest < 1 <<< (bktid + 1) := by omega
    exact .inr ⟨rest, rfl, under, bit_set rest (bktid + 1) under⟩

theorem meminitblks_buckets (bktid nbyte adr : Nat) : ∀ blk ∈ meminitblks bktid nbyte adr, pagesizelog2 ≤ blk.2 ∧ blk.2 ≤ bktid := by
  induction bktid generalizing nbyte adr with
  | zero => exact fun blk inside => absurd inside List.not_mem_nil
  | succ bktid ih =>
      intro blk inside
      rw [meminitblks] at inside
      by_cases ends : nbyte = 0 ∨ bktid + 1 < pagesizelog2
      · rw [if_pos ends] at inside
        exact absurd inside List.not_mem_nil
      · rw [if_neg ends] at inside
        by_cases bit : nbyte &&& (1 <<< (bktid + 1)) ≠ 0
        · rw [if_pos bit] at inside
          rcases List.mem_cons.mp inside with rfl | later
          · exact ⟨by dsimp only; omega, Nat.le_refl _⟩
          · have bounds := ih _ _ blk later
            exact ⟨bounds.1, Nat.le_succ_of_le bounds.2⟩
        · rw [if_neg bit] at inside
          have bounds := ih _ _ blk inside
          exact ⟨bounds.1, Nat.le_succ_of_le bounds.2⟩

theorem meminitblks_once (bktid nbyte adr : Nat) : ((meminitblks bktid nbyte adr).map Prod.snd).Nodup := by
  induction bktid generalizing nbyte adr with
  | zero => exact List.nodup_nil
  | succ bktid ih =>
      rw [meminitblks]
      split_ifs
      · exact List.nodup_nil
      · rw [List.map_cons, List.nodup_cons]
        refine ⟨fun again => ?_, ih _ _⟩
        obtain ⟨blk, inside, same⟩ := List.mem_map.mp again
        have bounds := meminitblks_buckets _ _ _ blk inside
        dsimp only at same
        omega
      · exact ih _ _

theorem tiles_none (base : Nat) : Tiles [] base 0 := by
  refine ⟨List.Pairwise.nil, fun adr => ⟨?_, fun inside => by omega⟩⟩
  rintro ⟨region, inside, -⟩
  exact absurd inside List.not_mem_nil

theorem tiles_inside (regions : List (Nat × Nat)) (base size : Nat) (tiles : Tiles regions base size) (region : Nat × Nat)
    (inside : region ∈ regions) (some_bytes : 0 < region.2) : base ≤ region.1 := by
  exact ((tiles.2 region.1).mp ⟨region, inside, Nat.le_refl _, by omega⟩).1

theorem tiles_cons (regions : List (Nat × Nat)) (base first size : Nat) (filled : ∀ region ∈ regions, 0 < region.2)
    (tiles : Tiles regions (base + first) size) : Tiles ((base, first) :: regions) base (first + size) := by
  refine ⟨List.pairwise_cons.mpr ⟨fun region inside => .inl ?_, tiles.1⟩, fun adr => ⟨?_, fun bounds => ?_⟩⟩
  · exact tiles_inside regions _ size tiles region inside (filled region inside)
  · rintro ⟨region, inside, low, high⟩
    rcases List.mem_cons.mp inside with rfl | later
    · dsimp only at low high
      omega
    · have bounds := (tiles.2 adr).mp ⟨region, later, low, high⟩
      omega
  · rcases Nat.lt_or_ge adr (base + first) with here | later
    · exact ⟨(base, first), List.mem_cons_self, bounds.1, here⟩
    · obtain ⟨region, inside, covers⟩ := (tiles.2 adr).mpr ⟨later, by omega⟩
      exact ⟨region, List.mem_cons_of_mem _ inside, covers⟩

def blkregion (blk : Nat × Nat) : Nat × Nat := (blk.1, 1 <<< blk.2)

theorem blkregion_filled (blks : List (Nat × Nat)) : ∀ region ∈ blks.map blkregion, 0 < region.2 := by
  intro region inside
  obtain ⟨blk, -, rfl⟩ := List.mem_map.mp inside
  exact shift_pos blk.2

theorem pages_of_block (bktid rest : Nat) (page : pagesizelog2 ≤ bktid) :
    ((1 <<< bktid) + rest) / 4096 * 4096 = (1 <<< bktid) + rest / 4096 * 4096 := by
  obtain ⟨more, rfl⟩ := Nat.exists_eq_add_of_le page
  have whole : 1 <<< (pagesizelog2 + more) = 2 ^ more * 4096 := by
    rw [Nat.one_shiftLeft, Nat.pow_add, Nat.mul_comm]
    rfl
  rw [whole]
  omega

-- The address, the remaining length and the power of two of a round: the blocks of
-- the rounds from there on tile the remaining pages.
theorem meminitblks_tile (bktid nbyte adr : Nat) (small : nbyte < 1 <<< (bktid + 1)) :
    Tiles ((meminitblks bktid nbyte adr).map blkregion) adr (nbyte / 4096 * 4096) := by
  induction bktid generalizing nbyte adr with
  | zero =>
      rw [show nbyte / 4096 * 4096 = 0 by omega]
      exact tiles_none adr
  | succ bktid ih =>
      rw [meminitblks]
      by_cases ends : nbyte = 0 ∨ bktid + 1 < pagesizelog2
      · have page : nbyte < 4096 := by
          rcases ends with rfl | low
          · decide
          · exact Nat.lt_of_lt_of_le small (shift_mono (bktid + 2) pagesizelog2 low)
        rw [if_pos ends, show nbyte / 4096 * 4096 = 0 by omega]
        exact tiles_none adr
      · rw [if_neg ends]
        rcases remaining_cases bktid nbyte small with ⟨less, clear⟩ | ⟨rest, rfl, under, set⟩
        · rw [clear, if_neg (not_not.mpr rfl)]
          exact ih nbyte adr less
        · rw [if_pos set, Nat.add_sub_cancel_left, List.map_cons, pages_of_block (bktid + 1) rest (by omega)]
          exact tiles_cons _ adr _ _ (blkregion_filled _) (ih rest _ under)

theorem meminitvirt_tiles (pool : Mempool) (lim : Nat) (above : pool.base ≤ lim) (word : lim < 4294967296) :
    meminitvirt pool lim = (recorded pool lim).foldl record pool ∧ ((recorded pool lim).map Prod.snd).Nodup ∧
      Tiles ((recorded pool lim).map fun blk => (blk.1, 1 <<< blk.2)) pool.base ((lim - pool.base) / 4096 * 4096) := by
  obtain ⟨nbyte, rfl⟩ := Nat.exists_eq_add_of_le above
  have small : pool.base + nbyte - pool.base < 1 <<< ptrbits := by
    rw [Nat.add_sub_cancel_left]
    exact Nat.lt_of_le_of_lt (Nat.le_add_left _ _) word
  exact ⟨meminitbkts_records _ _ _ _, meminitblks_once _ _ _, meminitblks_tile (ptrbits - 1) _ _ small⟩

-- Three pages and a rest from one megabyte on.
def threePages : Mempool := bootPool 1048576 64 fun _ => ⟨0, 0, none, none, 0, 0, fun _ => 0⟩

theorem meminitvirt_tiles_three : recorded threePages 1062500 = [(1048576, 13), (1056768, 12)] ∧
    Tiles [(1048576, 8192), (1056768, 4096)] 1048576 12288 := by
  have tiles := (meminitvirt_tiles threePages 1062500 (by decide) (by decide)).2.2
  have blks : recorded threePages 1062500 = [(1048576, 13), (1056768, 12)] := by decide
  rw [blks] at tiles
  exact ⟨blks, tiles⟩

end OsZero.KernMem

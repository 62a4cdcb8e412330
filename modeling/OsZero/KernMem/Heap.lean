import OsZero.KernMem.Moves

set_option autoImplicit false

namespace OsZero.KernMem

open Chains Runs

-- The carved range is a slab of its own, and the magazine keeps another
-- pointer out when one comes back.
def Sound (heap : Heap) : Op → Prop
  | .memalloc nb slab => nb ≤ 2147483648 ∧ ∀ ptr, slab = some ptr → asksslab heap.pool nb →
      (memallocbktid nb < memslabshift → (ptr - heap.pool.base) % memslabsize = 0) ∧
      ptr + used (memallocbktid nb) ≤ 4294967296 ∧
      ∀ entry ∈ heap.slabs, Apart ptr (used (memallocbktid nb)) entry.1 (used entry.2)
  | .kfree ptr => 2 ≤ (heap.pool.hdrtab (memgetmag ptr heap.pool)).ndx

theorem bktid_bounds (nb : Nat) (word : nb ≤ 2147483648) :
    memminshift ≤ memallocbktid nb ∧ memallocbktid nb < ptrbits ∧ region nb ≤ 1 <<< memallocbktid nb := by
  have fits := memcalcbkt_fits (max memminsize nb) (by unfold memminsize; omega) (by unfold memminsize; omega)
  have least := memcalcbkt_least (max memminsize nb) 31 (by unfold memminsize; omega) (by unfold memminsize; omega)
    (by rw [show 1 <<< 31 = 2147483648 from rfl]; unfold memminsize; omega)
  change max memminsize nb ≤ 1 <<< memallocbktid nb at fits
  change memallocbktid nb ≤ 31 at least
  refine ⟨?_, by unfold ptrbits; omega, by rw [region, Nat.max_comm]; exact fits⟩
  have power : 2 ^ 8 ≤ 2 ^ memallocbktid nb := by
    rw [← Nat.one_shiftLeft (memallocbktid nb)]
    exact Nat.le_trans (Nat.le_max_left memminsize nb) fits
  exact (Nat.pow_le_pow_iff_right (by decide : 1 < 2)).mp power

theorem alloc_asked (heap : Heap) (nb ptr : Nat) (working : Working heap) (legal : Legal heap (.memalloc nb (some ptr)))
    (sound : Sound heap (.memalloc nb (some ptr))) (asks : asksslab heap.pool nb = true) :
    ∃ next, heapalloc heap nb (some ptr) = some next ∧ Working next := by
  obtain ⟨small, large, fits⟩ := bktid_bounds nb sound.1
  obtain ⟨low, positive, -, -⟩ := legal.2 ptr rfl asks
  obtain ⟨aligned, ends, apart⟩ := sound.2 ptr rfl asks
  have lock := lock_taken heap.pool (memallocbktid nb) large (working.unlocked _)
  have given : newslab heap.pool nb ptr = [(ptr, memallocbktid nb)] := by rw [newslab, if_pos asks]
  by_cases whole : memslabshift ≤ memallocbktid nb
  · have filled := slab_filled heap.pool (memallocbktid nb) ptr working.unlocked large whole
    refine ⟨_, ?_, filled_working heap _ _ ptr nb working filled small large low ends positive fits aligned apart⟩
    simp only [heapalloc, memalloc, lock, memallocbkt, if_pos whole, memallocslab, Option.bind_eq_bind, Option.bind_some, given,
      List.singleton_append]
  · have carved : memallocbktid nb < memslabshift := Nat.lt_of_not_le whole
    have filled := mag_filled heap.pool (memallocbktid nb) ptr working.unlocked large carved ends
    have none : (heap.pool.tab (memallocbktid nb)).list = none := by
      simpa [asksslab, whole] using asks
    have result : (memallocmag (lockedPool heap.pool (memallocbktid nb)) (memallocbktid nb) ptr).2 = some ptr := by
      unfold memallocmag
      dsimp only
      split <;> rfl
    refine ⟨_, ?_, filled_working heap _ _ ptr nb working filled small large low ends positive fits aligned apart⟩
    simp only [heapalloc, memalloc, lock, memallocbkt, if_neg whole, lockedPool_list, none, Option.bind_eq_bind, Option.bind_some, result, given,
      List.singleton_append]

theorem alloc_popped (heap : Heap) (nb : Nat) (slab : Option Nat) (working : Working heap) (word : nb ≤ 2147483648)
    (asks : asksslab heap.pool nb = false) : ∃ next, heapalloc heap nb slab = some next ∧ Working next := by
  obtain ⟨-, large, fits⟩ := bktid_bounds nb word
  obtain ⟨mags, listed⟩ := working.lists
  have lock := lock_taken heap.pool (memallocbktid nb) large (working.unlocked _)
  simp only [asksslab, Bool.or_eq_false_iff, decide_eq_false_iff_not] at asks
  obtain ⟨carved, nonempty⟩ := asks
  obtain ⟨mag, head⟩ := Option.ne_none_iff_exists'.mp (fun none => by simp [none] at nonempty :
    (heap.pool.tab (memallocbktid nb)).list ≠ none)
  have seg := listed.seg (memallocbktid nb)
  rw [head] at seg
  obtain ⟨rest, front⟩ := seg_head _ mag _ seg
  obtain ⟨start, owner, same, left⟩ := listed.left (memallocbktid nb) mag (by rw [front]; exact List.mem_cons_self)
  subst same
  have kept := working.kept _ owner
  have few := pieces_le _ kept.small
  have count := kept.n
  dsimp only at few count
  obtain ⟨after, call, moved, next, unlocked, others, list⟩ := popmag_unlocked heap.pool (memallocbktid nb) (memgetmag start heap.pool)
    working.unlocked (by omega)
  rw [count] at list
  have given : newslab heap.pool nb ((heap.pool.hdrtab (memgetmag start heap.pool)).ptab
      (heap.pool.hdrtab (memgetmag start heap.pool)).ndx) = [] := by
    rw [newslab, if_neg (by simp [asksslab, carved, head])]
  refine ⟨_, ?_, popped_working heap (fmtxunlk after (memallocbktid nb)) mags start (memallocbktid nb) nb rest working listed owner
    front fits moved next unlocked others list⟩
  simp only [heapalloc, memalloc, lock, memallocbkt, if_neg carved, lockedPool_list, head, call, Option.bind_eq_bind, Option.bind_some,
    given, List.nil_append]

-- When the last pointer of a magazine comes back, slabfree is called on the
-- other pool, with that pointer for the start of the block.
theorem kfree_names_phys (pool after : Mempool) (ptr adr : Nat) (which : Which)
    (call : kfree pool ptr = some (after, some (which, adr))) : which = .phys ∧ adr = ptr := by
  unfold kfree at call
  split at call
  · cases call
  · simp only [kfreeptr, Option.bind_eq_bind, Option.bind_eq_some_iff, Option.some.injEq, Prod.mk.injEq] at call
    obtain ⟨locked, -, hdr, -, -, made⟩ := call
    unfold kfreemag at made
    split at made
    · cases made
      exact ⟨rfl, rfl⟩
    · split at made <;> cases made

def Inv (heap : Heap) : Prop := if heap.halted then LiveApart heap else Working heap

theorem inv_apart (heap : Heap) (inv : Inv heap) : LiveApart heap := by
  unfold Inv at inv
  split at inv
  · exact inv
  · exact working_apart heap inv

theorem working_inv (heap : Heap) (working : Working heap) : Inv heap := by
  unfold Inv
  split
  · exact working_apart heap working
  · exact working

theorem alloc_refused (heap : Heap) (nb : Nat) (working : Working heap) (word : nb ≤ 2147483648)
    (asks : asksslab heap.pool nb = true) : ∃ next, heapalloc heap nb none = some next ∧ Inv next := by
  obtain ⟨-, large, -⟩ := bktid_bounds nb word
  have lock := lock_taken heap.pool (memallocbktid nb) large (working.unlocked _)
  have refused : memallocbkt (lockedPool heap.pool (memallocbktid nb)) (memallocbktid nb) none =
      some (lockedPool heap.pool (memallocbktid nb), none) := by
    unfold memallocbkt
    by_cases whole : memslabshift ≤ memallocbktid nb
    · rw [if_pos whole]
    · have none : (heap.pool.tab (memallocbktid nb)).list = Option.none := by simpa [asksslab, whole] using asks
      rw [if_neg whole]
      simp only [lockedPool_list, none]
  refine ⟨{ heap with pool := lockedPool heap.pool (memallocbktid nb), halted := true }, ?_, working_apart heap working⟩
  simp only [heapalloc, memalloc, lock, refused, Option.bind_eq_bind, Option.bind_some]

theorem heap_step_inv (heap : Heap) (op : Op) (inv : Inv heap) (cond : Legal heap op ∧ Sound heap op) :
    Returned heap op ∧ ∃ next, heapStep heap op = some next ∧ Inv next := by
  obtain ⟨legal, sound⟩ := cond
  by_cases halted : heap.halted
  · refine ⟨?_, heap, by unfold heapStep; rw [if_pos halted], inv⟩
    cases op with
    | memalloc nb slab => trivial
    | kfree ptr =>
        intro pool which adr running
        rw [halted] at running
        cases running
  · have working : Working heap := by
      rw [Inv, if_neg halted] at inv
      exact inv
    cases op with
    | memalloc nb slab =>
        refine ⟨trivial, ?_⟩
        simp only [heapStep, if_neg halted]
        cases asks : asksslab heap.pool nb with
        | false =>
            obtain ⟨next, taken, after⟩ := alloc_popped heap nb slab working sound.1 asks
            exact ⟨next, taken, working_inv next after⟩
        | true =>
            cases slab with
            | none => exact alloc_refused heap nb working sound.1 asks
            | some ptr =>
                obtain ⟨next, taken, after⟩ := alloc_asked heap nb ptr working legal sound asks
                exact ⟨next, taken, working_inv next after⟩
    | kfree ptr =>
        obtain ⟨nb, live⟩ := legal
        obtain ⟨after, call, kept⟩ := freed_working heap ptr nb working live sound
        constructor
        · intro pool which adr _ other
          rw [call] at other
          cases other
        · refine ⟨_, ?_, working_inv _ kept⟩
          simp only [heapStep, if_neg halted, heapfree, call, Option.bind_eq_bind, Option.bind_some, slabsleft]

def freshHeap (base nblk : Nat) (hdrtab : Nat → Memmag) : Heap :=
  ⟨⟨fun _ => ⟨false, none⟩, false, base, nblk, hdrtab⟩, false, [], []⟩

theorem fresh_working (base nblk : Nat) (hdrtab : Nat → Memmag) : Working (freshHeap base nblk hdrtab) := by
  constructor
  · exact fun _ => rfl
  · exact fun slab member => absurd member List.not_mem_nil
  · exact fun one member => absurd member List.not_mem_nil
  · exact fun entry member => absurd member List.not_mem_nil
  · exact List.nodup_nil
  · exact ⟨fun _ => [], fun _ => rfl, fun _ => List.nodup_nil, fun _ _ member => absurd member List.not_mem_nil⟩

theorem kernel_heap_sound (base nblk : Nat) (hdrtab : Nat → Memmag) (ops : List Op)
    (legal : Meets heapStep Legal (freshHeap base nblk hdrtab) ops) (sound : Meets heapStep Sound (freshHeap base nblk hdrtab) ops) :
    Holds heapStep LiveApart Returned (freshHeap base nblk hdrtab) ops :=
  holds_mono heapStep Inv LiveApart Returned inv_apart _ ops
    (invariant_holds heapStep Inv Returned _ heap_step_inv _ ops (working_inv _ (fresh_working base nblk hdrtab))
      (meets_and heapStep Legal Sound _ ops legal sound))

def blankMag : Memmag := ⟨0, 0, none, none, 0, 0, fun _ => 0⟩

def blankHeap : Heap := freshHeap 0x100000 16 fun _ => blankMag

theorem kernel_heap_sound_half_slabs :
    Meets heapStep Legal blankHeap [.memalloc 32768 (some 0x110000), .memalloc 32768 none, .kfree 0x118000] ∧
      Holds heapStep LiveApart Returned blankHeap [.memalloc 32768 (some 0x110000), .memalloc 32768 none, .kfree 0x118000] := by
  have legal : Meets heapStep Legal blankHeap [.memalloc 32768 (some 0x110000), .memalloc 32768 none, .kfree 0x118000] := by
    refine ⟨⟨by decide, fun ptr same _ => ?_⟩, fun one first => ?_⟩
    · cases same
      exact ⟨by decide, by decide, by decide, fun entry member => absurd member List.not_mem_nil⟩
    · cases first
      refine ⟨⟨by decide, fun ptr same => by cases same⟩, fun two second => ?_⟩
      cases second
      exact ⟨⟨32768, List.mem_cons_self⟩, fun _ _ => trivial⟩
  refine ⟨legal, kernel_heap_sound 0x100000 16 (fun _ => blankMag) _ legal ?_⟩
  refine ⟨⟨by decide, fun ptr same _ => ?_⟩, fun one first => ?_⟩
  · cases same
    exact ⟨by decide, by decide, fun entry member => absurd member List.not_mem_nil⟩
  · cases first
    refine ⟨⟨by decide, fun ptr same => by cases same⟩, fun two second => ?_⟩
    cases second
    exact ⟨show 2 ≤ _ by decide, fun _ _ => trivial⟩

-- The second half of a carved slab is a block that slaballoc still has.
theorem carved_slab_overlaps :
    Meets heapStep Legal blankHeap [.memalloc 32768 (some 0x108000), .memalloc 65536 (some 0x110000), .memalloc 32768 none] ∧
      ¬ Holds heapStep LiveApart Returned blankHeap
        [.memalloc 32768 (some 0x108000), .memalloc 65536 (some 0x110000), .memalloc 32768 none] := by
  constructor
  · refine ⟨⟨by decide, fun ptr same _ => ?_⟩, fun one first => ?_⟩
    · cases same
      exact ⟨by decide, by decide, by decide, fun entry member => absurd member List.not_mem_nil⟩
    · cases first
      refine ⟨⟨by decide, fun ptr same _ => ?_⟩, fun two second => ?_⟩
      · cases same
        refine ⟨by decide, by decide, by decide, fun entry member => ?_⟩
        cases List.mem_singleton.mp member
        exact Or.inr (by decide)
      · cases second
        exact ⟨⟨by decide, fun ptr same => by cases same⟩, fun _ _ => trivial⟩
  · rintro ⟨-, -, one, first, -, -, two, second, -, -, three, third, apart⟩
    cases first
    cases second
    cases third
    exact absurd apart (show ¬ LiveApart _ by decide)

end OsZero.KernMem

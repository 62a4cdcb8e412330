import OsZero.Lib.Freestack
import OsZero.UserMem.Malloc

set_option autoImplicit false

namespace OsZero.UserMem

open Freestack Runs

-- A buffer, the block numbers that are handed out and the elements of stk that
-- have been read or written.
structure Freestk where
  buf : Membuf
  out : List Nat
  touched : List Nat

-- The loop of membufinitfree; id has 16 bits.
def memfillstk (nblk : Nat) : Nat → Nat → Nat → (Nat → Nat) → List Nat → (Nat → Nat) × List Nat
  | 0, _, _, stk, touched => (stk, touched)
  | turns + 1, cur, id, stk, touched =>
      if cur < nblk then memfillstk nblk turns (cur + 1) ((id + 1) % 65536) (Function.update stk cur id) (cur :: touched)
      else (stk, touched)

-- membufinitfree on a buffer that holds whatever it held.
def memstkstart (buf : Membuf) (nblk : Nat) : Freestk :=
  let filled := memfillstk nblk (nblk + 1) 0 0 buf.stk []
  ⟨{ buf with nfree := nblk, stk := filled.1, stktop := 0 }, [], filled.2⟩

inductive Stkop where
  | get
  | put (id : Nat)

def memstkop (state : Freestk) : Stkop → Option Freestk
  | .get => (membufgetfree state.buf).map fun got => ⟨got.1, got.2 :: state.out, state.buf.stktop :: state.touched⟩
  | .put id => (membufputfree state.buf id).map fun buf => ⟨buf, state.out.erase id, (state.buf.stktop - 1) :: state.touched⟩

def Stkallowed (state : Freestk) : Stkop → Prop
  | .get => 0 < state.buf.nfree
  | .put id => id ∈ state.out

instance (state : Freestk) (op : Stkop) : Decidable (Stkallowed state op) :=
  match op with
  | .get => Int.decLt _ _
  | .put id => inferInstanceAs (Decidable (id ∈ state.out))

structure Freelist (nblk : Nat) (state : Freestk) : Prop where
  listed : Listed state.buf.stk state.buf.stktop nblk state.out
  nfree : state.buf.nfree = (nblk : Int) - state.buf.stktop
  touched : ∀ cur ∈ state.touched, cur < nblk

theorem fillstk_numbered (nblk turns cur : Nat) (stk : Nat → Nat) (touched : List Nat) (small : nblk ≤ membufmaxblks) (order : cur ≤ nblk)
    (enough : nblk - cur < turns) (inside : ∀ j ∈ touched, j < nblk) :
    (∀ j, (memfillstk nblk turns cur (cur % 65536) stk touched).1 j = if cur ≤ j ∧ j < nblk then j else stk j) ∧
      ∀ j ∈ (memfillstk nblk turns cur (cur % 65536) stk touched).2, j < nblk := by
  induction turns generalizing cur stk touched with
  | zero => omega
  | succ turns ih =>
      rw [memfillstk]
      split_ifs with more
      · have next : (cur % 65536 + 1) % 65536 = (cur + 1) % 65536 := by omega
        obtain ⟨numbered, later⟩ := ih (cur + 1) (Function.update stk cur (cur % 65536)) (cur :: touched) more (by omega)
          (List.forall_mem_cons.mpr ⟨more, inside⟩)
        rw [next]
        refine ⟨fun j => ?_, later⟩
        rw [numbered j]
        by_cases here : j = cur
        · have fits : cur % 65536 = cur := by
            unfold membufmaxblks at small
            omega
          rw [if_neg (by omega), if_pos (by omega), here, Function.update_self, fits]
        · rw [Function.update_of_ne here]
          split_ifs <;> omega
      · exact ⟨fun j => by rw [if_neg (by omega)], inside⟩

theorem stkstart_freelist (buf : Membuf) (nblk : Nat) (small : nblk ≤ membufmaxblks) : Freelist nblk (memstkstart buf nblk) := by
  obtain ⟨numbered, inside⟩ := fillstk_numbered nblk (nblk + 1) 0 buf.stk [] small (Nat.zero_le _) (by omega) (List.forall_mem_nil _)
  refine ⟨listed_start _ nblk fun cur below => ?_, (Int.sub_zero _).symm, inside⟩
  exact (numbered cur).trans (if_pos ⟨Nat.zero_le cur, below⟩)

-- What membufinitfree leaves of zeroed memory.
theorem stkstart_fresh (geo : Memgeo) (nblk : Nat) (small : nblk ≤ membufmaxblks) :
    (memstkstart ⟨geo, false, 0, fun _ => 0, 0⟩ nblk).buf = membufinitfree geo nblk := by
  obtain ⟨numbered, -⟩ := fillstk_numbered nblk (nblk + 1) 0 (fun _ => 0) [] small (Nat.zero_le _) (by omega) (List.forall_mem_nil _)
  have stk : (memfillstk nblk (nblk + 1) 0 0 (fun _ => 0) []).1 = fun cur => if cur < nblk then cur else 0 := by
    funext cur
    have fills := numbered cur
    simp only [Nat.zero_le, true_and] at fills
    exact fills
  rw [membufinitfree, ← stk]
  rfl

theorem stkop_get (state : Freestk) (room : state.buf.stktop < membufmaxblks) :
    memstkop state .get = some ⟨{ state.buf with nfree := state.buf.nfree - 1, stktop := state.buf.stktop + 1 },
      state.buf.stk state.buf.stktop :: state.out, state.buf.stktop :: state.touched⟩ := by
  rw [memstkop, membufgetfree, if_pos room]
  rfl

theorem stkop_put (state : Freestk) (id : Nat) (positive : 0 < state.buf.stktop) (room : state.buf.stktop - 1 < membufmaxblks) (small : id < 65536) :
    memstkop state (.put id) = some ⟨{ state.buf with
        nfree := state.buf.nfree + 1, stk := Function.update state.buf.stk (state.buf.stktop - 1) id, stktop := state.buf.stktop - 1 },
      state.out.erase id, (state.buf.stktop - 1) :: state.touched⟩ := by
  rw [memstkop, membufputfree, if_pos ⟨positive, room⟩, Nat.mod_eq_of_lt small]
  rfl

theorem stkget_freelist (nblk : Nat) (state : Freestk) (small : nblk ≤ membufmaxblks) (freelist : Freelist nblk state)
    (available : 0 < state.buf.nfree) : ∃ next, memstkop state .get = some next ∧ Freelist nblk next := by
  obtain ⟨listed, nfree, touched⟩ := freelist
  have room : state.buf.stktop < nblk := by omega
  refine ⟨_, stkop_get state (Nat.lt_of_lt_of_le room small), listed_pop _ _ _ _ listed room, ?_, List.forall_mem_cons.mpr ⟨room, touched⟩⟩
  dsimp only
  omega

theorem stkput_freelist (nblk id : Nat) (state : Freestk) (small : nblk ≤ membufmaxblks) (freelist : Freelist nblk state)
    (member : id ∈ state.out) : ∃ next, memstkop state (.put id) = some next ∧ Freelist nblk next := by
  obtain ⟨listed, nfree, touched⟩ := freelist
  obtain ⟨positive, pushed⟩ := listed_push _ _ _ _ listed id member
  have low := listed.low
  have below := listed.bounded id member
  have fits : id < 65536 := Nat.lt_of_lt_of_le (Nat.lt_of_lt_of_le below small) (by decide)
  refine ⟨_, stkop_put state id positive (by omega) fits, pushed, ?_, List.forall_mem_cons.mpr ⟨?_, touched⟩⟩
  · dsimp only
    omega
  · omega

theorem freestk_runs (buf : Membuf) (nblk : Nat) (small : nblk ≤ membufmaxblks) (ops : List Stkop)
    (allowed : Meets memstkop Stkallowed (memstkstart buf nblk) ops) :
    Holds memstkop (Freelist nblk) (fun _ _ => True) (memstkstart buf nblk) ops := by
  refine invariant_holds memstkop (Freelist nblk) _ Stkallowed (fun state op freelist may => ⟨trivial, ?_⟩) _ ops (stkstart_freelist buf nblk small) allowed
  cases op with
  | get => exact stkget_freelist nblk state small freelist may
  | put id => exact stkput_freelist nblk id state small freelist may

theorem freestk_runs_three : Holds memstkop (Freelist 3) (fun _ _ => True) (memstkstart emptybuf 3) [.get, .get, .put 0, .get, .put 1] := by
  refine freestk_runs emptybuf 3 (by decide) _ ?_
  refine ⟨by decide, fun _ first => ?_⟩
  cases first
  refine ⟨by decide, fun _ second => ?_⟩
  cases second
  refine ⟨by decide, fun _ third => ?_⟩
  cases third
  refine ⟨by decide, fun _ fourth => ?_⟩
  cases fourth
  exact ⟨by decide, fun _ _ => trivial⟩

end OsZero.UserMem

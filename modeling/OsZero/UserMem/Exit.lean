import OsZero.UserMem.Bins

set_option autoImplicit false

namespace OsZero.UserMem

open Links

def memsmallslots : Nat := 16
def mempageslots : Nat := 128

-- The thread's bins and the global ones that get their buffers, in the order
-- of the two loops.
def exitbins : List (Membin × Membin) :=
  (List.range memsmallslots).map (fun slot => (.tlssmall slot, .smallbin slot)) ++
    (List.range mempageslots).map fun slot => (.tlspage slot, .pagebin slot)

-- Every buffer of a list loses its owner; the last one and the number of
-- buffers are left in buf and nbuf.
def memdisown (mem : Mem) (buf : Nat) (nbuf : Int) : Nat → Option (Mem × Nat × Int)
  | 0 => none
  | fuel + 1 =>
      let mem := memsettls mem buf false
      match mem.link.next buf with
      | some next => memdisown mem next (nbuf + 1) fuel
      | none => some (mem, buf, nbuf)

-- head holds the global list by now, and it is what list gets back.
def memsplicebin (mem : Mem) (buf : Nat) (nbuf : Int) (dest : Membin) : Option Mem :=
  (memlkbin mem dest).map fun mem =>
    let head := (mem.bin dest).list
    { mem with
      link := pushFront mem.link buf head
      bin := Function.update mem.bin dest ⟨head, false, (mem.bin dest).nbuf + nbuf⟩ }

def memrelbkt (fuel : Nat) (mem : Mem) (src dest : Membin) : Option Mem :=
  match (mem.bin src).list with
  | none => some mem
  | some head => (memdisown mem head 1 fuel).bind fun walked => memsplicebin walked.1 walked.2.1 walked.2.2 dest

def memrelbkts (fuel : Nat) (mem : Mem) : List (Membin × Membin) → Option Mem
  | [] => some mem
  | pair :: pairs => (memrelbkt fuel mem pair.1 pair.2).bind fun mem => memrelbkts fuel mem pairs

def memreltls (fuel : Nat) (mem : Mem) : Option Mem := memrelbkts fuel mem exitbins

structure Arranged (mem : Mem) (shelf : Membin → List Nat) : Prop where
  ended : ∀ bin, Ended mem.link (shelf bin)
  first : ∀ bin, heads mem bin = (shelf bin).head?
  apart : ∀ one two adr, adr ∈ shelf one → adr ∈ shelf two → one = two
  unlocked : ∀ bin, (mem.bin bin).lk = false

-- The bin has its own buffers and those of the exiting thread, in any order.
structure Merged (mem after : Mem) (bin : Membin) (own moved : List Nat) : Prop where
  linked : ∃ items, items.Perm (moved ++ own) ∧ Ended after.link items ∧ heads after bin = items.head?
  nbuf : (after.bin bin).nbuf = (mem.bin bin).nbuf + moved.length
  disowned : ∀ adr ∈ moved, (after.buf adr).tls = false

def Inherited (mem : Mem) (shelf : Membin → List Nat) : Prop :=
  ∃ fuel after, memreltls fuel mem = some after ∧ ∀ pair ∈ exitbins, Merged mem after pair.2 (shelf pair.2) (shelf pair.1)

theorem disown_kept (fuel : Nat) (mem : Mem) (adr : Nat) (nbuf : Int) (walked : Mem × Nat × Int)
    (call : memdisown mem adr nbuf fuel = some walked) : walked.1.link = mem.link ∧ walked.1.bin = mem.bin := by
  induction fuel generalizing mem adr nbuf with
  | zero => cases call
  | succ fuel ih =>
      rw [memdisown] at call
      split at call
      · exact ih (memsettls mem adr false) _ _ call
      · cases call
        exact ⟨rfl, rfl⟩

theorem push_prev (heap : Heap Nat) (item : Nat) (head : Option Nat) :
    (∀ adr, heap.prev adr ≠ none → (pushFront heap item head).prev adr ≠ none) ∧
      ∀ first, head = some first → (pushFront heap item head).prev first ≠ none := by
  cases head with
  | none => exact ⟨fun adr linked => linked, fun first same => by cases same⟩
  | some front =>
      constructor
      · intro adr linked
        by_cases same : adr = front
        · subst same
          simp [pushFront]
        · simpa [pushFront, set_prev_elsewhere, same] using linked
      · intro first same
        cases same
        simp [pushFront]

-- No list gets a new head, and the old head of the global list has a buffer in
-- front of it.
structure Spliced (mem after : Mem) : Prop where
  heads : heads after = heads mem
  prev : ∀ adr, mem.link.prev adr ≠ none → after.link.prev adr ≠ none

theorem relbkt_spliced (fuel : Nat) (mem after : Mem) (src dest : Membin) (call : memrelbkt fuel mem src dest = some after) :
    Spliced mem after ∧ ∀ adr, heads mem src ≠ none → heads mem dest = some adr → after.link.prev adr ≠ none := by
  unfold memrelbkt at call
  split at call
  · rename_i empty
    cases call
    exact ⟨⟨rfl, fun _ linked => linked⟩, fun adr nonempty _ => absurd empty nonempty⟩
  · obtain ⟨walked, disowned, spliced⟩ := Option.bind_eq_some_iff.mp call
    obtain ⟨link, bins⟩ := disown_kept fuel mem _ 1 walked disowned
    unfold memsplicebin at spliced
    obtain ⟨locked, lock, rfl⟩ := Option.map_eq_some_iff.mp spliced
    have free : (walked.1.bin dest).lk = false := by
      by_contra held
      simp [memlkbin, held] at lock
    cases (lkbin_free walked.1 dest free).symm.trans lock
    have list : ((lockedbin walked.1 dest).bin dest).list = heads mem dest := by
      have same := congrFun (lockedbin_heads walked.1 dest) dest
      unfold heads at same ⊢
      rw [same, bins]
    obtain ⟨kept, front⟩ := push_prev walked.1.link walked.2.1 (heads mem dest)
    dsimp only
    rw [list]
    refine ⟨⟨?_, ?_⟩, fun adr _ first => front adr first⟩
    · have same := lockedbin_heads walked.1 dest
      unfold heads at same ⊢
      dsimp only
      rw [heads_update, same, bins]
      exact Function.update_eq_self dest _
    · rw [← link]
      exact kept

theorem relbkts_spliced (fuel : Nat) (pairs : List (Membin × Membin)) (mem after : Mem) (call : memrelbkts fuel mem pairs = some after) :
    Spliced mem after ∧ ∀ pair ∈ pairs, ∀ adr, heads mem pair.1 ≠ none → heads mem pair.2 = some adr → after.link.prev adr ≠ none := by
  induction pairs generalizing mem with
  | nil =>
      cases call
      exact ⟨⟨rfl, fun _ linked => linked⟩, fun pair member => absurd member List.not_mem_nil⟩
  | cons pair pairs ih =>
      obtain ⟨middle, one, rest⟩ := Option.bind_eq_some_iff.mp call
      obtain ⟨first, joined⟩ := relbkt_spliced fuel mem middle pair.1 pair.2 one
      obtain ⟨second, later⟩ := ih middle rest
      refine ⟨⟨second.heads.trans first.heads, fun adr linked => second.prev adr (first.prev adr linked)⟩, ?_⟩
      intro other member adr nonempty head
      rcases List.mem_cons.mp member with rfl | behind
      · exact second.prev adr (joined adr nonempty head)
      · rw [← first.heads] at nonempty head
        exact later other behind adr nonempty head

-- The buffers of a thread's bin are out of reach once it has exited.
theorem merged_empty (mem after : Mem) (own moved : List Nat) (src dest : Membin) (spliced : Spliced mem after)
    (joined : ∀ adr, heads mem src ≠ none → heads mem dest = some adr → after.link.prev adr ≠ none)
    (first : heads mem src = moved.head?) (merged : Merged mem after dest own moved) : heads mem src = none := by
  obtain ⟨items, perm, ended, head⟩ := merged.linked
  rw [spliced.heads] at head
  by_contra nonempty
  cases items with
  | nil =>
      have empty : moved = [] := (List.append_eq_nil_iff.mp perm.symm.eq_nil).1
      rw [first, empty] at nonempty
      exact nonempty rfl
  | cons front items => exact joined front nonempty head (ended.front front rfl)

theorem relbkts_nothing (fuel : Nat) (mem : Mem) (pairs : List (Membin × Membin)) (empty : ∀ pair ∈ pairs, heads mem pair.1 = none) :
    memrelbkts fuel mem pairs = some mem := by
  induction pairs with
  | nil => rfl
  | cons pair pairs ih =>
      have here : (mem.bin pair.1).list = none := empty pair List.mem_cons_self
      have one : memrelbkt fuel mem pair.1 pair.2 = some mem := by
        rw [memrelbkt, here]
      rw [memrelbkts, one]
      exact ih fun other member => empty other (List.mem_cons_of_mem pair member)

theorem memreltls_inherits (mem : Mem) (shelf : Membin → List Nat) (arranged : Arranged mem shelf) :
    Inherited mem shelf ↔ ∀ pair ∈ exitbins, (mem.bin pair.1).list = none := by
  constructor
  · rintro ⟨fuel, after, call, merged⟩ pair member
    obtain ⟨spliced, joined⟩ := relbkts_spliced fuel exitbins mem after call
    exact merged_empty mem after _ _ pair.1 pair.2 spliced (joined pair member) (arranged.first pair.1) (merged pair member)
  · intro empty
    refine ⟨0, mem, relbkts_nothing 0 mem exitbins empty, fun pair member => ?_⟩
    have none : shelf pair.1 = [] := by
      rw [← List.head?_eq_none_iff, ← arranged.first pair.1]
      exact empty pair member
    rw [none]
    refine ⟨⟨shelf pair.2, ?_, arranged.ended pair.2, arranged.first pair.2⟩, ?_, fun adr moved => absurd moved List.not_mem_nil⟩
    · exact List.Perm.refl _
    · simp

def onebuf (bin : Membin) : Mem := { emptymem with bin := Function.update emptymem.bin bin ⟨some 0x100000, false, 1⟩ }

def oneshelf (bin : Membin) : Membin → List Nat := Function.update (fun _ => []) bin [0x100000]

theorem onebuf_arranged (bin : Membin) : Arranged (onebuf bin) (oneshelf bin) := by
  constructor
  · intro other
    by_cases same : other = bin
    · subst same
      rw [oneshelf, Function.update_self]
      exact ended_single _ _ rfl rfl
    · rw [oneshelf, Function.update_of_ne same]
      exact ended_nil _
  · intro other
    by_cases same : other = bin
    · subst same
      simp [heads, onebuf, oneshelf]
    · simp [heads, onebuf, oneshelf, emptymem, same]
  · have only : ∀ other adr, adr ∈ oneshelf bin other → other = bin := by
      intro other adr member
      by_contra different
      simp [oneshelf, different] at member
    exact fun one two adr first second => (only one adr first).trans (only two adr second).symm
  · exact unlocked_update emptymem.bin bin _ rfl fun _ _ => rfl

theorem memreltls_inherits_global : Inherited (onebuf (.smallbin 4)) (oneshelf (.smallbin 4)) := by
  refine (memreltls_inherits _ _ (onebuf_arranged (.smallbin 4))).mpr fun pair member => ?_
  have other : pair.1 ≠ .smallbin 4 := by
    intro same
    rcases List.mem_append.mp member with small | page
    · obtain ⟨slot, -, rfl⟩ := List.mem_map.mp small
      cases same
    · obtain ⟨slot, -, rfl⟩ := List.mem_map.mp page
      cases same
  simp [onebuf, emptymem, other]

-- The only buffer of the thread's bin 4 is counted in the global bin 4, whose
-- list stays empty.
theorem exit_loses_buffer :
    (memreltls 1 (onebuf (.tlssmall 4))).map (fun after => (after.bin (.smallbin 4)).nbuf) = some 1 ∧
      (memreltls 1 (onebuf (.tlssmall 4))).map (fun after => (after.bin (.smallbin 4)).list) = some none ∧
      ¬ Inherited (onebuf (.tlssmall 4)) (oneshelf (.tlssmall 4)) := by
  refine ⟨by decide, by decide, ?_⟩
  rintro ⟨fuel, after, call, merged⟩
  have member : (Membin.tlssmall 4, Membin.smallbin 4) ∈ exitbins := by simp [exitbins, memsmallslots]
  obtain ⟨spliced, joined⟩ := relbkts_spliced fuel exitbins _ after call
  have empty := merged_empty _ after _ _ _ _ spliced (joined _ member) ((onebuf_arranged (.tlssmall 4)).first _) (merged _ member)
  cases empty

end OsZero.UserMem

import OsZero.Mbuf.Content

set_option autoImplicit false

namespace OsZero.Mbuf

-- The first loop of memcpydata; mblen of NULL has no result.
def skipData : Nat → Mem → Nat → Nat → Nat → Option (Nat × Nat × Nat)
  | 0, _, _, _, _ => none
  | fuel + 1, mem, buf, ofs, len =>
      if 0 < ofs then
        if ofs < len then some (buf, ofs, len)
        else (mem.bufs buf).next.bind fun next => skipData fuel mem next (ofs - len) (mem.bufs next).len
      else some (buf, ofs, len)

-- The second loop lowers len, which is then read anew, and not nb.
def copyData : Nat → Mem → Nat → Nat → Nat → Nat → Adr → Option Mem
  | 0, _, _, _, _, _, _ => none
  | fuel + 1, mem, buf, ofs, nb, len, dest =>
      if 0 < nb then
        let cnt := min (len - ofs) nb
        (kbcopy mem.bytes (mem.bufs buf).data dest cnt).bind fun bytes =>
          let mem := { mem with bytes := bytes }
          (mem.bufs buf).next.bind fun next => copyData fuel mem next 0 nb (mem.bufs next).len (dest.add cnt)
      else some mem

def memcpydata (fuel : Nat) (mem : Mem) (buf ofs nb : Nat) (dest : Adr) : Option Mem :=
  (skipData fuel mem buf ofs (mem.bufs buf).len).bind fun place => copyData fuel mem place.1 place.2.1 nb place.2.2 dest

structure DataCopied (mem last : Mem) (ids : List Nat) (ofs nb : Nat) (dest : Adr) : Prop where
  copied : ∀ place < nb, (content mem ids)[ofs + place]? = some (last.bytes.byte dest.region (dest.ofs + place))
  bufs : last.bufs = mem.bufs
  elsewhere : ∀ region place, ¬(region = dest.region ∧ dest.ofs ≤ place ∧ place < dest.ofs + nb) →
    last.bytes.byte region place = mem.bytes.byte region place

def CopiesData (mem : Mem) (buf : Nat) (ids : List Nat) (ofs nb : Nat) (dest : Adr) : Prop :=
  ∃ fuel last, memcpydata fuel mem buf ofs nb dest = some last ∧ DataCopied mem last ids ofs nb dest

def LastEmpty (mem : Mem) (ids : List Nat) : Prop := ∀ id, ids.getLast? = some id → (mem.bufs id).len = 0

theorem total_zero (mem : Mem) (ids : List Nat) (empty : total mem ids = 0) : ∀ id ∈ ids, (mem.bufs id).len = 0 := by
  induction ids with
  | nil => simp
  | cons first ids ih =>
      have parts : (mem.bufs first).len + total mem ids = 0 := empty
      intro id member
      rcases List.mem_cons.mp member with rfl | later
      · omega
      · exact ih (by omega) id later

-- A loop that still has bytes to copy goes on to the end of the chain and past it.
theorem copyData_never (fuel : Nat) (mem : Mem) (buf ofs nb len : Nat) (dest : Adr) (ids : List Nat) (more : 0 < nb)
    (seg : Chains.Seg (fun id => (mem.bufs id).next) (some buf) ids none) : copyData fuel mem buf ofs nb len dest = none := by
  induction fuel generalizing mem buf ofs len dest ids with
  | zero => rfl
  | succ fuel ih =>
      obtain ⟨rest, rfl⟩ := Chains.seg_head _ buf ids seg
      rw [copyData, if_pos more, Option.bind_eq_none_iff]
      intro bytes _
      rw [Option.bind_eq_none_iff]
      intro next link
      have onward : Chains.Seg (fun id => (mem.bufs id).next) (mem.bufs buf).next rest none := seg.2
      have link : (mem.bufs buf).next = some next := link
      rw [link] at onward
      exact ih { mem with bytes := bytes } next 0 _ _ rest onward

theorem copyData_nothing (fuel : Nat) (mem : Mem) (buf ofs len : Nat) (dest : Adr) : copyData (fuel + 1) mem buf ofs 0 len dest = some mem := by
  rw [copyData, if_neg (Nat.lt_irrefl 0)]

theorem skipData_reaches (fuel : Nat) (mem : Mem) (buf ofs len : Nat) (ids : List Nat) (place : Nat × Nat × Nat)
    (seg : Chains.Seg (fun id => (mem.bufs id).next) (some buf) ids none) (skip : skipData fuel mem buf ofs len = some place) :
    ∃ rest, Chains.Seg (fun id => (mem.bufs id).next) (some place.1) rest none := by
  induction fuel generalizing buf ofs len ids with
  | zero => cases skip
  | succ fuel ih =>
      rw [skipData] at skip
      split at skip
      · split at skip
        · cases skip
          exact ⟨ids, seg⟩
        · obtain ⟨next, link, later⟩ := Option.bind_eq_some_iff.mp skip
          obtain ⟨rest, rfl⟩ := Chains.seg_head _ buf ids seg
          have onward : Chains.Seg (fun id => (mem.bufs id).next) (mem.bufs buf).next rest none := seg.2
          rw [link] at onward
          exact ih next _ _ rest onward later
      · cases skip
        exact ⟨ids, seg⟩

theorem skipData_only (fuel : Nat) (mem : Mem) (buf ofs : Nat) (ids : List Nat) (place : Nat × Nat × Nat)
    (seg : Chains.Seg (fun id => (mem.bufs id).next) (some buf) ids none)
    (skip : skipData fuel mem buf ofs (mem.bufs buf).len = some place) (whole : ofs = total mem ids) : LastEmpty mem ids := by
  induction fuel generalizing buf ofs ids with
  | zero => cases skip
  | succ fuel ih =>
      obtain ⟨rest, rfl⟩ := Chains.seg_head _ buf ids seg
      have sum : total mem (buf :: rest) = (mem.bufs buf).len + total mem rest := rfl
      rw [skipData] at skip
      by_cases some_ofs : 0 < ofs
      · rw [if_pos some_ofs, if_neg (by omega)] at skip
        obtain ⟨next, link, later⟩ := Option.bind_eq_some_iff.mp skip
        have onward : Chains.Seg (fun id => (mem.bufs id).next) (mem.bufs buf).next rest none := seg.2
        rw [link] at onward
        have last := ih next (ofs - (mem.bufs buf).len) rest onward later (by omega)
        obtain ⟨rest, rfl⟩ := Chains.seg_head _ next rest onward
        intro id atLast
        exact last id (by simpa using atLast)
      · have empty : total mem (buf :: rest) = 0 := by omega
        exact fun id atLast => total_zero mem _ empty id (List.mem_of_mem_getLast? atLast)

theorem skipData_when (mem : Mem) (buf ofs : Nat) (ids : List Nat) (fuel : Nat)
    (seg : Chains.Seg (fun id => (mem.bufs id).next) (some buf) ids none) (inside : ofs ≤ total mem ids)
    (stops : ofs = total mem ids → LastEmpty mem ids) (enough : ids.length ≤ fuel) :
    ∃ place, skipData fuel mem buf ofs (mem.bufs buf).len = some place := by
  induction ids generalizing buf ofs fuel with
  | nil => cases seg
  | cons first rest ih =>
      cases seg.1
      have sum : total mem (first :: rest) = (mem.bufs first).len + total mem rest := rfl
      cases fuel with
      | zero => exact absurd enough (by simp)
      | succ fuel =>
          rw [skipData]
          by_cases some_ofs : 0 < ofs
          · rw [if_pos some_ofs]
            by_cases here : ofs < (mem.bufs first).len
            · exact ⟨_, if_pos here⟩
            · rw [if_neg here]
              have onward : Chains.Seg (fun id => (mem.bufs id).next) (mem.bufs first).next rest none := seg.2
              cases rest with
              | nil =>
                  have single : total mem [first] = (mem.bufs first).len := rfl
                  have empty : (mem.bufs first).len = 0 := stops (by omega) first rfl
                  omega
              | cons next rest =>
                  rw [onward.1, Option.bind_some]
                  rw [onward.1] at onward
                  refine ih next (ofs - (mem.bufs first).len) fuel onward (by omega) ?_ (Nat.le_of_succ_le_succ enough)
                  intro whole id atLast
                  exact stops (by omega) id (by simpa using atLast)
          · exact ⟨_, if_neg some_ofs⟩

-- Any byte asked for is one too many; with none, the walk to the offset must not end behind
-- the last mbuf.
theorem memcpydata_copies (mem : Mem) (buf ofs nb : Nat) (ids : List Nat) (dest : Adr) (well : WellFormed mem buf ids)
    (range : ofs + nb ≤ total mem ids) :
    CopiesData mem buf ids ofs nb dest ↔ nb = 0 ∧ (ofs = total mem ids → LastEmpty mem ids) := by
  have seg := well.chained.seg
  constructor
  · rintro ⟨fuel, last, done, -⟩
    obtain ⟨place, skip, copy⟩ := Option.bind_eq_some_iff.mp done
    refine ⟨?_, skipData_only fuel mem buf ofs ids place seg skip⟩
    by_contra more
    obtain ⟨front, reached⟩ := skipData_reaches fuel mem buf ofs _ ids place seg skip
    rw [copyData_never fuel mem _ _ nb _ dest front (Nat.pos_of_ne_zero more) reached] at copy
    cases copy
  · rintro ⟨rfl, stops⟩
    obtain ⟨place, skip⟩ := skipData_when mem buf ofs ids (ids.length + 1) seg range stops (Nat.le_succ _)
    refine ⟨ids.length + 1, mem, ?_, fun _ none => absurd none (Nat.not_lt_zero _), rfl, fun _ _ _ => rfl⟩
    rw [memcpydata, skip, Option.bind_some, copyData_nothing]

theorem memcpydata_nothing : CopiesData sample 0 [0, 1] 64 0 ⟨.ext 7, 0⟩ :=
  (memcpydata_copies sample 0 64 0 [0, 1] ⟨.ext 7, 0⟩ sample_wellFormed (by decide)).mpr ⟨rfl, fun whole => absurd whole (by decide)⟩

-- The first 64 of 69 bytes.
theorem memcpydata_fails : ¬CopiesData sample 0 [0, 1] 0 64 ⟨.ext 7, 0⟩ := by
  rintro ⟨fuel, last, done, -⟩
  obtain ⟨place, skip, copy⟩ := Option.bind_eq_some_iff.mp done
  obtain ⟨front, reached⟩ := skipData_reaches fuel sample 0 0 _ [0, 1] place sample_wellFormed.chained.seg skip
  rw [copyData_never fuel sample _ _ 64 _ _ front (by decide) reached] at copy
  cases copy

end OsZero.Mbuf

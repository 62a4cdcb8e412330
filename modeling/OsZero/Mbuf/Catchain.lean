import OsZero.Mbuf.Getchain
import OsZero.Mbuf.Content

set_option autoImplicit false

namespace OsZero.Mbuf.Catchain

open Sharing

-- while (src), with dest the last mbuf of its chain. The length of dest is written only
-- where src runs out.
def catLoop : Nat → Heap → BitVec 64 → Nat → Nat → Option Nat → Option Heap
  | 0, _, _, _, _, _ => none
  | fuel + 1, heap, join, dest, dlen, src =>
      src.elim (some { heap with mem := heap.mem.set dest fun mb => { mb with len := dlen } }) fun sb =>
        if heap.live sb then
          let slen := (heap.mem.bufs sb).len
          if join ≠ 0 ∨ mbufdatalen ≤ dlen + slen then some { heap with mem := heap.mem.set dest fun mb => { mb with next := some sb } }
          else
            (kbcopy heap.mem.bytes (heap.mem.bufs sb).data ((heap.mem.bufs dest).data.add dlen) slen).bind fun bytes =>
              (memrelbuf { heap with mem := { heap.mem with bytes := bytes } } (some sb)).bind fun released =>
                catLoop fuel released.1 join dest (dlen + slen) released.2.2
        else none

def memcatchain (fuel : Nat) (heap : Heap) (src : Option Nat) (dest : Nat) : Option Heap :=
  (Getchain.lastOf fuel heap.mem dest).bind fun last =>
    catLoop fuel heap (heap.mem.bufs last).flg last (heap.mem.bufs last).len src

def stretch (bytes : Bytes Region) (adr : Adr) (n : Nat) : List UInt8 := (List.range n).map fun ofs => bytes.byte adr.region (adr.ofs + ofs)

theorem stretch_length (bytes : Bytes Region) (adr : Adr) (n : Nat) : (stretch bytes adr n).length = n := by simp [stretch]

theorem stretch_add (bytes : Bytes Region) (adr : Adr) (a b : Nat) : stretch bytes adr (a + b) = stretch bytes adr a ++ stretch bytes (adr.add a) b := by
  simp only [stretch, List.range_add, List.map_append, List.map_map]
  congr 1
  apply List.map_congr_left
  intro ofs _
  simp [Ptr.add, Nat.add_assoc]

theorem stretch_congr (bytes other : Bytes Region) (adr : Adr) (n : Nat)
    (same : ∀ ofs < n, bytes.byte adr.region (adr.ofs + ofs) = other.byte adr.region (adr.ofs + ofs)) : stretch bytes adr n = stretch other adr n :=
  List.map_congr_left fun ofs inside => same ofs (List.mem_range.mp inside)

-- What kmemcpy takes without a fault, and what it then leaves out holding the right bytes by chance.
def SliceFits (bytes : Bytes Region) (src dest : Adr) (len : Nat) : Prop :=
  len = 0 ∨ 64 ≤ len ∧ Fits bytes dest (reach len) ∧ Fits bytes src (reach len)

instance (bytes : Bytes Region) (src dest : Adr) (len : Nat) : Decidable (SliceFits bytes src dest len) :=
  inferInstanceAs (Decidable (_ ∨ _))

def SliceLucky (bytes : Bytes Region) (src dest : Adr) (len : Nat) : Prop :=
  ∀ ofs, reach len ≤ ofs → ofs < len → bytes.byte dest.region (dest.ofs + ofs) = bytes.byte src.region (src.ofs + ofs)

theorem kbcopy_outside (bytes : Bytes Region) (src dest : Adr) (len : Nat) (outside : ¬Fits bytes dest 0) :
    kbcopy bytes src dest len = if len = 0 then some bytes else none := by
  have never : ¬Fits bytes dest longsize := fun long => outside (Nat.le_trans (Nat.le_add_right _ _) long)
  have blocks : len >>> (longsizelog2 + 3) = len / 64 := Nat.shiftRight_eq_div_pow len 6
  unfold kbcopy kmemcpy
  dsimp only
  rw [blocks]
  cases count : len / 64 with
  | zero =>
      have short : len < 64 := by omega
      by_cases empty : len = 0
      · simp [empty, copyBlocks]
      · simp [empty, copyBlocks]
  | succ count =>
      rw [if_neg (by omega)]
      simp [copyBlocks, copyLongs, copyLong, never]

theorem kbcopy_eq (bytes : Bytes Region) (src dest : Adr) (len : Nat) (apart : src.region ≠ dest.region) (inside : Fits bytes src 0) :
    kbcopy bytes src dest len = if SliceFits bytes src dest len then some (blit bytes dest src (reach len)) else none := by
  by_cases here : Fits bytes dest 0
  · rw [kbcopy, kmemcpy_eq bytes dest src len apart here inside]
    by_cases empty : len = 0
    · subst empty
      rw [if_pos rfl, if_pos (show SliceFits bytes src dest 0 from Or.inl rfl)]
      exact congrArg some (blit_zero bytes dest src).symm
    · rw [if_neg empty]
      exact if_congr (by simp [SliceFits, empty]) rfl rfl
  · rw [kbcopy_outside bytes src dest len here]
    by_cases empty : len = 0
    · subst empty
      rw [if_pos rfl, if_pos (show SliceFits bytes src dest 0 from Or.inl rfl)]
      exact congrArg some (blit_zero bytes dest src).symm
    · rw [if_neg empty, if_neg]
      rintro (none | ⟨-, fits, -⟩)
      · exact empty none
      · exact here (Nat.le_trans (Nat.le_add_right _ _) fits)

theorem blit_lucky (bytes : Bytes Region) (src dest : Adr) (len : Nat) :
    stretch (blit bytes dest src (reach len)) dest len = stretch bytes src len ↔ SliceLucky bytes src dest len := by
  unfold stretch SliceLucky
  rw [List.map_inj_left]
  have read : ∀ ofs, (blit bytes dest src (reach len)).byte dest.region (dest.ofs + ofs) =
      if ofs < reach len then bytes.byte src.region (src.ofs + ofs) else bytes.byte dest.region (dest.ofs + ofs) := by
    intro ofs
    unfold blit
    dsimp only
    by_cases near : ofs < reach len
    · rw [if_pos ⟨rfl, by omega, by omega⟩, if_pos near, Nat.add_sub_cancel_left]
    · rw [if_neg (fun inside => near (by omega)), if_neg near]
  simp only [List.mem_range, read]
  constructor
  · intro all ofs far inside
    have here := all ofs inside
    rwa [if_neg (Nat.not_lt.mpr far)] at here
  · intro lucky ofs inside
    by_cases near : ofs < reach len
    · rw [if_pos near]
    · rw [if_neg near]
      exact lucky ofs (Nat.not_lt.mp near) inside

theorem blit_below (bytes : Bytes Region) (adr src : Adr) (n count : Nat) : stretch (blit bytes (adr.add n) src count) adr n = stretch bytes adr n := by
  apply stretch_congr
  intro ofs inside
  unfold blit Ptr.add
  dsimp only
  exact if_neg fun both => by omega

-- The mbufs that fit are merged, those from the first that does not on are linked. Merged
-- bytes are lost where something is linked behind them, and copied wrong where kmemcpy is.
def Joins (mem : Mem) (last : Nat) : Bytes Region → Nat → List Nat → Prop
  | _, _, [] => True
  | bytes, dlen, sb :: rest =>
      if mbufdatalen ≤ dlen + (mem.bufs sb).len then dlen = (mem.bufs last).len
      else (SliceFits bytes (mem.bufs sb).data ((mem.bufs last).data.add dlen) (mem.bufs sb).len ∧
          SliceLucky bytes (mem.bufs sb).data ((mem.bufs last).data.add dlen) (mem.bufs sb).len) ∧
        Joins mem last (blit bytes ((mem.bufs last).data.add dlen) (mem.bufs sb).data (reach (mem.bufs sb).len)) (dlen + (mem.bufs sb).len) rest

theorem memrelext_bytes (mem : Mem) (mb : Nat) : (memrelext mem mb).1.bytes = mem.bytes := by
  unfold memrelext
  dsimp only
  split_ifs <;> rfl

theorem memrelbuf_bytes (heap : Heap) (mb : Nat) (done : Heap × List Event × Option Nat) (released : memrelbuf heap (some mb) = some done) :
    done.1.mem.bytes = heap.mem.bytes := by
  unfold memrelbuf at released
  rw [Option.bind_some] at released
  dsimp only at released
  split_ifs at released
  · obtain rfl := Option.some.inj released
    exact memrelext_bytes heap.mem mb
  · obtain rfl := Option.some.inj released
    rfl

-- The heap while the loop is at rest: nothing that it is still going to read has changed.
structure Merging (mem : Mem) (heap : Heap) (last : Nat) (rest : List Nat) : Prop where
  bufs : ∀ id, id = last ∨ id ∈ rest → heap.mem.bufs id = mem.bufs id
  live : ∀ id ∈ rest, heap.live id = true
  bytes : ∀ region, region ≠ .mbuf last → heap.mem.bytes.byte region = mem.bytes.byte region
  size : heap.mem.bytes.size = mem.bytes.size

theorem seg_start (mem : Mem) (src : Option Nat) (ids : List Nat) (seg : Chains.Seg (fun id => (mem.bufs id).next) src ids none) : src = ids.head? := by
  cases ids with
  | nil => exact seg
  | cons id ids => exact seg.1

-- What the loop is given: the last mbuf of one chain, and another chain.
structure Given (mem : Mem) (last : Nat) (rest : List Nat) : Prop where
  sound : Sound mem last
  ends : (mem.bufs last).next = none
  apart : last ∉ rest
  sounds : ∀ id ∈ rest, Sound mem id
  seg : Chains.Seg (fun id => (mem.bufs id).next) rest.head? rest none

theorem given_tail (mem : Mem) (last sb : Nat) (rest : List Nat) (given : Given mem last (sb :: rest)) : Given mem last rest := by
  refine ⟨given.sound, given.ends, fun inside => given.apart (List.mem_cons_of_mem _ inside),
    fun id inside => given.sounds id (List.mem_cons_of_mem _ inside), ?_⟩
  have seg : Chains.Seg (fun id => (mem.bufs id).next) (mem.bufs sb).next rest none := given.seg.2
  cases rest with
  | nil => rfl
  | cons next rest => exact ⟨rfl, seg.2⟩

theorem given_next (mem : Mem) (last sb : Nat) (rest : List Nat) (given : Given mem last (sb :: rest)) : (mem.bufs sb).next = rest.head? :=
  seg_start mem _ rest given.seg.2

theorem given_home (mem : Mem) (last : Nat) (rest : List Nat) (given : Given mem last rest) (plain : (mem.bufs last).flg = 0) :
    (mem.bufs last).data.region = .mbuf last := by
  apply given.sound.inline
  unfold isext
  rw [plain]
  simp

theorem given_elsewhere (mem : Mem) (last : Nat) (rest : List Nat) (given : Given mem last rest) :
    ∀ id ∈ rest, (mem.bufs id).data.region ≠ .mbuf last :=
  fun id inside => sound_elsewhere mem id last (given.sounds id inside) fun back => given.apart (back ▸ inside)

-- One merge: the copy is made and the mbuf released, or the copy has no result.
theorem catLoop_merges (mem : Mem) (heap : Heap) (last dlen sb : Nat) (rest : List Nat) (given : Given mem last (sb :: rest))
    (merging : Merging mem heap last (sb :: rest)) (plain : (mem.bufs last).flg = 0) (room : ¬mbufdatalen ≤ dlen + (mem.bufs sb).len) :
    (SliceFits heap.mem.bytes (mem.bufs sb).data ((mem.bufs last).data.add dlen) (mem.bufs sb).len ∧ ∃ after,
      (∀ fuel, catLoop (fuel + 1) heap 0 last dlen (some sb) = catLoop fuel after 0 last (dlen + (mem.bufs sb).len) rest.head?) ∧
      Merging mem after last rest ∧
      after.mem.bytes = blit heap.mem.bytes ((mem.bufs last).data.add dlen) (mem.bufs sb).data (reach (mem.bufs sb).len) ∧
      ∀ id, id ≠ sb → after.mem.bufs id = heap.mem.bufs id) ∨
    (¬SliceFits heap.mem.bytes (mem.bufs sb).data ((mem.bufs last).data.add dlen) (mem.bufs sb).len ∧
      ∀ fuel, catLoop (fuel + 1) heap 0 last dlen (some sb) = none) := by
  have here := merging.bufs sb (Or.inr List.mem_cons_self)
  have lastHere := merging.bufs last (Or.inl rfl)
  have live := merging.live sb List.mem_cons_self
  have home := given_home mem last _ given plain
  have apart : (mem.bufs sb).data.region ≠ ((mem.bufs last).data.add dlen).region := by
    show _ ≠ (mem.bufs last).data.region
    rw [home]
    exact given_elsewhere mem last _ given sb List.mem_cons_self
  have source : Fits heap.mem.bytes (mem.bufs sb).data 0 := by
    have fits := (given.sounds sb List.mem_cons_self).fits
    unfold Fits at fits ⊢
    rw [merging.size]
    omega
  have copy := kbcopy_eq heap.mem.bytes (mem.bufs sb).data ((mem.bufs last).data.add dlen) (mem.bufs sb).len apart source
  have step : ∀ fuel, catLoop (fuel + 1) heap 0 last dlen (some sb) =
      (kbcopy heap.mem.bytes (mem.bufs sb).data ((mem.bufs last).data.add dlen) (mem.bufs sb).len).bind fun bytes =>
        (memrelbuf { heap with mem := { heap.mem with bytes := bytes } } (some sb)).bind fun released =>
          catLoop fuel released.1 0 last (dlen + (mem.bufs sb).len) released.2.2 := fun fuel => by
    rw [catLoop, Option.elim_some, if_pos live]
    simp only [here, lastHere]
    rw [if_neg]
    rintro (flags | full)
    · exact flags rfl
    · exact room full
  by_cases fits : SliceFits heap.mem.bytes (mem.bufs sb).data ((mem.bufs last).data.add dlen) (mem.bufs sb).len
  · rw [if_pos fits] at copy
    obtain ⟨done, released⟩ := memrelbuf_returns
      { heap with mem := { heap.mem with bytes := blit heap.mem.bytes ((mem.bufs last).data.add dlen) (mem.bufs sb).data (reach (mem.bufs sb).len) } } sb live
    obtain ⟨-, ⟨-, gone, others, -⟩, next, -⟩ := memrelbuf_released _ _ _ released
    have bytes := memrelbuf_bytes _ _ _ released
    refine Or.inl ⟨fits, done.1, ?_, ⟨?_, ?_, ?_, ?_⟩, bytes, others⟩
    · intro fuel
      rw [step, copy, Option.bind_some, released, Option.bind_some, next]
      show catLoop fuel done.1 0 last _ (heap.mem.bufs sb).next = _
      rw [here, given_next mem last sb rest given]
    · intro id which
      have other : id ≠ sb := by
        rintro rfl
        rcases which with rfl | inside
        · exact given.apart List.mem_cons_self
        · exact (List.nodup_cons.mp (Chains.seg_nodup _ _ _ given.seg)).1 inside
      rw [others id other]
      exact merging.bufs id (which.imp_right (List.mem_cons_of_mem _))
    · intro id inside
      have other : id ≠ sb := by
        rintro rfl
        exact (List.nodup_cons.mp (Chains.seg_nodup _ _ _ given.seg)).1 inside
      rw [gone, Function.update_of_ne other]
      exact merging.live id (List.mem_cons_of_mem _ inside)
    · intro region elsewhere
      rw [bytes, ← merging.bytes region elsewhere]
      funext ofs
      exact blit_other _ _ _ _ region (by rw [← home] at elsewhere; exact elsewhere) ofs
    · rw [bytes]
      exact merging.size
  · rw [if_neg fits] at copy
    exact Or.inr ⟨fits, fun fuel => by rw [step, copy, Option.bind_none]⟩

theorem total_append (mem : Mem) (front back : List Nat) : total mem (front ++ back) = total mem front + total mem back := by
  induction front with
  | nil => simp [total]
  | cons id front ih =>
      show (mem.bufs id).len + total mem (front ++ back) = (mem.bufs id).len + total mem front + total mem back
      rw [ih, Nat.add_assoc]

-- What a run of the loop leaves alone, and the two ways in which it ends.
structure Leaves (mem : Mem) (heap after : Heap) (last dlen : Nat) (rest : List Nat) : Prop where
  bufs : ∀ id, id ≠ last → id ∉ rest → after.mem.bufs id = heap.mem.bufs id
  data : (after.mem.bufs last).data = (mem.bufs last).data
  bytes : ∀ region, region ≠ .mbuf last → after.mem.bytes.byte region = mem.bytes.byte region
  below : stretch after.mem.bytes (mem.bufs last).data dlen = stretch heap.mem.bytes (mem.bufs last).data dlen
  tail : ∃ merged tail, rest = merged ++ tail ∧ Chains.Seg (fun id => (after.mem.bufs id).next) (after.mem.bufs last).next tail none ∧
    (∀ id ∈ tail, after.mem.bufs id = mem.bufs id) ∧
    (tail = [] ∧ (after.mem.bufs last).len = dlen + total mem merged ∨ (after.mem.bufs last).len = (mem.bufs last).len)

theorem linked_here (mem : Mem) (heap : Heap) (last sb : Nat) (rest : List Nat) (merging : Merging mem heap last rest) :
    (heap.mem.set last fun mb => { mb with next := some sb }).bufs last = { mem.bufs last with next := some sb } := by
  rw [← merging.bufs last (Or.inl rfl)]
  exact Function.update_self _ _ _

theorem linked_same (mem : Mem) (heap : Heap) (last sb : Nat) (rest : List Nat) (given : Given mem last rest) (merging : Merging mem heap last rest) :
    ∀ id ∈ rest, (heap.mem.set last fun mb => { mb with next := some sb }).bufs id = mem.bufs id := fun id inside => by
  have other : id ≠ last := fun back => given.apart (back ▸ inside)
  rw [← merging.bufs id (Or.inr inside)]
  exact Function.update_of_ne other _ _

theorem ended_here (mem : Mem) (heap : Heap) (last dlen : Nat) (rest : List Nat) (merging : Merging mem heap last rest) :
    (heap.mem.set last fun mb => { mb with len := dlen }).bufs last = { mem.bufs last with len := dlen } := by
  rw [← merging.bufs last (Or.inl rfl)]
  exact Function.update_self _ _ _

theorem linked_leaves (mem : Mem) (heap : Heap) (last dlen sb : Nat) (rest : List Nat) (given : Given mem last (sb :: rest))
    (merging : Merging mem heap last (sb :: rest)) :
    Leaves mem heap { heap with mem := heap.mem.set last fun mb => { mb with next := some sb } } last dlen (sb :: rest) := by
  have here := linked_here mem heap last sb (sb :: rest) merging
  have same := linked_same mem heap last sb (sb :: rest) given merging
  refine ⟨fun id other _ => Function.update_of_ne other _ _, ?_, merging.bytes, rfl, [], sb :: rest, rfl, ?_, same, Or.inr ?_⟩
  · dsimp only
    rw [here]
  · dsimp only
    rw [here]
    exact Chains.seg_frame _ _ _ none _ given.seg fun id inside => congrArg Membuf.next (same id inside)
  · dsimp only
    rw [here]

theorem ended_leaves (mem : Mem) (heap : Heap) (last dlen : Nat) (given : Given mem last []) (merging : Merging mem heap last []) :
    Leaves mem heap { heap with mem := heap.mem.set last fun mb => { mb with len := dlen } } last dlen [] := by
  have here := ended_here mem heap last dlen [] merging
  refine ⟨fun id other _ => Function.update_of_ne other _ _, ?_, merging.bytes, rfl, [], [], rfl, ?_, by simp, Or.inl ⟨rfl, ?_⟩⟩
  · dsimp only
    rw [here]
  · dsimp only
    rw [here]
    exact given.ends
  · dsimp only
    rw [here]
    rfl

theorem catLoop_leaves (fuel : Nat) (mem : Mem) (heap after : Heap) (last dlen : Nat) (rest : List Nat) (given : Given mem last rest)
    (merging : Merging mem heap last rest) (plain : (mem.bufs last).flg = 0) (done : catLoop fuel heap 0 last dlen rest.head? = some after) : Leaves mem heap after last dlen rest := by
  induction rest generalizing fuel heap dlen with
  | nil =>
      cases fuel with
      | zero => cases done
      | succ fuel =>
          cases done
          exact ended_leaves mem heap last dlen given merging
  | cons sb rest ih =>
      cases fuel with
      | zero => cases done
      | succ fuel =>
          rw [List.head?_cons] at done
          by_cases full : mbufdatalen ≤ dlen + (mem.bufs sb).len
          · rw [catLoop, Option.elim_some, if_pos (merging.live sb List.mem_cons_self)] at done
            simp only [merging.bufs sb (Or.inr List.mem_cons_self), full, or_true, if_true] at done
            cases done
            exact linked_leaves mem heap last dlen sb rest given merging
          · rcases catLoop_merges mem heap last dlen sb rest given merging plain full with ⟨-, next, step, onward, bytes, others⟩ | ⟨-, fault⟩
            · rw [step] at done
              have leaves := ih fuel next _ (given_tail mem last sb rest given) onward done
              refine ⟨?_, leaves.data, leaves.bytes, ?_, ?_⟩
              · intro id notLast outside
                rw [List.mem_cons, not_or] at outside
                rw [leaves.bufs id notLast outside.2, others id outside.1]
              · have below := congrArg (List.take dlen) leaves.below
                rw [stretch_add, stretch_add, List.take_left' (stretch_length _ _ _), List.take_left' (stretch_length _ _ _)] at below
                rw [below, bytes, blit_below]
              · obtain ⟨merged, tail, split, seg, same, ends⟩ := leaves.tail
                refine ⟨sb :: merged, tail, by rw [split]; rfl, seg, same, ?_⟩
                rcases ends with ⟨empty, len⟩ | len
                · refine Or.inl ⟨empty, ?_⟩
                  rw [len]
                  show _ = dlen + ((mem.bufs sb).len + total mem merged)
                  omega
                · exact Or.inr len
            · rw [fault] at done
              cases done

-- The bytes of the last mbuf and of what is linked behind it, against those that were
-- there and those of src that were still to come.
def Appended (mem : Mem) (bytes : Bytes Region) (last dlen : Nat) (rest : List Nat) (after : Heap) : Prop :=
  ∃ tail, Chains.Seg (fun id => (after.mem.bufs id).next) (after.mem.bufs last).next tail none ∧
    bytesOf after.mem last ++ content after.mem tail = stretch bytes (mem.bufs last).data dlen ++ content mem rest

theorem content_congr (mem after : Mem) (ids : List Nat) (same : ∀ id ∈ ids, bytesOf after id = bytesOf mem id) :
    content after ids = content mem ids := by
  induction ids with
  | nil => rfl
  | cons id ids ih =>
      show bytesOf after id ++ content after ids = bytesOf mem id ++ content mem ids
      rw [same id List.mem_cons_self, ih fun other inside => same other (List.mem_cons_of_mem _ inside)]

theorem leaves_content (mem : Mem) (heap after : Heap) (last dlen : Nat) (rest tail merged : List Nat) (given : Given mem last rest)
    (leaves : Leaves mem heap after last dlen rest) (split : rest = merged ++ tail) (same : ∀ id ∈ tail, after.mem.bufs id = mem.bufs id) :
    content after.mem tail = content mem tail := by
  apply content_congr
  intro id inside
  unfold bytesOf
  rw [same id inside, leaves.bytes _ (given_elsewhere mem last rest given id (split ▸ List.mem_append_right _ inside))]

-- The part of the result where a merge was made shows whether the copy was right.
theorem appended_lucky (mem : Mem) (bytes : Bytes Region) (next after : Heap) (last dlen sb : Nat) (rest : List Nat)
    (given : Given mem last (sb :: rest)) (long : (mem.bufs last).len ≤ dlen)
    (source : stretch bytes (mem.bufs sb).data (mem.bufs sb).len = bytesOf mem sb)
    (merged : next.mem.bytes = blit bytes ((mem.bufs last).data.add dlen) (mem.bufs sb).data (reach (mem.bufs sb).len))
    (leaves : Leaves mem next after last (dlen + (mem.bufs sb).len) rest) (appended : Appended mem bytes last dlen (sb :: rest) after) :
    SliceLucky bytes (mem.bufs sb).data ((mem.bufs last).data.add dlen) (mem.bufs sb).len := by
  obtain ⟨tail, seg, whole⟩ := appended
  obtain ⟨front, back, split, seg', same, ends⟩ := leaves.tail
  obtain rfl := Chains.seg_unique _ _ _ _ seg seg'
  have parts : content mem (sb :: rest) = bytesOf mem sb ++ content mem rest := rfl
  have here : bytesOf after.mem last = stretch after.mem.bytes (mem.bufs last).data (after.mem.bufs last).len := by
    rw [← leaves.data]
    rfl
  rcases ends with ⟨-, len⟩ | len
  · rw [← blit_lucky, source]
    rw [here, len, stretch_add, List.append_assoc, parts, ← List.append_assoc (stretch bytes _ _)] at whole
    have first := congrArg (List.take (dlen + (mem.bufs sb).len)) whole
    rw [List.take_left' (stretch_length _ _ _), List.take_left' (by rw [List.length_append, stretch_length, bytesOf_length]), leaves.below, merged,
      stretch_add, blit_below] at first
    exact List.append_cancel_left first
  · have lengths := congrArg List.length whole
    rw [parts, List.length_append, List.length_append, List.length_append, stretch_length, bytesOf_length, bytesOf_length, len,
      leaves_content mem next after last _ rest tail front (given_tail mem last sb rest given) leaves split same, content_length, content_length,
      split, total_append] at lengths
    intro ofs _ inside
    omega

-- What is linked behind merged bytes hides them: the length is that from before the merge.
theorem linked_appended (mem : Mem) (heap : Heap) (last dlen sb : Nat) (rest : List Nat) (given : Given mem last (sb :: rest))
    (merging : Merging mem heap last (sb :: rest)) :
    Appended mem heap.mem.bytes last dlen (sb :: rest) { heap with mem := heap.mem.set last fun mb => { mb with next := some sb } } ↔
      dlen = (mem.bufs last).len := by
  have here := linked_here mem heap last sb (sb :: rest) merging
  have same := linked_same mem heap last sb (sb :: rest) given merging
  have seg : Chains.Seg (fun id => ((heap.mem.set last fun mb => { mb with next := some sb }).bufs id).next) (some sb) (sb :: rest) none :=
    Chains.seg_frame _ _ _ none _ given.seg fun id inside => congrArg Membuf.next (same id inside)
  have held : bytesOf (heap.mem.set last fun mb => { mb with next := some sb }) last =
      stretch heap.mem.bytes (mem.bufs last).data (mem.bufs last).len := by
    unfold bytesOf
    rw [here]
    rfl
  have linked := leaves_content mem heap _ last dlen (sb :: rest) (sb :: rest) [] given (linked_leaves mem heap last dlen sb rest given merging) rfl same
  have next : ((heap.mem.set last fun mb => { mb with next := some sb }).bufs last).next = some sb := by rw [here]
  constructor
  · rintro ⟨tail, chain, whole⟩
    dsimp only at chain whole linked
    rw [next] at chain
    obtain rfl := Chains.seg_unique _ _ _ _ chain seg
    have lengths := congrArg List.length whole
    rw [linked, held, List.length_append, List.length_append, stretch_length, stretch_length] at lengths
    omega
  · intro exactly
    refine ⟨sb :: rest, ?_, ?_⟩
    · dsimp only
      rw [next]
      exact seg
    · dsimp only at linked ⊢
      rw [linked, held, exactly]

theorem ended_appended (mem : Mem) (heap : Heap) (last dlen : Nat) (given : Given mem last []) (merging : Merging mem heap last []) :
    Appended mem heap.mem.bytes last dlen [] { heap with mem := heap.mem.set last fun mb => { mb with len := dlen } } := by
  have here := ended_here mem heap last dlen [] merging
  refine ⟨[], ?_, ?_⟩
  · dsimp only
    rw [here]
    exact given.ends
  · unfold bytesOf
    dsimp only
    rw [here]
    rfl

-- A right copy makes the two statements about what is appended the same.
theorem appended_merged (mem : Mem) (bytes : Bytes Region) (next after : Heap) (last dlen sb : Nat) (rest : List Nat)
    (source : stretch bytes (mem.bufs sb).data (mem.bufs sb).len = bytesOf mem sb)
    (merged : next.mem.bytes = blit bytes ((mem.bufs last).data.add dlen) (mem.bufs sb).data (reach (mem.bufs sb).len))
    (lucky : SliceLucky bytes (mem.bufs sb).data ((mem.bufs last).data.add dlen) (mem.bufs sb).len) :
    Appended mem bytes last dlen (sb :: rest) after ↔ Appended mem next.mem.bytes last (dlen + (mem.bufs sb).len) rest after := by
  have parts : content mem (sb :: rest) = bytesOf mem sb ++ content mem rest := rfl
  have copied := (blit_lucky _ _ _ _).mpr lucky
  unfold Appended
  rw [merged, stretch_add, blit_below, copied, source, parts, List.append_assoc]

theorem catLoop_joins (mem : Mem) (heap : Heap) (last dlen : Nat) (rest : List Nat) (given : Given mem last rest) (merging : Merging mem heap last rest)
    (plain : (mem.bufs last).flg = 0) (long : (mem.bufs last).len ≤ dlen) :
    (∃ fuel after, catLoop fuel heap 0 last dlen rest.head? = some after ∧ Appended mem heap.mem.bytes last dlen rest after) ↔
      Joins mem last heap.mem.bytes dlen rest := by
  induction rest generalizing heap dlen with
  | nil => exact ⟨fun _ => trivial, fun _ => ⟨1, _, rfl, ended_appended mem heap last dlen given merging⟩⟩
  | cons sb rest ih =>
      have onward := given_tail mem last sb rest given
      unfold Joins
      rw [List.head?_cons]
      by_cases full : mbufdatalen ≤ dlen + (mem.bufs sb).len
      · rw [if_pos full, ← linked_appended mem heap last dlen sb rest given merging]
        have step : ∀ fuel, catLoop (fuel + 1) heap 0 last dlen (some sb) =
            some { heap with mem := heap.mem.set last fun mb => { mb with next := some sb } } := fun fuel => by
          rw [catLoop, Option.elim_some, if_pos (merging.live sb List.mem_cons_self)]
          simp only [merging.bufs sb (Or.inr List.mem_cons_self), full, or_true, if_true]
        constructor
        · rintro ⟨fuel, after, done, appended⟩
          cases fuel with
          | zero => cases done
          | succ fuel =>
              rw [step] at done
              cases done
              exact appended
        · exact fun appended => ⟨1, _, step 0, appended⟩
      · rw [if_neg full]
        have source : stretch heap.mem.bytes (mem.bufs sb).data (mem.bufs sb).len = bytesOf mem sb := by
          unfold stretch bytesOf
          rw [merging.bytes _ (given_elsewhere mem last _ given sb List.mem_cons_self)]
        have further : (mem.bufs last).len ≤ dlen + (mem.bufs sb).len := by omega
        constructor
        · rintro ⟨fuel, after, done, appended⟩
          cases fuel with
          | zero => cases done
          | succ fuel =>
              rcases catLoop_merges mem heap last dlen sb rest given merging plain full with ⟨fits, next, step, there, bytes, -⟩ | ⟨-, fault⟩
              · rw [step] at done
                have leaves := catLoop_leaves fuel mem next after last _ rest onward there plain done
                have lucky := appended_lucky mem heap.mem.bytes next after last dlen sb rest given long source bytes leaves appended
                have joins := (ih next _ onward there further).mp ⟨fuel, after, done, (appended_merged mem _ next after last dlen sb rest source bytes lucky).mp appended⟩
                rw [bytes] at joins
                exact ⟨⟨fits, lucky⟩, joins⟩
              · rw [fault] at done
                cases done
        · rintro ⟨⟨fits, lucky⟩, joins⟩
          rcases catLoop_merges mem heap last dlen sb rest given merging plain full with ⟨-, next, step, there, bytes, -⟩ | ⟨unfit, -⟩
          · rw [← bytes] at joins
            obtain ⟨fuel, after, done, appended⟩ := (ih next _ onward there further).mpr joins
            exact ⟨fuel + 1, after, (step fuel).trans done, (appended_merged mem _ next after last dlen sb rest source bytes lucky).mpr appended⟩
          · exact absurd fits unfit

theorem lastOf_only (fuel : Nat) (mem : Mem) (first last found : Nat) (items : List Nat)
    (seg : Chains.Seg (fun id => (mem.bufs id).next) (some first) (items ++ [last]) none) (done : Getchain.lastOf fuel mem first = some found) :
    found = last := by
  induction fuel generalizing first items with
  | zero => cases done
  | succ fuel ih =>
      rw [Getchain.lastOf] at done
      cases items with
      | nil =>
          have link : (mem.bufs first).next = none := by
            obtain rfl : first = last := Option.some.inj seg.1
            exact seg.2
          rw [link, Option.elim_none] at done
          exact (Option.some.inj done).symm.trans (Option.some.inj seg.1)
      | cons item items =>
          obtain rfl : first = item := Option.some.inj seg.1
          have rest : Chains.Seg (fun id => (mem.bufs id).next) (mem.bufs first).next (items ++ [last]) none := seg.2
          obtain ⟨next, link⟩ := Chains.seg_starts _ _ none items last rest
          rw [link] at rest
          rw [link, Option.elim_some] at done
          exact ih next items rest done

theorem catLoop_more (fuel more : Nat) (heap after : Heap) (join : BitVec 64) (dest dlen : Nat) (src : Option Nat) (larger : fuel ≤ more)
    (done : catLoop fuel heap join dest dlen src = some after) : catLoop more heap join dest dlen src = some after := by
  induction fuel generalizing more heap dlen src with
  | zero => cases done
  | succ fuel ih =>
      obtain ⟨more, rfl⟩ : ∃ less, more = less + 1 := ⟨more - 1, by omega⟩
      cases src with
      | none => exact done
      | some sb =>
          rw [catLoop, Option.elim_some] at done ⊢
          dsimp only at done ⊢
          split_ifs at done ⊢ with live full
          · exact done
          · obtain ⟨bytes, copied, done⟩ := Option.bind_eq_some_iff.mp done
            obtain ⟨released, freed, done⟩ := Option.bind_eq_some_iff.mp done
            rw [copied, Option.bind_some, freed, Option.bind_some]
            exact ih more released.1 _ released.2.2 (Nat.le_of_succ_le_succ larger) done

-- Two chains that share nothing, the second of which may be freed.
structure Catchable (heap : Heap) (src : Option Nat) (sids : List Nat) (dest : Nat) (front : List Nat) (last : Nat) : Prop where
  dest : Chained heap.mem (some dest) (front ++ [last])
  src : Chained heap.mem src sids
  live : ∀ id ∈ sids, heap.live id = true
  apart : ∀ id ∈ sids, id ∉ front ++ [last]

def CatKeeps (heap : Heap) (src : Option Nat) (sids : List Nat) (dest : Nat) (dids : List Nat) : Prop :=
  ∃ fuel after, memcatchain fuel heap src dest = some after ∧ ∃ ids, Chains.Seg (fun id => (after.mem.bufs id).next) (some dest) ids none ∧
    content after.mem ids = content heap.mem dids ++ content heap.mem sids

theorem catchable_front (heap : Heap) (src : Option Nat) (sids : List Nat) (dest : Nat) (front : List Nat) (last : Nat)
    (catchable : Catchable heap src sids dest front last) : ∀ id ∈ front, id ≠ last ∧ id ∉ sids := by
  intro id inside
  have nodup := Chains.seg_nodup _ _ _ catchable.dest.seg
  refine ⟨?_, fun other => catchable.apart id other (List.mem_append_left _ inside)⟩
  rintro rfl
  exact (List.nodup_append.mp nodup).2.2 id inside id List.mem_cons_self rfl

-- What is reachable from dest is what was there before the last mbuf, and what the loop made of the last.
theorem kept_iff_appended (heap after : Heap) (src : Option Nat) (sids : List Nat) (dest : Nat) (front : List Nat) (last : Nat)
    (catchable : Catchable heap src sids dest front last) (bufs : ∀ id ∈ front, after.mem.bufs id = heap.mem.bufs id)
    (bytes : ∀ id ∈ front, bytesOf after.mem id = bytesOf heap.mem id) (tail : List Nat)
    (chain : Chains.Seg (fun id => (after.mem.bufs id).next) (after.mem.bufs last).next tail none) :
    (∃ ids, Chains.Seg (fun id => (after.mem.bufs id).next) (some dest) ids none ∧
      content after.mem ids = content heap.mem (front ++ [last]) ++ content heap.mem sids) ↔
    Appended heap.mem heap.mem.bytes last (heap.mem.bufs last).len sids after := by
  have whole : Chains.Seg (fun id => (after.mem.bufs id).next) (some dest) (front ++ last :: tail) none := by
    obtain ⟨mid, before, ends⟩ := (Chains.seg_append _ _ _ _ _).mp catchable.dest.seg
    refine (Chains.seg_append _ _ _ _ _).mpr ⟨mid, ?_, ends.1, chain⟩
    exact Chains.seg_frame _ _ _ mid _ before fun id inside => congrArg Membuf.next (bufs id inside)
  have made : content after.mem (front ++ last :: tail) = content heap.mem front ++ (bytesOf after.mem last ++ content after.mem tail) := by
    rw [← content_congr heap.mem after.mem front bytes]
    simp [content]
  have given : content heap.mem (front ++ [last]) ++ content heap.mem sids = content heap.mem front ++ (bytesOf heap.mem last ++ content heap.mem sids) := by
    simp [content]
  have held : bytesOf heap.mem last = stretch heap.mem.bytes (heap.mem.bufs last).data (heap.mem.bufs last).len := rfl
  constructor
  · rintro ⟨ids, seg, same⟩
    obtain rfl := Chains.seg_unique _ _ _ _ seg whole
    rw [made, given] at same
    exact ⟨tail, chain, by rw [← held]; exact List.append_cancel_left same⟩
  · rintro ⟨others, seg, same⟩
    obtain rfl := Chains.seg_unique _ _ _ _ seg chain
    refine ⟨_, whole, ?_⟩
    rw [made, given, same, held]

theorem memcatchain_of (fuel : Nat) (heap after : Heap) (src : Option Nat) (dest : Nat) (front : List Nat) (last : Nat)
    (seg : Chains.Seg (fun id => (heap.mem.bufs id).next) (some dest) (front ++ [last]) none)
    (done : catLoop fuel heap (heap.mem.bufs last).flg last (heap.mem.bufs last).len src = some after) :
    memcatchain (max fuel (front.length + 1)) heap src dest = some after := by
  have walk := Getchain.lastOf_seg (max fuel (front.length + 1)) heap.mem dest last front (by omega) seg
  rw [memcatchain, walk, Option.bind_some]
  exact catLoop_more fuel _ heap after _ last _ src (Nat.le_max_left _ _) done

theorem memcatchain_loop (fuel : Nat) (heap after : Heap) (src : Option Nat) (dest : Nat) (front : List Nat) (last : Nat)
    (seg : Chains.Seg (fun id => (heap.mem.bufs id).next) (some dest) (front ++ [last]) none)
    (done : memcatchain fuel heap src dest = some after) :
    catLoop fuel heap (heap.mem.bufs last).flg last (heap.mem.bufs last).len src = some after := by
  obtain ⟨found, walk, loop⟩ := Option.bind_eq_some_iff.mp done
  obtain rfl := lastOf_only fuel heap.mem dest last found front seg walk
  exact loop

theorem catchable_given (heap : Heap) (src : Option Nat) (sids : List Nat) (dest : Nat) (front : List Nat) (last : Nat)
    (catchable : Catchable heap src sids dest front last) : Given heap.mem last sids := by
  have inside : last ∈ front ++ [last] := by simp
  obtain ⟨mid, -, here⟩ := (Chains.seg_append _ _ _ _ _).mp catchable.dest.seg
  refine ⟨catchable.dest.sound last inside, here.2, fun other => catchable.apart last other inside, catchable.src.sound, ?_⟩
  rw [← seg_start heap.mem src sids catchable.src.seg]
  exact catchable.src.seg

-- An mbuf with flags takes no bytes, and the chain is linked at once.
theorem flagged_keeps (heap : Heap) (src : Option Nat) (sids : List Nat) (dest : Nat) (front : List Nat) (last : Nat)
    (catchable : Catchable heap src sids dest front last) (flagged : (heap.mem.bufs last).flg ≠ 0) : CatKeeps heap src sids dest (front ++ [last]) := by
  have given := catchable_given heap src sids dest front last catchable
  have merging : Merging heap.mem heap last sids := ⟨fun _ _ => rfl, catchable.live, fun _ _ => rfl, rfl⟩
  have start := seg_start heap.mem src sids catchable.src.seg
  have outside := catchable_front heap src sids dest front last catchable
  have keeps : ∀ after, (∀ id, id ≠ last → after.mem.bufs id = heap.mem.bufs id) → after.mem.bytes = heap.mem.bytes →
      catLoop 1 heap (heap.mem.bufs last).flg last (heap.mem.bufs last).len src = some after →
      Appended heap.mem heap.mem.bytes last (heap.mem.bufs last).len sids after → CatKeeps heap src sids dest (front ++ [last]) := by
    intro after others bytes done appended
    have bufs : ∀ id ∈ front, after.mem.bufs id = heap.mem.bufs id := fun id inside => others id (outside id inside).1
    obtain ⟨tail, chain, same⟩ := appended
    refine ⟨_, after, memcatchain_of 1 heap after src dest front last catchable.dest.seg done, ?_⟩
    refine (kept_iff_appended heap after src sids dest front last catchable bufs (fun id inside => ?_) tail chain).mpr ⟨tail, chain, same⟩
    unfold bytesOf
    rw [bufs id inside, bytes]
  cases sids with
  | nil =>
      refine keeps { heap with mem := heap.mem.set last fun mb => { mb with len := (heap.mem.bufs last).len } }
        (fun id other => Function.update_of_ne other _ _) rfl ?_ (ended_appended heap.mem heap last _ given merging)
      rw [start]
      rfl
  | cons sb rest =>
      refine keeps { heap with mem := heap.mem.set last fun mb => { mb with next := some sb } }
        (fun id other => Function.update_of_ne other _ _) rfl ?_ ((linked_appended heap.mem heap last _ sb rest given merging).mpr rfl)
      rw [start, List.head?_cons, catLoop, Option.elim_some, if_pos (catchable.live sb List.mem_cons_self)]
      exact if_pos (Or.inl flagged)

theorem memcatchain_keeps_iff (heap : Heap) (src : Option Nat) (sids : List Nat) (dest : Nat) (front : List Nat) (last : Nat)
    (catchable : Catchable heap src sids dest front last) :
    CatKeeps heap src sids dest (front ++ [last]) ↔
      ((heap.mem.bufs last).flg = 0 → Joins heap.mem last heap.mem.bytes (heap.mem.bufs last).len sids) := by
  by_cases plain : (heap.mem.bufs last).flg = 0
  · have given := catchable_given heap src sids dest front last catchable
    have merging : Merging heap.mem heap last sids := ⟨fun _ _ => rfl, catchable.live, fun _ _ => rfl, rfl⟩
    have start := seg_start heap.mem src sids catchable.src.seg
    have outside := catchable_front heap src sids dest front last catchable
    have kept : ∀ fuel after, catLoop fuel heap 0 last (heap.mem.bufs last).len sids.head? = some after →
        ((∃ ids, Chains.Seg (fun id => (after.mem.bufs id).next) (some dest) ids none ∧
          content after.mem ids = content heap.mem (front ++ [last]) ++ content heap.mem sids) ↔
        Appended heap.mem heap.mem.bytes last (heap.mem.bufs last).len sids after) := fun fuel after done => by
      have leaves := catLoop_leaves fuel heap.mem heap after last _ sids given merging plain done
      obtain ⟨-, tail, -, chain, -⟩ := leaves.tail
      have bufs : ∀ id ∈ front, after.mem.bufs id = heap.mem.bufs id := fun id inside => leaves.bufs id (outside id inside).1 (outside id inside).2
      refine kept_iff_appended heap after src sids dest front last catchable bufs (fun id inside => ?_) tail chain
      unfold bytesOf
      rw [bufs id inside, leaves.bytes _ (sound_elsewhere heap.mem id last (catchable.dest.sound id (by simp [inside])) (outside id inside).1)]
    rw [← catLoop_joins heap.mem heap last _ sids given merging plain (Nat.le_refl _)]
    constructor
    · rintro ⟨fuel, after, done, keeps⟩ -
      have loop := memcatchain_loop fuel heap after src dest front last catchable.dest.seg done
      rw [plain, start] at loop
      exact ⟨fuel, after, loop, (kept fuel after loop).mp keeps⟩
    · intro joins
      obtain ⟨fuel, after, loop, appended⟩ := joins plain
      refine ⟨_, after, memcatchain_of fuel heap after src dest front last catchable.dest.seg ?_, (kept fuel after loop).mpr appended⟩
      rw [plain, start]
      exact loop
  · exact iff_of_true (flagged_keeps heap src sids dest front last catchable plain) fun flags => absurd flags plain

end OsZero.Mbuf.Catchain

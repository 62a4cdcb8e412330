import OsZero.Mbuf.Pieces
import Mathlib.Algebra.Order.Ring.Int
import Mathlib.Algebra.BigOperators.Group.List.Basic

set_option autoImplicit false

namespace OsZero.Mbuf

def bytesOf (mem : Mem) (id : Nat) : List UInt8 :=
  (List.range (mem.bufs id).len).map (fun ofs => mem.bytes.byte (mem.bufs id).data.region ((mem.bufs id).data.ofs + ofs))

def content (mem : Mem) (ids : List Nat) : List UInt8 := ids.flatMap (bytesOf mem)

def pieceBytes (mem : Mem) (piece : Piece) : List UInt8 := (List.range piece.len).map (piece.byte mem)

theorem bytesOf_length (mem : Mem) (id : Nat) : (bytesOf mem id).length = (mem.bufs id).len := by simp [bytesOf]

theorem content_length (mem : Mem) (ids : List Nat) : (content mem ids).length = total mem ids := by
  induction ids with
  | nil => rfl
  | cons id ids ih =>
    show (bytesOf mem id ++ content mem ids).length = _
    rw [List.length_append, bytesOf_length, ih]
    rfl

theorem bytesOf_piece (mem : Mem) (id ofs nb : Nat) :
    ((bytesOf mem id).drop ofs).take nb = pieceBytes mem ⟨id, ofs, min nb ((mem.bufs id).len - ofs)⟩ := by
  apply List.ext_getElem
  · simp [bytesOf, pieceBytes]
  · intro place _ _
    simp [bytesOf, pieceBytes, Piece.byte, Piece.start, Ptr.add, Nat.add_assoc]

-- The range of a chain that a plan covers.
theorem plan_content (mem : Mem) (ids : List Nat) (ofs nb : Nat) (within : ∀ id, ids.head? = some id → ofs ≤ (mem.bufs id).len) :
    ((content mem ids).drop ofs).take nb = (plan mem ids ofs nb).flatMap (pieceBytes mem) := by
  induction ids generalizing ofs nb with
  | nil => simp [content, plan]
  | cons id ids ih =>
    have inside := within id rfl
    have rest := ih 0 (nb - ((mem.bufs id).len - ofs)) (fun _ _ => Nat.zero_le _)
    have left : nb - min nb ((mem.bufs id).len - ofs) = nb - ((mem.bufs id).len - ofs) := by omega
    have shorter : ofs ≤ (bytesOf mem id).length := by rw [bytesOf_length]; exact inside
    unfold plan
    split_ifs with empty
    · simp [empty]
    · rw [List.flatMap_cons, ← bytesOf_piece, left, ← rest]
      show ((bytesOf mem id ++ content mem ids).drop ofs).take nb = _
      rw [List.drop_append_of_le_length shorter, List.take_append, List.length_drop, bytesOf_length, List.drop_zero]

theorem skipped_content (mem : Mem) (ids : List Nat) (ofs : Nat) :
    (content mem ids).drop ofs = (content mem (skipped mem ids ofs).1).drop (skipped mem ids ofs).2 := by
  induction ids generalizing ofs with
  | nil => rfl
  | cons id ids ih =>
    unfold skipped
    split_ifs with past
    · rw [← ih]
      show (bytesOf mem id ++ content mem ids).drop ofs = _
      rw [List.drop_append, bytesOf_length, List.drop_eq_nil_of_le (by rw [bytesOf_length]; exact past.2), List.nil_append]
    · rfl

-- The bytes past what kmemcpy reaches are those that the new mbuf held before.
def Lucky (mem : Mem) (piece : Piece) (mb : Nat) : Prop := isext (mem.bufs piece.src) = true ∨
  ∀ ofs, reach piece.len ≤ ofs → ofs < piece.len → mem.bytes.byte (.mbuf mb) ofs = piece.byte mem ofs

theorem copied_bytes (mem last : Mem) (hi : Option Nat) (pieces : List Piece) (piece : Piece) (mb : Nat) (result : Result mem last hi pieces)
    (sound : Sound mem piece.src) (copied : Copied mem last piece mb) : bytesOf last mb = pieceBytes mem piece ↔ Lucky mem piece mb := by
  have same : bytesOf last mb = pieceBytes mem piece ↔
      ∀ ofs < piece.len, last.bytes.byte (last.bufs mb).data.region ((last.bufs mb).data.ofs + ofs) = piece.byte mem ofs := by
    unfold bytesOf pieceBytes
    rw [copied.len, List.map_inj_left]
    simp only [List.mem_range]
  rw [same]
  unfold Lucky
  cases ext : isext (mem.bufs piece.src) with
  | true =>
    obtain ⟨-, data, -⟩ := copied.shared ext
    refine ⟨fun _ => Or.inl rfl, fun _ ofs _ => ?_⟩
    rw [data]
    exact congrFun (result.bytes _ fun id old _ => sound_apart mem piece.src id sound old) _
  | false =>
    obtain ⟨-, data, filled⟩ := copied.inline ext
    rw [data]
    have read : ∀ ofs < piece.len, last.bytes.byte (mbdata mb).region ((mbdata mb).ofs + ofs) =
        if ofs < reach piece.len then piece.byte mem ofs else mem.bytes.byte (.mbuf mb) ofs := fun ofs early => by
      have place : (mbdata mb).ofs + ofs = ofs := Nat.zero_add ofs
      rw [place]
      exact filled ofs early
    constructor
    · intro all
      refine Or.inr fun ofs far early => ?_
      have here := all ofs early
      rwa [read ofs early, if_neg (Nat.not_lt.mpr far)] at here
    · rintro (shared | held) ofs early
      · cases shared
      · rw [read ofs early]
        split_ifs with near
        · rfl
        · exact held ofs (Nat.not_lt.mp near) early

theorem flatMap_same (f : Nat → List UInt8) (g : Piece → List UInt8) (first : Nat) (pieces : List Piece)
    (lengths : ∀ place (inside : place < pieces.length), (f (first + place)).length = (g (pieces.get ⟨place, inside⟩)).length) :
    (List.range' first pieces.length).flatMap f = pieces.flatMap g ↔
      ∀ place (inside : place < pieces.length), f (first + place) = g (pieces.get ⟨place, inside⟩) := by
  induction pieces generalizing first with
  | nil => simp
  | cons piece pieces ih =>
    have shift : ∀ place, first + 1 + place = first + (place + 1) := fun place => by omega
    have rest := ih (first + 1) fun place inside => by
      rw [shift]
      exact lengths (place + 1) (Nat.succ_lt_succ inside)
    have split : (List.range' first (piece :: pieces).length).flatMap f = f first ++ (List.range' (first + 1) pieces.length).flatMap f := by
      rw [List.length_cons, List.range'_succ, List.flatMap_cons]
    rw [split, List.flatMap_cons]
    constructor
    · intro same place inside
      obtain ⟨head, tail⟩ := List.append_inj same (lengths 0 (Nat.succ_pos _))
      cases place with
      | zero => exact head
      | succ place =>
        have later := rest.mp tail place (Nat.lt_of_succ_lt_succ inside)
        rwa [shift] at later
    · intro each
      have head : f first = g piece := each 0 (Nat.succ_pos _)
      rw [head, rest.mpr fun place inside => by rw [shift]; exact each (place + 1) (Nat.succ_lt_succ inside)]

def refers (mem : Mem) (buf id : Nat) : Bool := isext (mem.bufs id) && decide ((mem.bufs id).data.region = .ext buf)

-- Of the mbufs of a chain without repetition, one is the source of a piece.
theorem source_once (mem : Mem) (ids : List Nat) (buf src : Nat) (nodup : ids.Nodup) (member : src ∈ ids) :
    ((ids.filter (refers mem buf)).map (fun id => if src = id then (1 : Int) else 0)).sum = if refers mem buf src then 1 else 0 := by
  have absent : ∀ others : List Nat, src ∉ others → ((others.filter (refers mem buf)).map (fun id => if src = id then (1 : Int) else 0)).sum = 0 := by
    intro others outside
    refine List.sum_eq_zero fun value inside => ?_
    obtain ⟨id, kept, rfl⟩ := List.mem_map.mp inside
    rw [if_neg]
    rintro rfl
    exact outside (List.mem_filter.mp kept).1
  induction ids with
  | nil => cases member
  | cons id ids ih =>
    obtain ⟨outside, nodup⟩ := List.nodup_cons.mp nodup
    rw [List.filter_cons]
    rcases List.mem_cons.mp member with rfl | later
    · by_cases refer : refers mem buf src = true
      · rw [if_pos refer, if_pos refer, List.map_cons, List.sum_cons, absent ids outside, if_pos rfl]
        rfl
      · rw [if_neg refer, if_neg refer, absent ids outside]
    · have other : src ≠ id := fun same => outside (same ▸ later)
      rw [← ih nodup later]
      by_cases refer : refers mem buf id = true
      · rw [if_pos refer, List.map_cons, List.sum_cons, if_neg other, Int.zero_add]
      · rw [if_neg refer]

theorem refers_ext (mem : Mem) (buf id : Nat) (refer : refers mem buf id = true) : isext (mem.bufs id) = true := by
  unfold refers at refer
  exact (Bool.and_eq_true_iff.mp refer).1

theorem sharings_sum (mem : Mem) (ids : List Nat) (buf : Nat) (pieces : List Piece) (nodup : ids.Nodup) (sources : ∀ piece ∈ pieces, piece.src ∈ ids) :
    ((ids.filter (refers mem buf)).map (fun id => (sharings mem pieces id : Int))).sum = (pieces.countP (fun piece => refers mem buf piece.src) : Int) := by
  induction pieces with
  | nil => simp [sharings]
  | cons piece pieces ih =>
    have rest := ih fun other member => sources other (List.mem_cons_of_mem _ member)
    have split : ∀ id ∈ ids.filter (refers mem buf), (sharings mem (piece :: pieces) id : Int) =
        (sharings mem pieces id : Int) + if piece.src = id then (1 : Int) else 0 := by
      intro id member
      have ext := refers_ext mem buf id (List.mem_filter.mp member).2
      unfold sharings
      rw [List.countP_cons, ext]
      by_cases same : piece.src = id <;> simp [same]
    rw [List.map_congr_left split, List.sum_map_add, rest, source_once mem ids buf piece.src nodup (sources piece List.mem_cons_self), List.countP_cons]
    split_ifs <;> simp

theorem refers_copied (mem last : Mem) (piece : Piece) (buf mb : Nat) (copied : Copied mem last piece mb) :
    refers last buf mb = refers mem buf piece.src := by
  unfold refers
  cases ext : isext (mem.bufs piece.src) with
  | true =>
    obtain ⟨flags, data, -⟩ := copied.shared ext
    rw [flags, data]
    rfl
  | false =>
    rw [(copied.inline ext).1]
    rfl

theorem range_countP (f : Nat → Bool) (g : Piece → Bool) (first : Nat) (pieces : List Piece)
    (same : ∀ place (inside : place < pieces.length), f (first + place) = g (pieces.get ⟨place, inside⟩)) :
    (List.range' first pieces.length).countP f = pieces.countP g := by
  induction pieces generalizing first with
  | nil => rfl
  | cons piece pieces ih =>
    have shift : ∀ place, first + 1 + place = first + (place + 1) := fun place => by omega
    have head : f first = g piece := same 0 (Nat.succ_pos _)
    rw [List.length_cons, List.range'_succ, List.countP_cons, List.countP_cons, head, ih (first + 1) fun place inside => by
      rw [shift]
      exact same (place + 1) (Nat.succ_lt_succ inside)]

structure WellFormed (mem : Mem) (buf : Nat) (ids : List Nat) : Prop where
  chained : Chained mem (some buf) ids
  nodup : ids.Nodup
  inlines : Inlines mem

def InRange (mem : Mem) (ids : List Nat) (ofs : Nat) (nb : Int) : Prop :=
  nb = mbufcopyall ∧ ofs ≤ total mem ids ∨ 0 ≤ nb ∧ ofs + nb.toNat ≤ total mem ids

def wanted (mem : Mem) (ids : List Nat) (ofs : Nat) (nb : Int) : List UInt8 :=
  if nb = mbufcopyall then (content mem ids).drop ofs else ((content mem ids).drop ofs).take nb.toNat

structure ChainCopied (mem last : Mem) (buf : Nat) (ids new : List Nat) (top : Option Nat) (ofs : Nat) (nb : Int) : Prop where
  chain : Chains.Seg (fun id => (last.bufs id).next) top new none
  copy : content last new = wanted mem ids ofs nb
  source : Chains.Seg (fun id => (last.bufs id).next) (some buf) ids none
  unchanged : content last ids = content mem ids
  counted : ∀ ext, ((ids.filter (refers mem ext)).map (fun id => (last.bufs id).ext.nref - (mem.bufs id).ext.nref)).sum =
    (new.countP (refers last ext) : Int)

def CopiesChain (mem : Mem) (buf : Nat) (ids : List Nat) (ofs : Nat) (nb : Int) : Prop :=
  ∃ fuel last top new, memcpychain fuel mem buf ofs nb = some (last, top) ∧ ChainCopied mem last buf ids new top ofs nb

-- A packet and its header, copied in both ways.
def PacketsAgree (mem : Mem) (buf : Nat) : Prop := ∃ fuel whole part packet chain ids others,
  memcpypkt fuel mem buf = some (whole, some packet) ∧ memcpychain fuel mem buf 0 mbufcopyall = some (part, some chain) ∧
    Chains.Seg (fun id => (whole.bufs id).next) (some packet) ids none ∧ Chains.Seg (fun id => (part.bufs id).next) (some chain) others none ∧
    content whole ids = content part others ∧ (whole.bufs packet).pkt = (part.bufs chain).pkt

structure Copies (mem : Mem) (buf : Nat) (ids : List Nat) (ofs : Nat) (nb : Int) : Prop where
  copied : CopiesChain mem buf ids ofs nb
  packets : ispkthdr (mem.bufs buf) = true → PacketsAgree mem buf

def pieces (mem : Mem) (ids : List Nat) (ofs : Nat) (nb : Int) : List Piece := plan mem (skipped mem ids ofs).1 (skipped mem ids ofs).2 nb.toNat

-- An inline piece is empty, or it has 64 bytes and kmemcpy stays in the mbuf and
-- leaves out no byte that the new mbuf did not hold by chance.
def PieceCopies (mem : Mem) (piece : Piece) (mb : Nat) : Prop := isext (mem.bufs piece.src) = true ∨ piece.len = 0 ∨
  64 ≤ piece.len ∧ (piece.start mem).ofs + reach piece.len ≤ mbufdatalen ∧
    ∀ ofs, reach piece.len ≤ ofs → ofs < piece.len → mem.bytes.byte (.mbuf mb) ofs = piece.byte mem ofs

def EachCopies (mem : Mem) (ids : List Nat) (ofs : Nat) (nb : Int) : Prop :=
  ∀ place (inside : place < (pieces mem ids ofs nb).length), PieceCopies mem ((pieces mem ids ofs nb).get ⟨place, inside⟩) (mem.fresh + place)

structure Copyable (mem : Mem) (buf : Nat) (ids : List Nat) (ofs : Nat) (nb : Int) : Prop where
  plain : ispkthdr (mem.bufs buf) = false
  counted : nb = mbufcopyall → total mem ids ≤ ofs
  each : EachCopies mem ids ofs nb

theorem pieceCopies_iff (mem : Mem) (piece : Piece) (mb : Nat) : PieceCopies mem piece mb ↔ InBounds mem piece ∧ Lucky mem piece mb := by
  unfold PieceCopies InBounds Lucky
  constructor
  · rintro (ext | empty | ⟨long, fits, lucky⟩)
    · exact ⟨Or.inl ext, Or.inl ext⟩
    · exact ⟨Or.inr (Or.inl empty), Or.inr fun ofs _ early => by omega⟩
    · exact ⟨Or.inr (Or.inr ⟨long, fits⟩), Or.inr lucky⟩
  · rintro ⟨ext | empty | ⟨long, fits⟩, lucky⟩
    · exact Or.inl ext
    · exact Or.inr (Or.inl empty)
    · exact lucky.imp_right fun held => Or.inr ⟨long, fits, held⟩

-- The loop does not run for a length of minus one.
theorem copyall_null (fuel : Nat) (mem : Mem) (buf ofs : Nat) (result : Mem × Option Nat)
    (done : memcpychain fuel mem buf ofs mbufcopyall = some result) : result = (mem, none) := by
  obtain ⟨place, -, loop⟩ := Option.bind_eq_some_iff.mp done
  cases fuel with
  | zero => cases loop
  | succ fuel =>
    cases loop
    rfl

theorem packets_differ (mem : Mem) (buf : Nat) : ¬PacketsAgree mem buf := by
  rintro ⟨fuel, whole, part, packet, chain, ids, others, -, copied, -⟩
  cases copyall_null fuel mem buf 0 _ copied

theorem seg_unique (mem : Mem) (start : Option Nat) (first second : List Nat) (one : Chains.Seg (fun id => (mem.bufs id).next) start first none)
    (two : Chains.Seg (fun id => (mem.bufs id).next) start second none) : first = second := by
  have left := Chains.follow_seg _ (max first.length second.length) start first one (Nat.le_max_left _ _)
  have right := Chains.follow_seg _ (max first.length second.length) start second two (Nat.le_max_right _ _)
  exact left.symm.trans right

-- No packet header is copied with the bytes.
def Headless (mem : Mem) (buf ofs : Nat) : Prop := (decide (ofs = 0) && ispkthdr (mem.bufs buf)) = false

theorem plain_unfold (fuel : Nat) (mem : Mem) (buf ofs : Nat) (nb : Int) (plain : Headless mem buf ofs) :
    memcpychain fuel mem buf ofs nb =
      (skipLoop fuel mem (some buf) ofs).bind (fun place => copyLoop fuel mem false ofs place.1 place.2 nb none none) := by
  unfold memcpychain
  rw [plain]

theorem plain_result (fuel : Nat) (mem last : Mem) (buf ofs : Nat) (top : Option Nat) (ids : List Nat) (nb : Int) (well : WellFormed mem buf ids)
    (plain : Headless mem buf ofs) (done : memcpychain fuel mem buf ofs nb = some (last, top)) :
    Result mem last none (pieces mem ids ofs nb) ∧ (∀ piece ∈ pieces mem ids ofs nb, InBounds mem piece) ∧
      Chains.Seg (fun id => (last.bufs id).next) top (List.range' mem.fresh (pieces mem ids ofs nb).length) none := by
  rw [plain_unfold fuel mem buf ofs nb plain] at done
  obtain ⟨place, skip, loop⟩ := Option.bind_eq_some_iff.mp done
  obtain ⟨chained, level⟩ := skipLoop_place fuel mem (some buf) ids ofs place well.chained skip
  rw [level] at loop
  obtain ⟨result, fits, tops⟩ := copyLoop_result fuel ofs _ mem place.1 none none _ nb _ chained well.inlines (fun _ none_hi => by cases none_hi)
    (fun _ none_hi => by cases none_hi) (skipped_within mem ids ofs) loop
  refine ⟨result, fits, ?_⟩
  have seg := result.seg
  rw [show top = _ from tops]
  exact seg

theorem skipped_subset (mem : Mem) (ids : List Nat) (ofs id : Nat) (member : id ∈ (skipped mem ids ofs).1) : id ∈ ids := by
  induction ids generalizing ofs with
  | nil => exact member
  | cons other ids ih =>
    unfold skipped at member
    split_ifs at member
    · exact List.mem_cons_of_mem _ (ih _ member)
    · exact member

theorem pieces_sources (mem : Mem) (ids : List Nat) (ofs : Nat) (nb : Int) (piece : Piece) (member : piece ∈ pieces mem ids ofs nb) : piece.src ∈ ids :=
  skipped_subset mem ids ofs _ (plan_sources mem _ _ _ piece member)

theorem source_kept (mem last : Mem) (start : Option Nat) (ids : List Nat) (copies : List Piece) (chained : Chained mem start ids)
    (result : Result mem last none copies) : Chains.Seg (fun id => (last.bufs id).next) start ids none ∧ content last ids = content mem ids := by
  have after := chained_step mem last none copies start ids result chained fun _ none_hi => by cases none_hi
  refine ⟨after.seg, ?_⟩
  have same : ∀ id ∈ ids, bytesOf last id = bytesOf mem id := by
    intro id member
    have sound := chained.sound id member
    have kept := result.kept id sound.old
    unfold bytesOf
    rw [kept.data, kept.len, result.bytes _ fun mb old _ => sound_apart mem id mb sound old]
  unfold content
  rw [List.flatMap_def, List.flatMap_def, List.map_congr_left same]

theorem counts_raised (mem last : Mem) (ids : List Nat) (copies : List Piece) (ext : Nat) (nodup : ids.Nodup) (old : ∀ id ∈ ids, id < mem.fresh)
    (sources : ∀ piece ∈ copies, piece.src ∈ ids) (result : Result mem last none copies) :
    ((ids.filter (refers mem ext)).map (fun id => (last.bufs id).ext.nref - (mem.bufs id).ext.nref)).sum =
      ((List.range' mem.fresh copies.length).countP (refers last ext) : Int) := by
  have raised : ∀ id ∈ ids.filter (refers mem ext), (last.bufs id).ext.nref - (mem.bufs id).ext.nref = (sharings mem copies id : Int) := by
    intro id member
    rw [result.refs id (old id (List.mem_filter.mp member).1)]
    omega
  rw [List.map_congr_left raised, sharings_sum mem ids ext copies nodup sources]
  rw [range_countP (refers last ext) (fun piece => refers mem ext piece.src) mem.fresh copies fun place inside =>
    refers_copied mem last _ ext _ (result.made place inside)]

theorem new_content (mem last : Mem) (ids : List Nat) (copies : List Piece) (sound : ∀ id ∈ ids, Sound mem id)
    (sources : ∀ piece ∈ copies, piece.src ∈ ids) (result : Result mem last none copies) :
    content last (List.range' mem.fresh copies.length) = copies.flatMap (pieceBytes mem) ↔
      ∀ place (inside : place < copies.length), Lucky mem (copies.get ⟨place, inside⟩) (mem.fresh + place) := by
  have lengths : ∀ place (inside : place < copies.length),
      (bytesOf last (mem.fresh + place)).length = (pieceBytes mem (copies.get ⟨place, inside⟩)).length := fun place inside => by
    rw [bytesOf_length, (result.made place inside).len]
    simp [pieceBytes]
  refine (flatMap_same (bytesOf last) (pieceBytes mem) mem.fresh copies lengths).trans ?_
  refine forall_congr' fun place => forall_congr' fun inside => ?_
  exact copied_bytes mem last none copies _ _ result (sound _ (sources _ (List.get_mem copies ⟨place, inside⟩))) (result.made place inside)

-- Where the loop runs, the bytes that are wanted are those of the pieces.
theorem pieces_content (mem : Mem) (ids : List Nat) (ofs : Nat) (nb : Int) (counted : nb = mbufcopyall → total mem ids ≤ ofs) :
    wanted mem ids ofs nb = (pieces mem ids ofs nb).flatMap (pieceBytes mem) := by
  unfold wanted pieces
  rw [← plan_content mem _ _ _ (fun id first => skipped_within mem ids ofs id first), ← skipped_content]
  split_ifs with all
  · rw [all, List.drop_eq_nil_of_le (by rw [content_length]; exact counted all)]
    rfl
  · rfl

theorem chain_only (mem : Mem) (buf ofs : Nat) (ids : List Nat) (nb : Int) (well : WellFormed mem buf ids) (plain : Headless mem buf ofs)
    (copies : CopiesChain mem buf ids ofs nb) : (nb = mbufcopyall → total mem ids ≤ ofs) ∧ EachCopies mem ids ofs nb := by
  obtain ⟨fuel, last, top, new, done, copied⟩ := copies
  have counted : nb = mbufcopyall → total mem ids ≤ ofs := by
    rintro rfl
    cases copyall_null fuel mem buf ofs _ done
    have bare : new = [] := seg_unique mem none new [] copied.chain rfl
    have copy := copied.copy
    rw [bare, wanted, if_pos rfl] at copy
    have left : total mem ids - ofs = 0 := by
      rw [← content_length, ← List.length_drop, ← copy]
      rfl
    exact Nat.le_of_sub_eq_zero left
  obtain ⟨result, fits, seg⟩ := plain_result fuel mem last buf ofs top ids nb well plain done
  have same := seg_unique last top _ _ copied.chain seg
  have copy := copied.copy
  rw [same, pieces_content mem ids ofs nb counted] at copy
  have lucky := (new_content mem last ids _ well.chained.sound (pieces_sources mem ids ofs nb) result).mp copy
  exact ⟨counted, fun place inside => (pieceCopies_iff mem _ _).mpr ⟨fits _ (List.get_mem _ ⟨place, inside⟩), lucky place inside⟩⟩

theorem chain_when (mem : Mem) (buf ofs : Nat) (ids : List Nat) (nb : Int) (well : WellFormed mem buf ids) (plain : Headless mem buf ofs)
    (range : InRange mem ids ofs nb) (counted : nb = mbufcopyall → total mem ids ≤ ofs) (each : EachCopies mem ids ofs nb) :
    CopiesChain mem buf ids ofs nb := by
  have inside : ofs ≤ total mem ids := by
    rcases range with ⟨-, inside⟩ | ⟨-, inside⟩ <;> omega
  have fits : ∀ piece ∈ pieces mem ids ofs nb, InBounds mem piece := by
    intro piece member
    obtain ⟨place, inside, rfl⟩ := List.mem_iff_getElem.mp member
    exact ((pieceCopies_iff mem _ _).mp (each place inside)).1
  obtain ⟨place, skip⟩ := skipLoop_returns (ids.length + 1) mem (some buf) ids ofs well.chained inside (Nat.lt_succ_self _)
  obtain ⟨chained, level⟩ := skipLoop_place _ mem (some buf) ids ofs place well.chained skip
  obtain ⟨⟨last, top⟩, loop⟩ := copyLoop_returns (ids.length + 1) ofs (skipped mem ids ofs).2 mem place.1 none none (skipped mem ids ofs).1 nb chained
    well.inlines (fun _ none_hi => by cases none_hi) (fun _ none_hi => by cases none_hi) (skipped_within mem ids ofs) fits
    (Nat.lt_succ_of_le (skipped_length mem ids ofs))
  have done : memcpychain (ids.length + 1) mem buf ofs nb = some (last, top) := by
    rw [plain_unfold _ mem buf ofs nb plain, skip, Option.bind_some, level]
    exact loop
  obtain ⟨result, -, seg⟩ := plain_result _ mem last buf ofs top ids nb well plain done
  have sources := pieces_sources mem ids ofs nb
  obtain ⟨source, unchanged⟩ := source_kept mem last (some buf) ids _ well.chained result
  refine ⟨_, last, top, _, done, seg, ?_, source, unchanged, fun ext => ?_⟩
  · rw [pieces_content mem ids ofs nb counted]
    refine (new_content mem last ids _ well.chained.sound sources result).mpr fun place inside => ?_
    exact ((pieceCopies_iff mem _ _).mp (each place inside)).2
  · exact counts_raised mem last ids _ ext well.nodup (fun id member => (well.chained.sound id member).old) sources result

theorem copies_plain (mem : Mem) (buf ofs : Nat) (ids : List Nat) (nb : Int) (copies : Copies mem buf ids ofs nb) : ispkthdr (mem.bufs buf) = false := by
  cases packet : ispkthdr (mem.bufs buf) with
  | false => rfl
  | true => exact absurd (copies.packets packet) (packets_differ mem buf)

theorem plain_headless (mem : Mem) (buf ofs : Nat) (plain : ispkthdr (mem.bufs buf) = false) : Headless mem buf ofs := by
  unfold Headless
  rw [plain, Bool.and_false]

def sampleSize : Region → Nat
  | .mbuf _ => mbufdatalen
  | .ext _ => 5

-- An inline mbuf of 64 bytes, and an external one of five behind it.
def sample : Mem where
  bufs id := if id = 0 then ⟨mbdata 0, 64, 1, 0, some 1, none, ⟨0, 0, none, 0, 0, none⟩, ⟨mbdata 0, 0, 0, 0, 0, 0⟩⟩
    else ⟨⟨.ext 0, 0⟩, 5, 1, mbufextbit, none, none, ⟨0, 0, none, 0, 0, none⟩, ⟨⟨.ext 0, 0⟩, 1, 5, 0, 0, 2⟩⟩
  bytes := ⟨fun _ ofs => UInt8.ofNat ofs, sampleSize⟩
  fresh := 2

theorem sample_wellFormed : WellFormed sample 0 [0, 1] := by
  refine ⟨⟨⟨rfl, rfl, rfl⟩, fun id member => ?_⟩, by decide, fun _ => rfl⟩
  rcases List.mem_cons.mp member with rfl | later
  · exact ⟨by decide, fun _ => rfl, fun ext => absurd ext (by decide), by decide⟩
  · cases List.mem_singleton.mp later
    exact ⟨by decide, fun ext => absurd ext (by decide), fun _ => ⟨0, rfl⟩, by decide⟩

theorem memcpychain_copies (mem : Mem) (buf ofs : Nat) (ids : List Nat) (nb : Int) (well : WellFormed mem buf ids) (range : InRange mem ids ofs nb) :
    Copies mem buf ids ofs nb ↔ Copyable mem buf ids ofs nb := by
  constructor
  · intro copies
    have plain := copies_plain mem buf ofs ids nb copies
    obtain ⟨counted, each⟩ := chain_only mem buf ofs ids nb well (plain_headless mem buf ofs plain) copies.copied
    exact ⟨plain, counted, each⟩
  · intro copyable
    exact ⟨chain_when mem buf ofs ids nb well (plain_headless mem buf ofs copyable.plain) range copyable.counted copyable.each,
      fun packet => absurd (packet.symm.trans copyable.plain) (by decide)⟩

theorem memcpychain_copies_sample : Copies sample 0 [0, 1] 3 66 ↔ Copyable sample 0 [0, 1] 3 66 :=
  memcpychain_copies sample 0 3 [0, 1] 66 sample_wellFormed (Or.inr (by decide))

theorem memcpychain_fails : ¬∀ (mem : Mem) (buf ofs : Nat) (ids : List Nat) (nb : Int),
    WellFormed mem buf ids → InRange mem ids ofs nb → Copies mem buf ids ofs nb := by
  intro every
  have copies := every sample 0 0 [0, 1] mbufcopyall sample_wellFormed (Or.inl ⟨rfl, Nat.zero_le _⟩)
  have empty := (chain_only sample 0 0 [0, 1] mbufcopyall sample_wellFormed (plain_headless sample 0 0 rfl) copies.copied).1 rfl
  exact absurd empty (by decide)

end OsZero.Mbuf

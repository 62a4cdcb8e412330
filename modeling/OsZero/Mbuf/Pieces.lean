import OsZero.Lib.Chains
import OsZero.Mbuf.Chain

set_option autoImplicit false

namespace OsZero.Mbuf

-- What one mbuf of the copy is to hold.
structure Piece where
  src : Nat
  ofs : Nat
  len : Nat
  deriving DecidableEq

def plan (mem : Mem) : List Nat → Nat → Nat → List Piece
  | [], _, _ => []
  | id :: ids, ofs, nb =>
    if nb = 0 then [] else ⟨id, ofs, min nb ((mem.bufs id).len - ofs)⟩ :: plan mem ids 0 (nb - min nb ((mem.bufs id).len - ofs))

def skipped (mem : Mem) : List Nat → Nat → List Nat × Nat
  | [], ofs => ([], ofs)
  | id :: ids, ofs => if 0 < ofs ∧ (mem.bufs id).len ≤ ofs then skipped mem ids (ofs - (mem.bufs id).len) else (id :: ids, ofs)

def Piece.start (mem : Mem) (piece : Piece) : Adr := (mem.bufs piece.src).data.add piece.ofs

def Piece.byte (mem : Mem) (piece : Piece) (ofs : Nat) : UInt8 :=
  mem.bytes.byte (piece.start mem).region ((piece.start mem).ofs + ofs)

def InBounds (mem : Mem) (piece : Piece) : Prop := isext (mem.bufs piece.src) = true ∨ piece.len = 0 ∨
  64 ≤ piece.len ∧ (piece.start mem).ofs + reach piece.len ≤ mbufdatalen

-- The mbuf mb of the later memory is the copy of a piece of the earlier one.
structure Copied (mem last : Mem) (piece : Piece) (mb : Nat) : Prop where
  len : (last.bufs mb).len = piece.len
  shared : isext (mem.bufs piece.src) = true →
    isext (last.bufs mb) = true ∧ (last.bufs mb).data = piece.start mem ∧ (last.bufs mb).ext.buf = (mem.bufs piece.src).ext.buf
  inline : isext (mem.bufs piece.src) = false → isext (last.bufs mb) = false ∧ (last.bufs mb).data = mbdata mb ∧ ∀ ofs < piece.len,
    last.bytes.byte (.mbuf mb) ofs = if ofs < reach piece.len then piece.byte mem ofs else mem.bytes.byte (.mbuf mb) ofs

-- What the code reads of an mbuf that it does not own.
structure Kept (before after : Membuf) : Prop where
  data : after.data = before.data
  len : after.len = before.len
  flg : after.flg = before.flg
  buf : after.ext.buf = before.ext.buf

def sharings (mem : Mem) (pieces : List Piece) (id : Nat) : Nat := pieces.countP (fun piece => decide (piece.src = id) && isext (mem.bufs id))

structure Result (mem last : Mem) (hi : Option Nat) (pieces : List Piece) : Prop where
  fresh : last.fresh = mem.fresh + pieces.length
  made : ∀ place (inside : place < pieces.length), Copied mem last (pieces.get ⟨place, inside⟩) (mem.fresh + place)
  seg : Chains.Seg (fun id => (last.bufs id).next) (if pieces = [] then none else some mem.fresh) (List.range' mem.fresh pieces.length) none
  links : ∀ id < mem.fresh, (last.bufs id).next = if hi = some id ∧ pieces ≠ [] then some mem.fresh else (mem.bufs id).next
  kept : ∀ id < mem.fresh, Kept (mem.bufs id) (last.bufs id)
  refs : ∀ id < mem.fresh, (last.bufs id).ext.nref = (mem.bufs id).ext.nref + sharings mem pieces id
  size : last.bytes.size = mem.bytes.size
  bytes : ∀ region, (∀ mb, mem.fresh ≤ mb → mb < mem.fresh + pieces.length → region ≠ .mbuf mb) → last.bytes.byte region = mem.bytes.byte region

def Inlines (mem : Mem) : Prop := ∀ mb, mem.bytes.size (.mbuf mb) = mbufdatalen

-- An mbuf whose data lies in its own bytes, or in an external buffer.
structure Sound (mem : Mem) (id : Nat) : Prop where
  old : id < mem.fresh
  inline : isext (mem.bufs id) = false → (mem.bufs id).data.region = .mbuf id
  shared : isext (mem.bufs id) = true → ∃ buf, (mem.bufs id).data.region = .ext buf
  fits : Fits mem.bytes (mem.bufs id).data (mem.bufs id).len

theorem sound_elsewhere (mem : Mem) (id last : Nat) (sound : Sound mem id) (other : id ≠ last) : (mem.bufs id).data.region ≠ .mbuf last := by
  cases ext : isext (mem.bufs id) with
  | true =>
      obtain ⟨buf, region⟩ := sound.shared ext
      rw [region]
      simp
  | false =>
      rw [sound.inline ext]
      intro same
      cases same
      exact other rfl

theorem sound_apart (mem : Mem) (id mb : Nat) (sound : Sound mem id) (new : mem.fresh ≤ mb) : (mem.bufs id).data.region ≠ .mbuf mb :=
  sound_elsewhere mem id mb sound (Nat.ne_of_lt (Nat.lt_of_lt_of_le sound.old new))

theorem isext_or (buf : Membuf) : isext { buf with flg := buf.flg ||| mbufextbit } = true := by
  unfold isext mbufextbit
  rw [decide_eq_true_iff]
  intro zero
  have bit := congrArg (fun word : BitVec 64 => word.getLsbD 0) zero
  simp at bit

def linkedMem (mem : Mem) (hi top : Option Nat) (type : Int) (len : Nat) : Mem :=
  (setHi (memgetbuf mem type).1 hi top mem.fresh).1.set mem.fresh (fun copy => { copy with len := len })

theorem linked_new (mem : Mem) (hi top : Option Nat) (type : Int) (len : Nat) (below : ∀ last, hi = some last → last < mem.fresh) :
    (linkedMem mem hi top type len).bufs mem.fresh =
      { mem.bufs mem.fresh with data := mbdata mem.fresh, len := len, type := type, flg := 0, next := none, nextpkt := none } := by
  cases hi with
  | none => simp [linkedMem, setHi, memgetbuf, Mem.set]
  | some last =>
    have other : mem.fresh ≠ last := Nat.ne_of_gt (below last rfl)
    simp [linkedMem, setHi, memgetbuf, Mem.set, Function.update_of_ne other]

theorem linked_old (mem : Mem) (hi top : Option Nat) (type : Int) (len id : Nat) (old : id < mem.fresh) :
    (linkedMem mem hi top type len).bufs id = if hi = some id then { mem.bufs id with next := some mem.fresh } else mem.bufs id := by
  have different : id ≠ mem.fresh := Nat.ne_of_lt old
  cases hi with
  | none => simp [linkedMem, setHi, memgetbuf, Mem.set, Function.update_of_ne different]
  | some last =>
    by_cases same : last = id
    · subst same
      simp [linkedMem, setHi, memgetbuf, Mem.set, Function.update_of_ne different]
    · have apart : id ≠ last := fun back => same back.symm
      simp [linkedMem, setHi, memgetbuf, Mem.set, Function.update_of_ne different, Function.update_of_ne apart, same]

theorem linked_bytes (mem : Mem) (hi top : Option Nat) (type : Int) (len : Nat) : (linkedMem mem hi top type len).bytes = mem.bytes := by
  cases hi <;> rfl

theorem linked_fresh (mem : Mem) (hi top : Option Nat) (type : Int) (len : Nat) : (linkedMem mem hi top type len).fresh = mem.fresh + 1 := by
  cases hi <;> rfl

theorem linked_kept (mem : Mem) (hi top : Option Nat) (type : Int) (len id : Nat) (old : id < mem.fresh) :
    Kept (mem.bufs id) ((linkedMem mem hi top type len).bufs id) ∧ ((linkedMem mem hi top type len).bufs id).ext = (mem.bufs id).ext := by
  rw [linked_old mem hi top type len id old]
  split_ifs <;> exact ⟨⟨rfl, rfl, rfl, rfl⟩, rfl⟩

theorem copyStep_unfold (mem : Mem) (ofs0 src ofs : Nat) (nb : Int) (hi top : Option Nat) :
    copyStep mem false ofs0 src ofs nb hi top =
      (copybuf (linkedMem mem hi top (mem.bufs src).type (min nb.toNat ((mem.bufs src).len - ofs))) src mem.fresh ofs).map
        (fun next => (next, hi.elim (some mem.fresh) (fun _ => top))) := by
  cases hi <;> rfl

theorem single_seg (last : Mem) (mb : Nat) (bare : (last.bufs mb).next = none) :
    Chains.Seg (fun id => (last.bufs id).next) (some mb) (List.range' mb 1) none := ⟨rfl, bare⟩

theorem sharepkt_new (mem : Mem) (buf mb ofs : Nat) (apart : mb ≠ buf) : (sharepkt mem buf mb ofs).bufs mb =
    { mem.bufs mb with data := (mem.bufs buf).data.add ofs, ext := (mem.bufs buf).ext, flg := (mem.bufs mb).flg ||| mbufextbit } := by
  simp [sharepkt, Mem.set, Function.update_of_ne apart]

theorem sharepkt_old (mem : Mem) (buf mb ofs id : Nat) (different : id ≠ mb) : (sharepkt mem buf mb ofs).bufs id =
    if id = buf then { mem.bufs id with ext := { (mem.bufs id).ext with nref := (mem.bufs id).ext.nref + 1 } } else mem.bufs id := by
  by_cases same : id = buf
  · subst same
    simp [sharepkt, Mem.set, Function.update_of_ne different]
  · simp [sharepkt, Mem.set, Function.update_of_ne different, same]

theorem share_result (mem : Mem) (src ofs len : Nat) (type : Int) (hi top : Option Nat) (sound : Sound mem src)
    (below : ∀ last, hi = some last → last < mem.fresh)
    (ext : isext (mem.bufs src) = true) : Result mem (sharepkt (linkedMem mem hi top type len) src mem.fresh ofs) hi [⟨src, ofs, len⟩] := by
  have back : mem.fresh ≠ src := Nat.ne_of_gt sound.old
  have new := linked_new mem hi top type len below
  have kept := linked_kept mem hi top type len
  have other : ∀ id < mem.fresh, id ≠ mem.fresh := fun id old => Nat.ne_of_lt old
  have made := sharepkt_new (linkedMem mem hi top type len) src mem.fresh ofs back
  have old := fun id early => sharepkt_old (linkedMem mem hi top type len) src mem.fresh ofs id (other id early)
  refine ⟨linked_fresh mem hi top type len, fun place inside => ?_, ?_, fun id early => ?_, fun id early => ?_, fun id early => ?_, ?_, ?_⟩
  · have first : place = 0 := by simpa using inside
    subst first
    have data := (kept src sound.old).1.data
    refine ⟨?_, fun _ => ⟨?_, ?_, ?_⟩, fun bare => ?_⟩
    · rw [Nat.add_zero, made, new]
      rfl
    · rw [Nat.add_zero, made]
      exact isext_or _
    · rw [Nat.add_zero, made]
      simp [data, Piece.start]
    · rw [Nat.add_zero, made]
      simp [(kept src sound.old).2]
    · exact absurd (ext.symm.trans bare) (by decide)
  · refine single_seg _ mem.fresh ?_
    rw [made, new]
  · rw [old id early, linked_old mem hi top type len id early]
    split_ifs <;> simp_all
  · rw [old id early]
    have same := (kept id early).1
    split_ifs
    · exact ⟨same.data, same.len, same.flg, same.buf⟩
    · exact same
  · rw [old id early]
    have same := congrArg Memext.nref (kept id early).2
    by_cases shared : id = src
    · subst shared
      simp [sharings, ext, same]
    · have unshared : ¬src = id := fun back => shared back.symm
      simp [sharings, shared, unshared, same]
  · exact congrArg Bytes.size (linked_bytes mem hi top type len)
  · intro region _
    exact congrFun (congrArg Bytes.byte (linked_bytes mem hi top type len)) region

theorem inline_result (mem : Mem) (bytes : Bytes Region) (src ofs len : Nat) (type : Int) (hi top : Option Nat)
    (below : ∀ last, hi = some last → last < mem.fresh) (ext : isext (mem.bufs src) = false) (size : bytes.size = mem.bytes.size)
    (others : ∀ region, region ≠ .mbuf mem.fresh → bytes.byte region = mem.bytes.byte region)
    (filled : ∀ place < len, bytes.byte (.mbuf mem.fresh) place =
      if place < reach len then Piece.byte mem ⟨src, ofs, len⟩ place else mem.bytes.byte (.mbuf mem.fresh) place) :
    Result mem { linkedMem mem hi top type len with bytes := bytes } hi [⟨src, ofs, len⟩] := by
  have new := linked_new mem hi top type len below
  have kept := linked_kept mem hi top type len
  refine ⟨linked_fresh mem hi top type len, fun place inside => ?_, ?_, fun id early => ?_, fun id early => (kept id early).1, fun id early => ?_, size, ?_⟩
  · have first : place = 0 := by simpa using inside
    subst first
    refine ⟨?_, fun shared => absurd (shared.symm.trans ext) (by decide), fun _ => ⟨?_, ?_, filled⟩⟩
    · rw [Nat.add_zero]
      dsimp only
      rw [new]
      rfl
    · rw [Nat.add_zero]
      dsimp only
      rw [new]
      simp [isext]
    · rw [Nat.add_zero]
      dsimp only
      rw [new]
  · refine single_seg _ mem.fresh ?_
    dsimp only
    rw [new]
  · dsimp only
    rw [linked_old mem hi top type len id early]
    split_ifs <;> simp_all
  · have same := congrArg Memext.nref (kept id early).2
    dsimp only
    rw [same]
    by_cases shared : src = id
    · subst shared
      simp [sharings, ext]
    · simp [sharings, shared]
  · exact fun region apart => others region (apart mem.fresh (Nat.le_refl _) (Nat.lt_succ_self _))

-- The copy of an inline piece: nothing, whole blocks and what they reach, or a fault.
theorem kbcopy_piece (mem : Mem) (src ofs len : Nat) (sound : Sound mem src) (inlines : Inlines mem) (ext : isext (mem.bufs src) = false)
    (within : ofs ≤ (mem.bufs src).len) : kbcopy mem.bytes ((mem.bufs src).data.add ofs) (mbdata mem.fresh) len =
      if len = 0 then some mem.bytes
      else if 64 ≤ len ∧ ((mem.bufs src).data.add ofs).ofs + reach len ≤ mbufdatalen then
        some (blit mem.bytes (mbdata mem.fresh) ((mem.bufs src).data.add ofs) (reach len))
      else none := by
  have region := sound.inline ext
  have apart : ((mem.bufs src).data.add ofs).region ≠ (mbdata mem.fresh).region := sound_apart mem src mem.fresh sound (Nat.le_refl _)
  have room : mem.bytes.size ((mem.bufs src).data.add ofs).region = mbufdatalen := by
    show mem.bytes.size (mem.bufs src).data.region = mbufdatalen
    rw [region]
    exact inlines src
  have destFits : Fits mem.bytes (mbdata mem.fresh) 0 := Nat.zero_le _
  have srcFits : Fits mem.bytes ((mem.bufs src).data.add ofs) 0 := by
    have fits := sound.fits
    unfold Fits Ptr.add at *
    dsimp only
    omega
  unfold kbcopy
  rw [kmemcpy_eq mem.bytes (mbdata mem.fresh) ((mem.bufs src).data.add ofs) len apart destFits srcFits]
  refine if_congr Iff.rfl rfl (if_congr (and_congr Iff.rfl ?_) rfl rfl)
  have dest := inlines mem.fresh
  unfold Fits
  rw [room]
  unfold mbdata
  dsimp only
  rw [dest]
  omega

theorem blit_filled (mem : Mem) (src ofs len place : Nat) :
    (blit mem.bytes (mbdata mem.fresh) ((mem.bufs src).data.add ofs) (reach len)).byte (.mbuf mem.fresh) place =
      if place < reach len then Piece.byte mem ⟨src, ofs, len⟩ place else mem.bytes.byte (.mbuf mem.fresh) place := by
  simp [blit, mbdata, Piece.byte, Piece.start]

theorem copybuf_linked (mem : Mem) (src ofs len : Nat) (type : Int) (hi top : Option Nat) (sound : Sound mem src) (inlines : Inlines mem)
    (below : ∀ last, hi = some last → last < mem.fresh) (within : ofs ≤ (mem.bufs src).len) :
    copybuf (linkedMem mem hi top type len) src mem.fresh ofs =
      if isext (mem.bufs src) then some (sharepkt (linkedMem mem hi top type len) src mem.fresh ofs)
      else (if len = 0 then some mem.bytes
        else if 64 ≤ len ∧ ((mem.bufs src).data.add ofs).ofs + reach len ≤ mbufdatalen then
          some (blit mem.bytes (mbdata mem.fresh) ((mem.bufs src).data.add ofs) (reach len))
        else none).map (fun bytes => { linkedMem mem hi top type len with bytes := bytes }) := by
  have kept := (linked_kept mem hi top type len src sound.old).1
  have flags : isext ((linkedMem mem hi top type len).bufs src) = isext (mem.bufs src) := by
    unfold isext
    rw [kept.flg]
  unfold copybuf
  rw [flags]
  cases ext : isext (mem.bufs src) with
  | true => rfl
  | false =>
    rw [if_neg (by decide), if_neg (by decide), linked_new mem hi top type len below, kept.data, linked_bytes]
    dsimp only
    rw [kbcopy_piece mem src ofs len sound inlines ext within]

theorem copyStep_result (mem : Mem) (next : Mem × Option Nat) (ofs0 src ofs : Nat) (nb : Int) (hi top : Option Nat) (sound : Sound mem src)
    (inlines : Inlines mem) (below : ∀ last, hi = some last → last < mem.fresh) (within : ofs ≤ (mem.bufs src).len)
    (done : copyStep mem false ofs0 src ofs nb hi top = some next) :
    Result mem next.1 hi [⟨src, ofs, min nb.toNat ((mem.bufs src).len - ofs)⟩] ∧
      InBounds mem ⟨src, ofs, min nb.toNat ((mem.bufs src).len - ofs)⟩ ∧ next.2 = hi.elim (some mem.fresh) (fun _ => top) := by
  rw [copyStep_unfold] at done
  generalize min nb.toNat ((mem.bufs src).len - ofs) = len at done ⊢
  obtain ⟨after, copied, rfl⟩ := Option.map_eq_some_iff.mp done
  rw [copybuf_linked mem src ofs len _ hi top sound inlines below within] at copied
  split_ifs at copied with ext empty long
  · cases copied
    exact ⟨share_result mem src ofs len _ hi top sound below ext, Or.inl ext, rfl⟩
  · cases copied
    subst empty
    exact ⟨inline_result mem mem.bytes src ofs 0 _ hi top below (Bool.not_eq_true _ ▸ ext) rfl (fun _ _ => rfl)
      (fun place early => absurd early (Nat.not_lt_zero place)), Or.inr (Or.inl rfl), rfl⟩
  · cases copied
    exact ⟨inline_result mem _ src ofs len _ hi top below (Bool.not_eq_true _ ▸ ext) rfl
      (fun region apart => funext (blit_other mem.bytes _ _ _ region apart)) (fun place _ => blit_filled mem src ofs len place), Or.inr (Or.inr long), rfl⟩
  · cases copied

theorem copyStep_returns (mem : Mem) (ofs0 src ofs : Nat) (nb : Int) (hi top : Option Nat) (sound : Sound mem src)
    (inlines : Inlines mem) (below : ∀ last, hi = some last → last < mem.fresh) (within : ofs ≤ (mem.bufs src).len)
    (fits : InBounds mem ⟨src, ofs, min nb.toNat ((mem.bufs src).len - ofs)⟩) :
    ∃ next, copyStep mem false ofs0 src ofs nb hi top = some next := by
  rw [copyStep_unfold]
  generalize min nb.toNat ((mem.bufs src).len - ofs) = len at fits ⊢
  rw [copybuf_linked mem src ofs len _ hi top sound inlines below within]
  split_ifs with ext empty long
  · exact ⟨_, rfl⟩
  · exact ⟨_, rfl⟩
  · exact ⟨_, rfl⟩
  · rcases fits with shared | none_left | stretch
    · exact absurd shared ext
    · exact absurd none_left empty
    · exact absurd stretch long

theorem kept_trans (first second third : Membuf) (early : Kept first second) (late : Kept second third) : Kept first third :=
  ⟨late.data.trans early.data, late.len.trans early.len, late.flg.trans early.flg, late.buf.trans early.buf⟩

theorem kept_isext (before after : Membuf) (kept : Kept before after) : isext after = isext before := by
  unfold isext
  rw [kept.flg]

theorem kept_start (mem next : Mem) (piece : Piece) (kept : Kept (mem.bufs piece.src) (next.bufs piece.src)) : piece.start next = piece.start mem := by
  unfold Piece.start
  rw [kept.data]

-- A copy made of what an earlier step left as it was is a copy of the first memory.
theorem copied_back (mem next last : Mem) (hi : Option Nat) (first piece : Piece) (mb : Nat) (step : Result mem next hi [first])
    (sound : Sound mem piece.src) (new : next.fresh ≤ mb) (copied : Copied next last piece mb) : Copied mem last piece mb := by
  have kept := step.kept piece.src sound.old
  have start := kept_start mem next piece kept
  have flags := kept_isext _ _ kept
  have fresh : next.fresh = mem.fresh + 1 := step.fresh
  refine ⟨copied.len, fun ext => ?_, fun ext => ?_⟩
  · rw [← start, ← kept.buf]
    exact copied.shared (flags.trans ext)
  · obtain ⟨bare, data, filled⟩ := copied.inline (flags.trans ext)
    refine ⟨bare, data, fun ofs early => (filled ofs early).trans (if_congr Iff.rfl ?_ ?_)⟩
    · unfold Piece.byte
      rw [start]
      exact congrFun (step.bytes _ fun id old _ => sound_apart mem piece.src id sound old) _
    · refine congrFun (step.bytes _ fun id _ young same => ?_) _
      cases same
      rw [List.length_singleton] at young
      omega

theorem result_nil (mem : Mem) (hi : Option Nat) : Result mem mem hi [] := by
  refine ⟨rfl, fun place inside => absurd inside (Nat.not_lt_zero place), rfl, fun id _ => by simp, fun id _ => ⟨rfl, rfl, rfl, rfl⟩, fun id _ => ?_, rfl,
    fun _ _ => rfl⟩
  simp [sharings]

-- One mbuf copied, and then the rest behind it.
theorem result_cons (mem next last : Mem) (hi : Option Nat) (piece : Piece) (pieces : List Piece) (first : Result mem next hi [piece])
    (rest : Result next last (some mem.fresh) pieces) (sources : ∀ other ∈ pieces, Sound mem other.src) : Result mem last hi (piece :: pieces) := by
  have fresh : next.fresh = mem.fresh + 1 := first.fresh
  have older : ∀ id, id < mem.fresh → id < next.fresh := fun id old => by omega
  have young : mem.fresh < next.fresh := by omega
  refine ⟨?_, fun place inside => ?_, ?_, fun id old => ?_, fun id old => ?_, fun id old => ?_, rest.size.trans first.size, fun region apart => ?_⟩
  · rw [rest.fresh, fresh, List.length_cons]
    omega
  · cases place with
    | zero =>
      have made := first.made 0 Nat.one_pos
      have kept := rest.kept mem.fresh young
      refine ⟨kept.len.trans made.len, fun ext => ?_, fun ext => ?_⟩
      · obtain ⟨flags, data, buf⟩ := made.shared ext
        exact ⟨(kept_isext _ _ kept).trans flags, kept.data.trans data, kept.buf.trans buf⟩
      · obtain ⟨bare, data, filled⟩ := made.inline ext
        refine ⟨(kept_isext _ _ kept).trans bare, kept.data.trans data, fun ofs early => ?_⟩
        rw [rest.bytes (.mbuf (mem.fresh + 0)) (fun mb old _ same => by cases same; omega)]
        exact filled ofs early
    | succ place =>
      have inner : place < pieces.length := Nat.lt_of_succ_lt_succ inside
      have made := rest.made place inner
      have level : next.fresh + place = mem.fresh + (place + 1) := by omega
      rw [level] at made
      exact copied_back mem next last hi piece _ _ first (sources _ (List.get_mem pieces ⟨place, inner⟩)) (by omega) made
  · refine ⟨rfl, ?_⟩
    have link := rest.links mem.fresh young
    have bare : (next.bufs mem.fresh).next = none := first.seg.2
    have seg := rest.seg
    rw [bare] at link
    rw [fresh] at seg link
    show Chains.Seg (fun id => (last.bufs id).next) (last.bufs mem.fresh).next (List.range' (mem.fresh + 1) pieces.length) none
    rw [link]
    by_cases empty : pieces = []
    · simpa [empty] using seg
    · simpa [empty] using seg
  · have different : mem.fresh ≠ id := Nat.ne_of_gt old
    rw [rest.links id (older id old), first.links id old]
    simp [different]
  · exact kept_trans _ _ _ (first.kept id old) (rest.kept id (older id old))
  · have flags := kept_isext _ _ (first.kept id old)
    rw [rest.refs id (older id old), first.refs id old]
    unfold sharings
    rw [flags]
    simp only [List.countP_cons, List.countP_nil]
    split_ifs <;> push_cast <;> omega
  · rw [rest.bytes region (fun mb old more => apart mb (by omega) (by rw [List.length_cons]; omega)),
      first.bytes region (fun mb old more => apart mb old (by rw [List.length_singleton] at more; rw [List.length_cons]; omega))]

structure Chained (mem : Mem) (start : Option Nat) (ids : List Nat) : Prop where
  seg : Chains.Seg (fun id => (mem.bufs id).next) start ids none
  sound : ∀ id ∈ ids, Sound mem id

theorem sound_step (mem next : Mem) (hi : Option Nat) (pieces : List Piece) (id : Nat) (step : Result mem next hi pieces) (sound : Sound mem id) :
    Sound next id := by
  have kept := step.kept id sound.old
  have flags := kept_isext _ _ kept
  have fresh := step.fresh
  have old := sound.old
  refine ⟨by omega, fun ext => ?_, fun ext => ?_, ?_⟩
  · rw [kept.data]
    exact sound.inline (flags.symm.trans ext)
  · rw [kept.data]
    exact sound.shared (flags.symm.trans ext)
  · have fits := sound.fits
    unfold Fits at *
    rw [kept.data, kept.len, step.size]
    exact fits

theorem chained_step (mem next : Mem) (hi : Option Nat) (pieces : List Piece) (start : Option Nat) (ids : List Nat) (step : Result mem next hi pieces)
    (chained : Chained mem start ids) (outside : ∀ last, hi = some last → last ∉ ids) : Chained next start ids := by
  refine ⟨Chains.seg_frame _ _ start none ids chained.seg fun id member => ?_,
    fun id member => sound_step mem next hi pieces id step (chained.sound id member)⟩
  have other : ¬(hi = some id ∧ pieces ≠ []) := fun both => outside id both.1 member
  rw [step.links id (chained.sound id member).old, if_neg other]

theorem plan_congr (mem next : Mem) (ids : List Nat) (ofs nb : Nat) (same : ∀ id ∈ ids, (next.bufs id).len = (mem.bufs id).len) :
    plan next ids ofs nb = plan mem ids ofs nb := by
  induction ids generalizing ofs nb with
  | nil => rfl
  | cons id ids ih =>
    have first := same id List.mem_cons_self
    have rest := fun ofs nb => ih ofs nb fun other member => same other (List.mem_cons_of_mem _ member)
    simp only [plan, first, rest]

theorem plan_sources (mem : Mem) (ids : List Nat) (ofs nb : Nat) (piece : Piece) (member : piece ∈ plan mem ids ofs nb) : piece.src ∈ ids := by
  induction ids generalizing ofs nb with
  | nil => cases member
  | cons id ids ih =>
    unfold plan at member
    split_ifs at member with empty
    · cases member
    · rcases List.mem_cons.mp member with rfl | later
      · exact List.mem_cons_self
      · exact List.mem_cons_of_mem _ (ih _ _ later)

theorem inBounds_step (mem next : Mem) (piece : Piece) (kept : Kept (mem.bufs piece.src) (next.bufs piece.src)) :
    InBounds next piece ↔ InBounds mem piece := by
  unfold InBounds
  rw [kept_isext _ _ kept, kept_start mem next piece kept]

-- The chain that is left after one step, with the length that is left.
theorem copyStep_onward (mem next : Mem) (hi : Option Nat) (id ofs : Nat) (ids : List Nat) (nb : Int) (positive : nb > 0)
    (step : Result mem next hi [⟨id, ofs, min nb.toNat ((mem.bufs id).len - ofs)⟩]) (chained : Chained mem (some id) (id :: ids))
    (outside : ∀ last, hi = some last → last ∉ id :: ids) : Chained next (next.bufs id).next ids ∧
      (∀ last, some mem.fresh = some last → last ∉ ids) ∧ (if nb ≠ mbufcopyall then nb - (next.bufs mem.fresh).len else nb) =
        ((nb.toNat - min nb.toNat ((mem.bufs id).len - ofs) : Nat) : Int) ∧
      ∀ ofs nb, plan next ids ofs nb = plan mem ids ofs nb := by
  have after := chained_step mem next hi _ _ _ step chained outside
  refine ⟨⟨after.seg.2, fun other member => after.sound other (List.mem_cons_of_mem _ member)⟩, fun last same member => ?_, ?_, fun ofs nb => ?_⟩
  · cases same
    exact absurd (chained.sound mem.fresh (List.mem_cons_of_mem _ member)).old (Nat.lt_irrefl _)
  · have len : (next.bufs mem.fresh).len = min nb.toNat ((mem.bufs id).len - ofs) := (step.made 0 Nat.one_pos).len
    have counted : nb ≠ mbufcopyall := by
      unfold mbufcopyall
      omega
    rw [if_pos counted, len]
    omega
  · exact plan_congr mem next ids ofs nb fun other member => (step.kept other (chained.sound other (List.mem_cons_of_mem _ member)).old).len

theorem inlines_step (mem next : Mem) (hi : Option Nat) (pieces : List Piece) (step : Result mem next hi pieces) (inlines : Inlines mem) :
    Inlines next := by
  intro mb
  rw [step.size]
  exact inlines mb

theorem copyLoop_result (fuel ofs0 ofs : Nat) (mem : Mem) (start hi top : Option Nat) (ids : List Nat) (nb : Int) (result : Mem × Option Nat)
    (chained : Chained mem start ids) (inlines : Inlines mem) (below : ∀ last, hi = some last → last < mem.fresh)
    (outside : ∀ last, hi = some last → last ∉ ids) (within : ∀ id, ids.head? = some id → ofs ≤ (mem.bufs id).len)
    (done : copyLoop fuel mem false ofs0 start ofs nb hi top = some result) : Result mem result.1 hi (plan mem ids ofs nb.toNat) ∧
      (∀ piece ∈ plan mem ids ofs nb.toNat, InBounds mem piece) ∧
      result.2 = if plan mem ids ofs nb.toNat = [] then top else hi.elim (some mem.fresh) (fun _ => top) := by
  induction fuel generalizing mem start hi top ids ofs nb with
  | zero => cases done
  | succ fuel ih =>
    unfold copyLoop at done
    by_cases positive : nb > 0
    · rw [if_pos positive] at done
      cases ids with
      | nil =>
        rw [show start = none from chained.seg] at done
        cases done
        exact ⟨result_nil mem hi, by simp [plan], rfl⟩
      | cons id ids =>
        obtain ⟨rfl, -⟩ := chained.seg
        obtain ⟨next, stepped, rest⟩ := Option.bind_eq_some_iff.mp done
        have sound := chained.sound id List.mem_cons_self
        obtain ⟨step, fits, tops⟩ := copyStep_result mem next ofs0 id ofs nb hi top sound inlines below (within id rfl) stepped
        obtain ⟨after, apart, left, same⟩ := copyStep_onward mem next.1 hi id ofs ids nb positive step chained outside
        have fresh : next.1.fresh = mem.fresh + 1 := step.fresh
        dsimp only at rest
        rw [left] at rest
        obtain ⟨later, bounds, last⟩ := ih 0 next.1 _ (some mem.fresh) next.2 ids _ after (inlines_step _ _ _ _ step inlines)
          (fun last same => by cases same; omega) apart (fun _ _ => Nat.zero_le _) rest
        rw [Int.toNat_natCast, same] at later bounds last
        have sources : ∀ other ∈ plan mem ids 0 (nb.toNat - min nb.toNat ((mem.bufs id).len - ofs)), Sound mem other.src := fun other member =>
          chained.sound other.src (List.mem_cons_of_mem _ (plan_sources mem ids _ _ other member))
        have some_left : nb.toNat ≠ 0 := by omega
        have unfolded : plan mem (id :: ids) ofs nb.toNat = ⟨id, ofs, min nb.toNat ((mem.bufs id).len - ofs)⟩ ::
            plan mem ids 0 (nb.toNat - min nb.toNat ((mem.bufs id).len - ofs)) := by
          rw [plan, if_neg some_left]
        rw [unfolded]
        refine ⟨result_cons mem next.1 result.1 hi _ _ step later sources, fun piece member => ?_, ?_⟩
        · rcases List.mem_cons.mp member with rfl | inner
          · exact fits
          · exact (inBounds_step mem next.1 piece (step.kept _ (sources piece inner).old)).mp (bounds piece inner)
        · rw [last, tops, Option.elim_some, ite_self, if_neg (List.cons_ne_nil _ _)]
    · rw [if_neg positive] at done
      cases done
      have none_left : nb.toNat = 0 := by omega
      have empty : plan mem ids ofs nb.toNat = [] := by
        rw [none_left]
        cases ids <;> rfl
      rw [empty]
      exact ⟨result_nil mem hi, by simp, rfl⟩

theorem copyLoop_returns (fuel ofs0 ofs : Nat) (mem : Mem) (start hi top : Option Nat) (ids : List Nat) (nb : Int)
    (chained : Chained mem start ids) (inlines : Inlines mem) (below : ∀ last, hi = some last → last < mem.fresh)
    (outside : ∀ last, hi = some last → last ∉ ids) (within : ∀ id, ids.head? = some id → ofs ≤ (mem.bufs id).len)
    (fits : ∀ piece ∈ plan mem ids ofs nb.toNat, InBounds mem piece) (enough : ids.length < fuel) :
    ∃ result, copyLoop fuel mem false ofs0 start ofs nb hi top = some result := by
  induction fuel generalizing mem start hi top ids ofs nb with
  | zero => exact absurd enough (Nat.not_lt_zero _)
  | succ fuel ih =>
    unfold copyLoop
    by_cases positive : nb > 0
    · rw [if_pos positive]
      cases ids with
      | nil =>
        rw [show start = none from chained.seg]
        exact ⟨_, rfl⟩
      | cons id ids =>
        obtain ⟨rfl, -⟩ := chained.seg
        have sound := chained.sound id List.mem_cons_self
        have some_left : nb.toNat ≠ 0 := by omega
        rw [plan, if_neg some_left] at fits
        obtain ⟨next, stepped⟩ := copyStep_returns mem ofs0 id ofs nb hi top sound inlines below (within id rfl) (fits _ List.mem_cons_self)
        obtain ⟨step, -, -⟩ := copyStep_result mem next ofs0 id ofs nb hi top sound inlines below (within id rfl) stepped
        obtain ⟨after, apart, left, same⟩ := copyStep_onward mem next.1 hi id ofs ids nb positive step chained outside
        have fresh : next.1.fresh = mem.fresh + 1 := step.fresh
        obtain ⟨result, done⟩ := ih 0 next.1 _ (some mem.fresh) next.2 ids
          ((nb.toNat - min nb.toNat ((mem.bufs id).len - ofs) : Nat) : Int) after (inlines_step _ _ _ _ step inlines)
          (fun last same => by cases same; omega) apart (fun _ _ => Nat.zero_le _) (fun piece member => by
            rw [Int.toNat_natCast, same] at member
            have old := (chained.sound _ (List.mem_cons_of_mem _ (plan_sources mem ids _ _ piece member))).old
            exact (inBounds_step mem next.1 piece (step.kept _ old)).mpr (fits piece (List.mem_cons_of_mem _ member)))
          (by simpa using enough)
        refine ⟨result, ?_⟩
        rw [Option.elim_some, stepped, Option.bind_some]
        dsimp only
        rw [left]
        exact done
    · rw [if_neg positive]
      exact ⟨_, rfl⟩

def total (mem : Mem) : List Nat → Nat
  | [] => 0
  | id :: ids => (mem.bufs id).len + total mem ids

theorem skipLoop_place (fuel : Nat) (mem : Mem) (start : Option Nat) (ids : List Nat) (ofs : Nat) (place : Option Nat × Nat)
    (chained : Chained mem start ids)
    (done : skipLoop fuel mem start ofs = some place) : Chained mem place.1 (skipped mem ids ofs).1 ∧ place.2 = (skipped mem ids ofs).2 := by
  induction fuel generalizing start ids ofs with
  | zero => cases done
  | succ fuel ih =>
    unfold skipLoop at done
    by_cases more : 0 < ofs
    · rw [if_pos more] at done
      cases ids with
      | nil =>
        rw [show start = none from chained.seg] at done
        cases done
      | cons id ids =>
        obtain ⟨rfl, rest⟩ := chained.seg
        rw [Option.bind_some] at done
        unfold skipped
        by_cases here : ofs < (mem.bufs id).len
        · rw [if_pos here] at done
          cases done
          rw [if_neg (by omega)]
          exact ⟨chained, rfl⟩
        · rw [if_neg here] at done
          rw [if_pos (by omega)]
          exact ih _ ids _ ⟨rest, fun other member => chained.sound other (List.mem_cons_of_mem _ member)⟩ done
    · rw [if_neg more] at done
      cases done
      have none_left : ofs = 0 := by omega
      subst none_left
      cases ids with
      | nil => exact ⟨chained, rfl⟩
      | cons id ids => simpa [skipped] using chained

theorem skipLoop_returns (fuel : Nat) (mem : Mem) (start : Option Nat) (ids : List Nat) (ofs : Nat) (chained : Chained mem start ids)
    (inside : ofs ≤ total mem ids) (enough : ids.length < fuel) : ∃ place, skipLoop fuel mem start ofs = some place := by
  induction fuel generalizing start ids ofs with
  | zero => exact absurd enough (Nat.not_lt_zero _)
  | succ fuel ih =>
    unfold skipLoop
    by_cases more : 0 < ofs
    · rw [if_pos more]
      cases ids with
      | nil => exact absurd inside (Nat.not_le_of_lt more)
      | cons id ids =>
        obtain ⟨rfl, rest⟩ := chained.seg
        have sum : total mem (id :: ids) = (mem.bufs id).len + total mem ids := rfl
        rw [Option.bind_some]
        by_cases here : ofs < (mem.bufs id).len
        · rw [if_pos here]
          exact ⟨_, rfl⟩
        · rw [if_neg here]
          exact ih _ ids _ ⟨rest, fun other member => chained.sound other (List.mem_cons_of_mem _ member)⟩ (by omega) (by simpa using enough)
    · rw [if_neg more]
      exact ⟨_, rfl⟩

theorem skipped_within (mem : Mem) (ids : List Nat) (ofs id : Nat) (first : (skipped mem ids ofs).1.head? = some id) :
    (skipped mem ids ofs).2 ≤ (mem.bufs id).len := by
  induction ids generalizing ofs with
  | nil => cases first
  | cons other ids ih =>
    unfold skipped at first ⊢
    split_ifs at first ⊢ with past
    · exact ih _ first
    · cases first
      dsimp only
      omega

theorem skipped_length (mem : Mem) (ids : List Nat) (ofs : Nat) : (skipped mem ids ofs).1.length ≤ ids.length := by
  induction ids generalizing ofs with
  | nil => exact Nat.le_refl _
  | cons id ids ih =>
    unfold skipped
    split_ifs
    · exact Nat.le_succ_of_le (ih _)
    · exact Nat.le_refl _

end OsZero.Mbuf

import OsZero.Zas.Translate
import OsZero.Lib.Runs
import OsZero.Lib.Magic

set_option autoImplicit false

namespace OsZero.Zas

open Stores Cstring Runs

-- The text of a string, as its bytes and as it stands in the source.
inductive Glyph where
  | plain (c : UInt8) (ordinary : c ≠ 0 ∧ c ≠ code '\"' ∧ c ≠ code '\\')
  | newline
  | tab
  | ret

def Glyph.byte : Glyph → UInt8
  | .plain c _ => c
  | .newline => 10
  | .tab => 9
  | .ret => 13

def Glyph.source : Glyph → List UInt8
  | .plain c _ => [c]
  | .newline => [code '\\', code 'n']
  | .tab => [code '\\', code 't']
  | .ret => [code '\\', code 'r']

inductive Width where
  | byte
  | short
  | long
  | quad

def Width.size : Width → UInt8
  | .byte => 1
  | .short => 2
  | .long => 4
  | .quad => 8

-- A value token carries a size of its own, which zasgettoken leaves at zero.
inductive Directive where
  | label (name : List UInt8)
  | char (ch : UInt8)
  | data (width : Width) (values : List (BitVec 64 × UInt8))
  | asciz (strings : List (List Glyph))
  | align (log2 : Fin 64) (size : UInt8)
  | space (adr val : BitVec 64) (size1 size2 : UInt8)

def Directive.tokens : Directive → List Token
  | .label name => [.label name]
  | .char ch => [.char ch]
  | .data width values => .data width.size :: values.map fun value => .value value.1 value.2
  | .asciz strings => .asciz :: strings.map fun str => .string (str.flatMap Glyph.source ++ [code '\"'])
  | .align log2 size => [.align, .value (BitVec.ofNat 64 (2 ^ log2.val)) size]
  | .space adr val size1 size2 => [.space, .value adr size1, .value val size2]

-- What the image is to be: the addresses are numbers, so that they do not wrap.
structure Layout where
  cursor : Nat
  startset : Bool
  segments : List (Nat × List UInt8)
  labels : List (List UInt8 × Nat)

def aligned (adr size : Nat) : Nat := (adr + (size - 1)) / size * size

def Layout.write (layout : Layout) (bytes : List UInt8) : Layout :=
  { layout with cursor := layout.cursor + bytes.length, segments := layout.segments ++ [(layout.cursor, bytes)] }

def startlabel (layout : Layout) (name : List UInt8) : Bool := !layout.startset && (text "_start").isPrefixOf name

-- The first label that begins with _start is put where an opcode may stand.
def lay (opsize : Nat) (layout : Layout) : Directive → Layout
  | .label name =>
      let cursor := if startlabel layout name then aligned layout.cursor opsize else layout.cursor
      ⟨cursor, layout.startset || startlabel layout name, layout.segments, layout.labels ++ [(name, cursor)]⟩
  | .char ch => layout.write [ch]
  | .data width values => layout.write (values.flatMap fun value => littleendian width.size.toNat value.1)
  | .asciz strings => layout.write (strings.flatMap fun str => str.map Glyph.byte ++ [0])
  | .align log2 _ => { layout with cursor := aligned layout.cursor (2 ^ log2.val) }
  | .space adr val _ _ => layout.write (List.replicate (adr.toNat - layout.cursor) (UInt8.ofNat (val.extractLsb' 0 8).toNat))

-- The virtual machine's memory is one array.
def Linear (zvmadrtoptr : Adr → Nat) : Prop := ∀ adr, zvmadrtoptr adr = zvmadrtoptr 0 + adr.toNat

-- The bytes are where they are to be and nothing else is written, in the order of the queue.
structure LaidOut (zvmadrtoptr : Adr → Nat) (base : Adr) (done : Asm × Adr) (layout : Layout) : Prop where
  result : done.2.toNat = layout.cursor
  start : base.toNat ≤ layout.cursor
  bytes : ∀ segment ∈ layout.segments, ∀ (k : Nat) (byte : UInt8), segment.2[k]? = some byte →
    done.1.mem.cell (zvmadrtoptr 0 + segment.1 + k) = byte
  order : done.1.mem.stored = layout.segments.flatMap fun segment => List.range' (zvmadrtoptr 0 + segment.1) segment.2.length
  within : done.1.mem.Within (zvmadrtoptr base) (zvmadrtoptr 0 + layout.cursor)
  records : ∀ label ∈ layout.labels, ∃ sym, zasfindsym done.1 label.1 = some sym ∧ sym.adr.toNat = label.2
  startset : done.1.startset = layout.startset

-- Labels have names of their own, and .space does not go back.
def Legal (layout : Layout) : Directive → Prop
  | .label name => ∀ label ∈ layout.labels, label.1 ≠ name
  | .space adr _ _ _ => layout.cursor ≤ adr.toNat
  | _ => True

-- The value behind .align has no size, .space has nothing to fill and .asciz has no
-- second string; the image ends within the address space.
def Fits (opsize : Nat) (layout : Layout) (directive : Directive) : Prop :=
  (lay opsize layout directive).cursor < 2 ^ 64 ∧
    match directive with
    | .asciz strings => strings.length ≤ 1
    | .align _ size => size = 0
    | .space adr _ _ _ => adr.toNat = layout.cursor
    | _ => True

section
variable (zvmadrtoptr : Adr → Nat) (opsize : Adr)

def ascizstep (state : Nat × Asm × Adr) (str : List Glyph) : Nat × Asm × Adr :=
  let bytes := str.map Glyph.byte ++ [0]
  let len := state.1 + bytes.length
  (len, { state.2.1 with mem := state.2.1.mem.fill (zvmadrtoptr state.2.2) bytes }, state.2.2 + BitVec.ofNat 64 len)

-- What the code makes of one directive.
def outcome (state : Asm × Adr) : Directive → Asm × Adr
  | .label name => zasproclabel opsize state.1 state.2 name
  | .char ch => zasprocchar zvmadrtoptr state.1 state.2 ch
  | .data width values => values.foldl (fun state value => zasprocvalue zvmadrtoptr state.1 state.2 value.1 width.size) state
  | .asciz strings => (strings.foldl (ascizstep zvmadrtoptr) (0, state)).2
  | .align log2 size => zasprocvalue zvmadrtoptr state.1 (rounduppow2 state.2 (BitVec.ofNat 64 (2 ^ log2.val))) (BitVec.ofNat 64 (2 ^ log2.val)) size
  | .space adr val _ _ =>
      ({ state.1 with mem := state.1.mem.fill (zvmadrtoptr adr) (List.replicate (adr.toNat - state.2.toNat) (UInt8.ofNat (val.extractLsb' 0 8).toNat)) },
        if state.2 < adr then adr else state.2)

-- The token behind a directive is none that the directive would take.
def Apart : List Token → Prop
  | .value _ _ :: _ => False
  | .string _ :: _ => False
  | _ => True

theorem apart_tokens (queue : List Directive) : Apart (queue.flatMap Directive.tokens) := by
  cases queue with
  | nil => trivial
  | cons directive queue => cases directive <;> trivial

theorem procdata_values (size : UInt8) (state : Asm × Adr) (values : List (BitVec 64 × UInt8)) (rest : List Token) (apart : Apart rest) :
    zasprocdata zvmadrtoptr size state.1 state.2 ((values.map fun value => Token.value value.1 value.2) ++ rest) =
      ((values.foldl (fun state value => zasprocvalue zvmadrtoptr state.1 state.2 value.1 size) state).1,
        (values.foldl (fun state value => zasprocvalue zvmadrtoptr state.1 state.2 value.1 size) state).2, rest) := by
  induction values generalizing state with
  | nil =>
      cases rest with
      | nil => rfl
      | cons token rest => cases token <;> first | rfl | exact apart.elim
  | cons value values ih => exact ih (zasprocvalue zvmadrtoptr state.1 state.2 value.1 size)

theorem unescape_glyph (glyph : Glyph) (str : List UInt8) :
    unescape (glyph.source ++ str) = (unescape str).map fun rest => (glyph.byte :: rest.1, rest.2) := by
  cases glyph with
  | plain c ordinary =>
      rw [Glyph.source, List.cons_append, List.nil_append, unescape.eq_def]
      dsimp only
      rw [if_neg ordinary.2.1, if_neg ordinary.2.2]
      rfl
  | newline => rfl
  | tab => rfl
  | ret => rfl

theorem unescape_source (str : List Glyph) : unescape (str.flatMap Glyph.source ++ [code '"']) = some (str.map Glyph.byte, true) := by
  induction str with
  | nil => rfl
  | cons glyph str ih =>
      rw [List.flatMap_cons, List.append_assoc, unescape_glyph, ih]
      rfl

theorem procasciz_strings (len : Nat) (state : Asm × Adr) (strings : List (List Glyph)) (rest : List Token) (apart : Apart rest) :
    zasprocasciz zvmadrtoptr len state.1 state.2 ((strings.map fun str => Token.string (str.flatMap Glyph.source ++ [code '"'])) ++ rest) =
      some ((strings.foldl (ascizstep zvmadrtoptr) (len, state)).2.1, (strings.foldl (ascizstep zvmadrtoptr) (len, state)).2.2, rest) := by
  induction strings generalizing len state with
  | nil =>
      cases rest with
      | nil => rfl
      | cons token rest => cases token <;> first | rfl | exact apart.elim
  | cons str strings ih =>
      rw [List.map_cons, List.cons_append, zasprocasciz, unescape_source, Option.bind_some]
      exact ih _ (ascizstep zvmadrtoptr (len, state) str).2

theorem loop_step (rounds : Nat) (state next : Asm × Adr) (token : Token) (tokens rest : List Token)
    (taken : zasproctoken zvmadrtoptr opsize state.1 state.2 tokens token = some (next.1, next.2, rest)) :
    translateLoop zvmadrtoptr opsize (rounds + 1) state.1 state.2 (token :: tokens) = translateLoop zvmadrtoptr opsize rounds next.1 next.2 rest := by
  rw [translateLoop, taken, Option.bind_some]

theorem loop_directive (rounds : Nat) (state : Asm × Adr) (directive : Directive) (rest : List Token) (apart : Apart rest)
    (enough : (directive.tokens ++ rest).length ≤ rounds) : ∃ left, rest.length ≤ left ∧
      translateLoop zvmadrtoptr opsize rounds state.1 state.2 (directive.tokens ++ rest) =
        translateLoop zvmadrtoptr opsize left (outcome zvmadrtoptr opsize state directive).1 (outcome zvmadrtoptr opsize state directive).2 rest := by
  have some_round : 0 < rounds := by
    refine Nat.lt_of_lt_of_le ?_ enough
    cases directive <;> exact Nat.succ_pos _
  obtain ⟨left, rfl⟩ := Nat.exists_eq_add_one_of_ne_zero (Nat.ne_of_gt some_round)
  have short : rest.length ≤ left := by
    rw [List.length_append] at enough
    have tokens : 0 < directive.tokens.length := by cases directive <;> exact Nat.succ_pos _
    omega
  cases directive with
  | label name => exact ⟨left, short, loop_step zvmadrtoptr opsize left state (outcome zvmadrtoptr opsize state (.label name)) _ _ _ rfl⟩
  | char ch => exact ⟨left, short, loop_step zvmadrtoptr opsize left state (outcome zvmadrtoptr opsize state (.char ch)) _ _ _ rfl⟩
  | data width values =>
      refine ⟨left, short, loop_step zvmadrtoptr opsize left state (outcome zvmadrtoptr opsize state (.data width values)) _ _ _ ?_⟩
      exact congrArg some (procdata_values zvmadrtoptr width.size state values rest apart)
  | asciz strings =>
      refine ⟨left, short, loop_step zvmadrtoptr opsize left state (outcome zvmadrtoptr opsize state (.asciz strings)) _ _ _ ?_⟩
      exact procasciz_strings zvmadrtoptr 0 state strings rest apart
  | align log2 size =>
      obtain ⟨fewer, rfl⟩ : ∃ fewer, left = fewer + 1 := Nat.exists_eq_add_one_of_ne_zero (by simp [Directive.tokens] at enough; omega)
      refine ⟨fewer, by simp [Directive.tokens] at enough; omega, ?_⟩
      exact (loop_step zvmadrtoptr opsize (fewer + 1) state (state.1, rounduppow2 state.2 (BitVec.ofNat 64 (2 ^ log2.val))) _ _ _ rfl).trans
        (loop_step zvmadrtoptr opsize fewer (state.1, rounduppow2 state.2 (BitVec.ofNat 64 (2 ^ log2.val)))
          (outcome zvmadrtoptr opsize state (.align log2 size)) _ _ _ rfl)
  | space adr val size1 size2 =>
      exact ⟨left, short, loop_step zvmadrtoptr opsize left state (outcome zvmadrtoptr opsize state (.space adr val size1 size2)) _ _ _ rfl⟩

theorem loop_directives (rounds : Nat) (state : Asm × Adr) (queue : List Directive) (enough : (queue.flatMap Directive.tokens).length ≤ rounds) :
    translateLoop zvmadrtoptr opsize rounds state.1 state.2 (queue.flatMap Directive.tokens) = some (queue.foldl (outcome zvmadrtoptr opsize) state) := by
  induction queue generalizing rounds state with
  | nil => cases rounds <;> rfl
  | cons directive queue ih =>
      rw [List.flatMap_cons] at enough ⊢
      obtain ⟨left, more, stepped⟩ := loop_directive zvmadrtoptr opsize rounds state directive _ (apart_tokens queue) enough
      rw [stepped, List.foldl_cons]
      exact ih left _ more

theorem translate_directives (asm : Asm) (base : Adr) (queue : List Directive) :
    zastranslate zvmadrtoptr opsize asm base (queue.flatMap Directive.tokens) = some (queue.foldl (outcome zvmadrtoptr opsize) (asm, base)) :=
  loop_directives zvmadrtoptr opsize _ (asm, base) queue (Nat.le_refl _)

theorem laidOut_write (base : Adr) (state : Asm × Adr) (layout : Layout) (bytes : List UInt8) (next : Adr) (linear : Linear zvmadrtoptr)
    (laid : LaidOut zvmadrtoptr base state layout) (moved : next.toNat = layout.cursor + bytes.length) :
    LaidOut zvmadrtoptr base ({ state.1 with mem := state.1.mem.fill (zvmadrtoptr state.2) bytes }, next) (layout.write bytes) := by
  have place : zvmadrtoptr state.2 = zvmadrtoptr 0 + layout.cursor := by rw [linear state.2, laid.result]
  have from_base : zvmadrtoptr base ≤ zvmadrtoptr 0 + layout.cursor := by
    rw [linear base]
    exact Nat.add_le_add_left laid.start _
  have before : ∀ segment ∈ layout.segments, ∀ k, k < segment.2.length → segment.1 + k < layout.cursor := fun segment inside k low => by
    have stored : zvmadrtoptr 0 + segment.1 + k ∈ state.1.mem.stored := by
      rw [laid.order]
      exact List.mem_flatMap.mpr ⟨segment, inside, List.mem_range'_1.mpr ⟨by omega, by omega⟩⟩
    have bounds := laid.within _ stored
    omega
  refine ⟨moved, Nat.le_trans laid.start (Nat.le_add_right _ _), fun segment inside k byte get => ?_, ?_, fun i inside => ?_, laid.records, laid.startset⟩
  · dsimp only
    rw [place]
    rcases List.mem_append.mp inside with old | new
    · have low : k < segment.2.length := (List.getElem?_eq_some_iff.mp get).1
      have early := before segment old k low
      rw [fill_outside _ _ _ _ (Or.inl (by omega))]
      exact laid.bytes segment old k byte get
    · obtain rfl := List.mem_singleton.mp new
      exact fill_inside _ _ k bytes byte get
  · dsimp only [Layout.write]
    rw [fill_stored, laid.order, place, List.flatMap_append]
    simp
  · dsimp only [Layout.write] at inside ⊢
    rw [fill_stored, place, List.mem_append, List.mem_range'_1] at inside
    rcases inside with old | ⟨low, high⟩
    · have bounds := laid.within i old
      omega
    · omega

theorem littleendian_length (width : Nat) (val : BitVec 64) : (littleendian width val).length = width := by
  simp [littleendian]

theorem move_toNat (adr : Adr) (count : Nat) (fits : adr.toNat + count < 2 ^ 64) : (adr + BitVec.ofNat 64 count).toNat = adr.toNat + count := by
  rw [BitVec.toNat_add, BitVec.toNat_ofNat]
  omega

theorem values_fill (width : Width) (state : Asm × Adr) (values : List (BitVec 64 × UInt8)) (linear : Linear zvmadrtoptr)
    (fits : state.2.toNat + (values.flatMap fun value => littleendian width.size.toNat value.1).length < 2 ^ 64) :
    values.foldl (fun state value => zasprocvalue zvmadrtoptr state.1 state.2 value.1 width.size) state =
      ({ state.1 with mem := state.1.mem.fill (zvmadrtoptr state.2) (values.flatMap fun value => littleendian width.size.toNat value.1) },
        state.2 + BitVec.ofNat 64 (values.flatMap fun value => littleendian width.size.toNat value.1).length) := by
  induction values generalizing state with
  | nil => simp [Mem.fill]
  | cons value values ih =>
      have known : width.size = 1 ∨ width.size = 2 ∨ width.size = 4 ∨ width.size = 8 := by cases width <;> simp [Width.size]
      rw [List.flatMap_cons, List.length_append, littleendian_length] at fits
      have near := move_toNat state.2 width.size.toNat (by omega)
      have further := linear (state.2 + BitVec.ofNat 64 width.size.toNat)
      rw [near, ← Nat.add_assoc, ← linear] at further
      rw [List.foldl_cons, ih]
      · simp only [zasprocvalue, if_pos known, List.flatMap_cons, fill_append, littleendian_length, further, List.length_append, Prod.mk.injEq, true_and]
        rw [BitVec.add_assoc, ← BitVec.ofNat_add]
      · dsimp only [zasprocvalue]
        rw [near]
        omega

theorem rounduppow2_toNat (adr : Adr) (log2 : Fin 64) (fits : aligned adr.toNat (2 ^ log2.val) < 2 ^ 64) :
    (rounduppow2 adr (BitVec.ofNat 64 (2 ^ log2.val))).toNat = aligned adr.toNat (2 ^ log2.val) := by
  have low : log2.val < 64 := log2.isLt
  have power : 2 ^ log2.val < 2 ^ 64 := Nat.pow_lt_pow_right (by decide) low
  have positive : 0 < 2 ^ log2.val := Nat.two_pow_pos _
  have size : (BitVec.ofNat 64 (2 ^ log2.val)).toNat = 2 ^ log2.val := by rw [BitVec.toNat_ofNat, Nat.mod_eq_of_lt power]
  have room : adr.toNat + (2 ^ log2.val - 1) < 2 ^ 64 := by
    by_contra beyond
    have whole : 2 ^ 64 / 2 ^ log2.val * 2 ^ log2.val = 2 ^ 64 := Nat.div_mul_cancel (Nat.pow_dvd_pow 2 (Nat.le_of_lt low))
    have high := Nat.mul_le_mul_right (2 ^ log2.val) (Nat.div_le_div_right (c := 2 ^ log2.val) (Nat.le_of_not_lt beyond))
    unfold aligned at fits
    omega
  have less : (BitVec.ofNat 64 (2 ^ log2.val) - 1).toNat = 2 ^ log2.val - 1 := by
    rw [BitVec.toNat_sub, size]
    have one : (1 : BitVec 64).toNat = 1 := rfl
    omega
  have negated : (-BitVec.ofNat 64 (2 ^ log2.val)).toNat = 2 ^ 64 - 2 ^ log2.val := by
    rw [BitVec.toNat_neg, size]
    omega
  unfold rounduppow2 aligned
  rw [BitVec.toNat_and, BitVec.toNat_add, less, negated, Nat.mod_eq_of_lt room]
  exact Magic.and_high _ _ room (Nat.le_of_lt low)

theorem low_bits_zero (adr : Adr) (log2 : Fin 64) (zero : adr &&& (BitVec.ofNat 64 (2 ^ log2.val) - 1) = 0) :
    aligned adr.toNat (2 ^ log2.val) = adr.toNat := by
  have power : 2 ^ log2.val < 2 ^ 64 := Nat.pow_lt_pow_right (by decide) log2.isLt
  have positive : 0 < 2 ^ log2.val := Nat.two_pow_pos _
  have less : (BitVec.ofNat 64 (2 ^ log2.val) - 1).toNat = 2 ^ log2.val - 1 := by
    rw [BitVec.toNat_sub, BitVec.toNat_ofNat, Nat.mod_eq_of_lt power]
    have one : (1 : BitVec 64).toNat = 1 := rfl
    omega
  have rest : adr.toNat % 2 ^ log2.val = 0 := by
    rw [← Nat.and_two_pow_sub_one_eq_mod, ← less, ← BitVec.toNat_and, zero]
    rfl
  obtain ⟨count, multiple⟩ := Nat.dvd_of_mod_eq_zero rest
  unfold aligned
  rw [multiple, Nat.mul_add_div positive, Nat.div_eq_of_lt (by omega : 2 ^ log2.val - 1 < 2 ^ log2.val), Nat.add_zero, Nat.mul_comm]

theorem find_setsym (name : List UInt8) (adr : Adr) (syms : List Symrec) (found : (syms.find? fun sym => sym.name = name).isSome) :
    ∃ sym, ((setsym name adr syms).find? fun sym => sym.name = name) = some sym ∧ sym.adr = adr := by
  induction syms with
  | nil => cases found
  | cons sym syms ih =>
      unfold setsym
      by_cases same : sym.name = name
      · rw [if_pos same]
        exact ⟨{ sym with adr := adr }, by simp [same], rfl⟩
      · rw [if_neg same]
        rw [List.find?_cons_of_neg (by simpa using same)] at found ⊢
        exact ih found

theorem find_setsym_of_ne (name other : List UInt8) (adr : Adr) (syms : List Symrec) (different : other ≠ name) :
    ((setsym name adr syms).find? fun sym => sym.name = other) = syms.find? fun sym => sym.name = other := by
  induction syms with
  | nil => rfl
  | cons sym syms ih =>
      unfold setsym
      by_cases same : sym.name = name
      · have apart : ¬sym.name = other := fun back => different (back.symm.trans same)
        rw [if_pos same, List.find?_cons_of_neg (by simpa using apart), List.find?_cons_of_neg (by simpa using apart)]
      · rw [if_neg same, List.find?_cons, List.find?_cons, ih]

-- The address that a label is given, before and beside its record.
def labeladr (asm : Asm) (adr : Adr) (name : List UInt8) : Adr :=
  if (!asm.startset && (text "_start").isPrefixOf name) && decide (adr &&& (opsize - 1) ≠ 0) then rounduppow2 adr opsize else adr

def record (asm : Asm) (adr : Adr) (name : List UInt8) : Asm :=
  if (zasfindsym asm name).isSome then
    { asm with zassymhash := Function.update asm.zassymhash (zassymkey name) (setsym name adr (asm.zassymhash (zassymkey name))) }
  else zasaddsym asm ⟨name, adr⟩

theorem record_find (asm : Asm) (adr : Adr) (name : List UInt8) : ∃ sym, zasfindsym (record asm adr name) name = some sym ∧ sym.adr = adr := by
  unfold record
  split_ifs with found
  · unfold zasfindsym at found ⊢
    dsimp only
    rw [Function.update_self]
    exact find_setsym name adr _ found
  · exact ⟨⟨name, adr⟩, by simp [zasfindsym, zasaddsym], rfl⟩

theorem record_other (asm : Asm) (adr : Adr) (name other : List UInt8) (different : other ≠ name) :
    zasfindsym (record asm adr name) other = zasfindsym asm other := by
  unfold record
  split_ifs with found
  · unfold zasfindsym
    dsimp only
    by_cases same : zassymkey other = zassymkey name
    · rw [same, Function.update_self, find_setsym_of_ne name other adr _ different]
    · rw [Function.update_of_ne same]
  · unfold zasfindsym zasaddsym
    dsimp only
    by_cases same : zassymkey other = zassymkey name
    · rw [same, Function.update_self, List.find?_cons_of_neg (by simpa using different.symm)]
    · rw [Function.update_of_ne same]

theorem proclabel_eq (asm : Asm) (adr : Adr) (name : List UInt8) : zasproclabel opsize asm adr name =
    (record (if !asm.startset && (text "_start").isPrefixOf name then { asm with startadr := labeladr opsize asm adr name, startset := true } else asm)
      (labeladr opsize asm adr name) name, labeladr opsize asm adr name) := rfl

theorem proclabel_find (asm : Asm) (adr : Adr) (name : List UInt8) :
    ∃ sym, zasfindsym (zasproclabel opsize asm adr name).1 name = some sym ∧ sym.adr = labeladr opsize asm adr name :=
  record_find _ _ name

theorem proclabel_other (asm : Asm) (adr : Adr) (name other : List UInt8) (different : other ≠ name) :
    zasfindsym (zasproclabel opsize asm adr name).1 other = zasfindsym asm other := by
  rw [proclabel_eq]
  refine (record_other _ _ name other different).trans ?_
  split_ifs <;> rfl

theorem record_rest (asm : Asm) (adr : Adr) (name : List UInt8) : (record asm adr name).mem = asm.mem ∧ (record asm adr name).startset = asm.startset := by
  unfold record
  split_ifs <;> exact ⟨rfl, rfl⟩

theorem proclabel_rest (asm : Asm) (adr : Adr) (name : List UInt8) : (zasproclabel opsize asm adr name).1.mem = asm.mem ∧
    (zasproclabel opsize asm adr name).1.startset = (asm.startset || (!asm.startset && (text "_start").isPrefixOf name)) := by
  rw [proclabel_eq]
  refine ⟨(record_rest _ _ name).1.trans ?_, (record_rest _ _ name).2.trans ?_⟩
  · split_ifs <;> rfl
  · split_ifs with starts
    · simp [starts]
    · simp [starts]

end

section
variable (zvmadrtoptr : Adr → Nat) (oplog : Fin 64)

-- struct zvmopcode has a power of two of bytes.
def opcodesize : Adr := BitVec.ofNat 64 (2 ^ oplog.val)

theorem labeladr_toNat (asm : Asm) (adr : Adr) (name : List UInt8) (layout : Layout) (result : adr.toNat = layout.cursor)
    (startset : asm.startset = layout.startset) (fits : (lay (2 ^ oplog.val) layout (.label name)).cursor < 2 ^ 64) :
    (labeladr (opcodesize oplog) asm adr name).toNat = (lay (2 ^ oplog.val) layout (.label name)).cursor := by
  unfold lay startlabel at *
  unfold labeladr
  dsimp only at *
  rw [startset]
  cases starts : !layout.startset && (text "_start").isPrefixOf name with
  | false => simpa using result
  | true =>
      rw [starts, if_pos rfl] at fits
      rw [Bool.true_and, if_pos rfl, ← result]
      rw [← result] at fits
      by_cases low : adr &&& (opcodesize oplog - 1) = 0
      · rw [if_neg fun other : decide (adr &&& (opcodesize oplog - 1) ≠ 0) = true => of_decide_eq_true other low]
        exact (low_bits_zero adr oplog low).symm
      · rw [if_pos (decide_eq_true low)]
        exact rounduppow2_toNat adr oplog fits

theorem aligned_ge (adr log2 : Nat) : adr ≤ aligned adr (2 ^ log2) := by
  have positive : 0 < 2 ^ log2 := Nat.two_pow_pos _
  have whole := Nat.div_add_mod' (adr + (2 ^ log2 - 1)) (2 ^ log2)
  have part := Nat.mod_lt (adr + (2 ^ log2 - 1)) positive
  unfold aligned
  omega

-- A directive that only moves the cursor on.
theorem laidOut_move (base : Adr) (state : Asm × Adr) (layout : Layout) (next : Adr) (cursor : Nat) (laid : LaidOut zvmadrtoptr base state layout)
    (moved : next.toNat = cursor) (onward : layout.cursor ≤ cursor) : LaidOut zvmadrtoptr base (state.1, next) { layout with cursor := cursor } :=
  ⟨moved, Nat.le_trans laid.start onward, laid.bytes, laid.order, fun i inside =>
    ⟨(laid.within i inside).1, Nat.lt_of_lt_of_le (laid.within i inside).2 (Nat.add_le_add_left onward _)⟩, laid.records, laid.startset⟩

theorem fits_of_result (base : Adr) (state : Asm × Adr) (layout : Layout) (laid : LaidOut zvmadrtoptr base state layout) : layout.cursor < 2 ^ 64 :=
  laid.result ▸ state.2.isLt

theorem label_exact (base : Adr) (state : Asm × Adr) (layout : Layout) (name : List UInt8) (laid : LaidOut zvmadrtoptr base state layout)
    (legal : Legal layout (.label name)) :
    LaidOut zvmadrtoptr base (outcome zvmadrtoptr (opcodesize oplog) state (.label name)) (lay (2 ^ oplog.val) layout (.label name)) ↔
      Fits (2 ^ oplog.val) layout (.label name) := by
  refine ⟨fun after => ⟨fits_of_result zvmadrtoptr base _ _ after, trivial⟩, fun fits => ?_⟩
  have moved := labeladr_toNat oplog state.1 state.2 name layout laid.result laid.startset fits.1
  have onward : layout.cursor ≤ (lay (2 ^ oplog.val) layout (.label name)).cursor := by
    unfold lay
    dsimp only
    split_ifs
    · exact aligned_ge _ _
    · exact Nat.le_refl _
  obtain ⟨mem, startset⟩ := proclabel_rest (opcodesize oplog) state.1 state.2 name
  have same := laidOut_move zvmadrtoptr base state layout _ _ laid moved onward
  refine ⟨moved, same.start, ?_, ?_, ?_, fun label inside => ?_, ?_⟩
  · show ∀ segment ∈ layout.segments, _
    simp only [outcome, mem]
    exact laid.bytes
  · exact (congrArg Mem.stored mem).trans laid.order
  · simp only [outcome, mem]
    exact same.within
  · rcases List.mem_append.mp inside with old | new
    · obtain ⟨sym, found, adr⟩ := laid.records label old
      exact ⟨sym, (proclabel_other (opcodesize oplog) state.1 state.2 name label.1 (legal label old)).trans found, adr⟩
    · obtain rfl := List.mem_singleton.mp new
      obtain ⟨sym, found, adr⟩ := proclabel_find (opcodesize oplog) state.1 state.2 name
      exact ⟨sym, found, adr ▸ moved⟩
  · exact startset.trans (by rw [laid.startset]; rfl)

theorem char_exact (base : Adr) (state : Asm × Adr) (layout : Layout) (ch : UInt8) (linear : Linear zvmadrtoptr)
    (laid : LaidOut zvmadrtoptr base state layout) :
    LaidOut zvmadrtoptr base (outcome zvmadrtoptr (opcodesize oplog) state (.char ch)) (lay (2 ^ oplog.val) layout (.char ch)) ↔
      Fits (2 ^ oplog.val) layout (.char ch) := by
  refine ⟨fun after => ⟨fits_of_result zvmadrtoptr base _ _ after, trivial⟩, fun fits => ?_⟩
  have moved := move_toNat state.2 1 (laid.result ▸ fits.1)
  exact laidOut_write zvmadrtoptr base state layout [ch] _ linear laid (laid.result ▸ moved)

theorem data_exact (base : Adr) (state : Asm × Adr) (layout : Layout) (width : Width) (values : List (BitVec 64 × UInt8)) (linear : Linear zvmadrtoptr)
    (laid : LaidOut zvmadrtoptr base state layout) :
    LaidOut zvmadrtoptr base (outcome zvmadrtoptr (opcodesize oplog) state (.data width values)) (lay (2 ^ oplog.val) layout (.data width values)) ↔
      Fits (2 ^ oplog.val) layout (.data width values) := by
  refine ⟨fun after => ⟨fits_of_result zvmadrtoptr base _ _ after, trivial⟩, fun fits => ?_⟩
  have room : state.2.toNat + (values.flatMap fun value => littleendian width.size.toNat value.1).length < 2 ^ 64 := laid.result ▸ fits.1
  have moved := move_toNat state.2 _ room
  have filled := values_fill zvmadrtoptr width state values linear room
  unfold outcome
  dsimp only
  rw [filled]
  exact laidOut_write zvmadrtoptr base state layout _ _ linear laid (laid.result ▸ moved)

theorem align_exact (base : Adr) (state : Asm × Adr) (layout : Layout) (log2 : Fin 64) (size : UInt8) (laid : LaidOut zvmadrtoptr base state layout) :
    LaidOut zvmadrtoptr base (outcome zvmadrtoptr (opcodesize oplog) state (.align log2 size)) (lay (2 ^ oplog.val) layout (.align log2 size)) ↔
      Fits (2 ^ oplog.val) layout (.align log2 size) := by
  have rounded : aligned layout.cursor (2 ^ log2.val) < 2 ^ 64 →
      (rounduppow2 state.2 (BitVec.ofNat 64 (2 ^ log2.val))).toNat = aligned layout.cursor (2 ^ log2.val) := fun fits => by
    rw [← laid.result] at fits ⊢
    exact rounduppow2_toNat state.2 log2 fits
  constructor
  · intro after
    have fits := fits_of_result zvmadrtoptr base _ _ after
    refine ⟨fits, ?_⟩
    have result := after.result
    dsimp only [outcome, zasprocvalue, lay] at result
    rw [BitVec.toNat_add, rounded fits, BitVec.toNat_ofNat] at result
    have small := size.toNat_lt
    refine UInt8.toNat_inj.mp ?_
    have zero : (0 : UInt8).toNat = 0 := rfl
    have bound : aligned layout.cursor (2 ^ log2.val) < 2 ^ 64 := fits
    omega
  · rintro ⟨fits, none⟩
    have empty : size = 0 := none
    subst empty
    have same : outcome zvmadrtoptr (opcodesize oplog) state (.align log2 0) = (state.1, rounduppow2 state.2 (BitVec.ofNat 64 (2 ^ log2.val))) := by
      simp [outcome, zasprocvalue, Mem.fill]
    rw [same]
    exact laidOut_move zvmadrtoptr base state layout _ _ laid (rounded fits) (aligned_ge _ _)

theorem space_exact (base : Adr) (state : Asm × Adr) (layout : Layout) (adr val : BitVec 64) (size1 size2 : UInt8) (linear : Linear zvmadrtoptr)
    (laid : LaidOut zvmadrtoptr base state layout) (legal : Legal layout (.space adr val size1 size2)) :
    LaidOut zvmadrtoptr base (outcome zvmadrtoptr (opcodesize oplog) state (.space adr val size1 size2))
        (lay (2 ^ oplog.val) layout (.space adr val size1 size2)) ↔ Fits (2 ^ oplog.val) layout (.space adr val size1 size2) := by
  have above : layout.cursor ≤ adr.toNat := legal
  constructor
  · intro after
    refine ⟨fits_of_result zvmadrtoptr base _ _ after, ?_⟩
    show adr.toNat = layout.cursor
    have order := after.order
    dsimp only [outcome, lay, Layout.write] at order
    rw [fill_stored, laid.order, List.flatMap_append, laid.result, linear adr] at order
    simp only [List.length_replicate, List.flatMap_cons, List.flatMap_nil, List.append_nil, List.append_cancel_left_eq] at order
    by_contra different
    obtain ⟨count, more⟩ := Nat.exists_eq_add_one_of_ne_zero (by omega : adr.toNat - layout.cursor ≠ 0)
    rw [more, List.range'_succ, List.range'_succ] at order
    have first := (List.cons.inj order).1
    omega
  · rintro ⟨-, here⟩
    have none : adr.toNat = layout.cursor := here
    have same : state.2 = adr := BitVec.eq_of_toNat_eq (laid.result.trans none.symm)
    have moved := laidOut_write zvmadrtoptr base state layout [] state.2 linear laid (by simpa using laid.result)
    have count : adr.toNat - layout.cursor = 0 := by omega
    simpa [outcome, lay, same, count, none, Mem.fill] using moved

theorem ascizstep_stored (state : Nat × Asm × Adr) (str : List Glyph) :
    (ascizstep zvmadrtoptr state str).2.1.mem.stored = state.2.1.mem.stored ++ List.range' (zvmadrtoptr state.2.2) (str.length + 1) := by
  simp [ascizstep, fill_stored]

theorem asciz_stores (state : Nat × Asm × Adr) (strings : List (List Glyph)) : ∃ tail,
    (strings.foldl (ascizstep zvmadrtoptr) state).2.1.mem.stored = state.2.1.mem.stored ++ tail := by
  induction strings generalizing state with
  | nil => exact ⟨[], (List.append_nil _).symm⟩
  | cons str strings ih =>
      obtain ⟨tail, more⟩ := ih (ascizstep zvmadrtoptr state str)
      rw [ascizstep_stored, List.append_assoc] at more
      exact ⟨_, more⟩

-- The first store of a string is where the address stands.
theorem asciz_first (state : Nat × Asm × Adr) (str : List Glyph) (strings : List (List Glyph)) : ∃ tail,
    ((str :: strings).foldl (ascizstep zvmadrtoptr) state).2.1.mem.stored = state.2.1.mem.stored ++ zvmadrtoptr state.2.2 :: tail := by
  obtain ⟨tail, more⟩ := asciz_stores zvmadrtoptr (ascizstep zvmadrtoptr state str) strings
  rw [ascizstep_stored, List.range'_succ, List.append_assoc, List.cons_append] at more
  exact ⟨_, more⟩

def spoken (strings : List (List Glyph)) : List UInt8 := strings.flatMap fun str => str.map Glyph.byte ++ [0]

theorem spoken_cons (str : List Glyph) (strings : List (List Glyph)) : (spoken (str :: strings)).length = str.length + 1 + (spoken strings).length := by
  simp [spoken]
  omega

-- Behind the second string the address is too high by the first one's bytes.
theorem asciz_second (base : Adr) (state : Asm × Adr) (layout : Layout) (first second : List Glyph) (more : List (List Glyph)) (linear : Linear zvmadrtoptr)
    (laid : LaidOut zvmadrtoptr base state layout) :
    ¬LaidOut zvmadrtoptr base (outcome zvmadrtoptr (opcodesize oplog) state (.asciz (first :: second :: more)))
      (lay (2 ^ oplog.val) layout (.asciz (first :: second :: more))) := by
  intro after
  have fits : layout.cursor + (spoken (first :: second :: more)).length < 2 ^ 64 := fits_of_result zvmadrtoptr base _ _ after
  rw [spoken_cons, spoken_cons] at fits
  obtain ⟨two, early⟩ : ∃ two, two = ascizstep zvmadrtoptr (ascizstep zvmadrtoptr (0, state) first) second := ⟨_, rfl⟩
  have folded : outcome zvmadrtoptr (opcodesize oplog) state (.asciz (first :: second :: more)) = (more.foldl (ascizstep zvmadrtoptr) two).2 := by
    rw [early]
    rfl
  have adr : two.2.2.toNat = layout.cursor + (first.length + 1) + (second.length + 1) := by
    cases more with
    | nil =>
        have result : two.2.2.toNat = layout.cursor + (spoken [first, second]).length := folded ▸ after.result
        rw [result, spoken_cons, spoken_cons]
        simp [spoken, Nat.add_assoc]
    | cons third more =>
        obtain ⟨tail, stores⟩ := asciz_first zvmadrtoptr two third more
        have order := after.order
        rw [folded, stores, early, ascizstep_stored, ascizstep_stored, laid.order] at order
        simp only [lay, Layout.write, List.flatMap_append, List.flatMap_cons, List.flatMap_nil, List.append_nil, List.append_assoc,
          List.append_cancel_left_eq] at order
        have place := congrArg (fun stores => stores[first.length + 1 + (second.length + 1)]?) order
        rw [← early, ← List.append_assoc, List.getElem?_append_right (by simp), List.getElem?_range' (by simp; omega)] at place
        simp only [List.length_append, List.length_range', Nat.sub_self, List.getElem?_cons_zero, Option.some.injEq] at place
        rw [linear two.2.2] at place
        omega
  have value : two.2.2 = state.2 + BitVec.ofNat 64 (first.length + 1) + BitVec.ofNat 64 (first.length + 1 + (second.length + 1)) := by
    rw [early]
    simp [ascizstep]
  rw [value, BitVec.toNat_add, BitVec.toNat_add, BitVec.toNat_ofNat, BitVec.toNat_ofNat, laid.result] at adr
  omega

theorem asciz_exact (base : Adr) (state : Asm × Adr) (layout : Layout) (strings : List (List Glyph)) (linear : Linear zvmadrtoptr)
    (laid : LaidOut zvmadrtoptr base state layout) :
    LaidOut zvmadrtoptr base (outcome zvmadrtoptr (opcodesize oplog) state (.asciz strings)) (lay (2 ^ oplog.val) layout (.asciz strings)) ↔
      Fits (2 ^ oplog.val) layout (.asciz strings) := by
  constructor
  · refine fun after => ⟨fits_of_result zvmadrtoptr base _ _ after, ?_⟩
    cases strings with
    | nil => exact Nat.zero_le 1
    | cons first strings =>
        cases strings with
        | nil => exact Nat.le_refl 1
        | cons second more => exact absurd after (asciz_second zvmadrtoptr oplog base state layout first second more linear laid)
  · rintro ⟨fits, few⟩
    cases strings with
    | nil => simpa [outcome, lay, Mem.fill] using laidOut_write zvmadrtoptr base state layout [] state.2 linear laid (by simpa using laid.result)
    | cons first strings =>
        have none : strings = [] := List.length_eq_zero_iff.mp (by simpa using few)
        subst none
        have moved := move_toNat state.2 (first.map Glyph.byte ++ [0]).length (by simpa [lay, Layout.write, laid.result] using fits)
        have written := laidOut_write zvmadrtoptr base state layout _ _ linear laid (laid.result ▸ moved)
        simpa [outcome, ascizstep, lay] using written

theorem outcome_exact (base : Adr) (state : Asm × Adr) (layout : Layout) (directive : Directive) (linear : Linear zvmadrtoptr)
    (laid : LaidOut zvmadrtoptr base state layout) (legal : Legal layout directive) :
    LaidOut zvmadrtoptr base (outcome zvmadrtoptr (opcodesize oplog) state directive) (lay (2 ^ oplog.val) layout directive) ↔
      Fits (2 ^ oplog.val) layout directive := by
  cases directive with
  | label name => exact label_exact zvmadrtoptr oplog base state layout name laid legal
  | char ch => exact char_exact zvmadrtoptr oplog base state layout ch linear laid
  | data width values => exact data_exact zvmadrtoptr oplog base state layout width values linear laid
  | asciz strings => exact asciz_exact zvmadrtoptr oplog base state layout strings linear laid
  | align log2 size => exact align_exact zvmadrtoptr oplog base state layout log2 size laid
  | space adr val size1 size2 => exact space_exact zvmadrtoptr oplog base state layout adr val size1 size2 linear laid legal

def blank (asm : Asm) (base : Adr) : Layout := ⟨base.toNat, asm.startset, [], []⟩

theorem laidOut_blank (asm : Asm) (base : Adr) (fresh : asm.mem.stored = []) : LaidOut zvmadrtoptr base (asm, base) (blank asm base) := by
  refine ⟨rfl, Nat.le_refl _, by simp [blank], by simp [blank, fresh], ?_, by simp [blank], rfl⟩
  intro i inside
  rw [fresh] at inside
  cases inside

-- ZASALIGN is 0: tokens are not aligned by their type.
theorem zastranslate_lays_out_iff (asm : Asm) (base : Adr) (queue : List Directive) (linear : Linear zvmadrtoptr) (fresh : asm.mem.stored = [])
    (legal : Along (fun layout directive => (lay (2 ^ oplog.val) layout directive, ())) Legal (blank asm base) queue) :
    (∀ n, ∃ done, zastranslate zvmadrtoptr (opcodesize oplog) asm base ((queue.take n).flatMap Directive.tokens) = some done ∧
        LaidOut zvmadrtoptr base done ((queue.take n).foldl (lay (2 ^ oplog.val)) (blank asm base))) ↔
      Along (fun layout directive => (lay (2 ^ oplog.val) layout directive, ())) (Fits (2 ^ oplog.val)) (blank asm base) queue := by
  have start := laidOut_blank zvmadrtoptr asm base fresh
  rw [← beginnings_iff_along (outcome zvmadrtoptr (opcodesize oplog)) (lay (2 ^ oplog.val)) (LaidOut zvmadrtoptr base) Legal _
    (fun state layout directive laid allowed => outcome_exact zvmadrtoptr oplog base state layout directive linear laid allowed) (asm, base) _ queue start legal]
  refine forall_congr' fun n => ?_
  rw [translate_directives]
  simp

end

def noAsm : Asm := ⟨⟨fun _ => 0, []⟩, fun _ => [], 0, false⟩

theorem two_strings_drift : Along (fun layout directive => (lay 8 layout directive, ())) Legal (blank noAsm 0) [.asciz [[.newline], [.tab]]] ∧
    ¬∃ done, zastranslate BitVec.toNat 8 noAsm 0 ([Directive.asciz [[.newline], [.tab]]].flatMap Directive.tokens) = some done ∧
      LaidOut BitVec.toNat 0 done ([Directive.asciz [[.newline], [.tab]]].foldl (lay 8) (blank noAsm 0)) := by
  refine ⟨⟨trivial, trivial⟩, ?_⟩
  rintro ⟨done, taken, laid⟩
  rw [translate_directives] at taken
  obtain rfl := Option.some.inj taken
  have linear : Linear BitVec.toNat := fun adr => (Nat.zero_add _).symm
  exact asciz_second BitVec.toNat 3 0 (noAsm, 0) _ [.newline] [.tab] [] linear (laidOut_blank BitVec.toNat noAsm 0 rfl) laid

theorem short_align_char_laid_out : ∃ done,
    zastranslate BitVec.toNat 8 noAsm 0 ([Directive.data .short [(0x1234, 0)], .align 3 0, .char 65].flatMap Directive.tokens) = some done ∧
      LaidOut BitVec.toNat 0 done ([.data .short [(0x1234, 0)], .align 3 0, .char 65].foldl (lay 8) (blank noAsm 0)) := by
  have linear : Linear BitVec.toNat := fun adr => (Nat.zero_add _).symm
  refine (zastranslate_lays_out_iff BitVec.toNat 3 noAsm 0 [.data .short [(0x1234, 0)], .align 3 0, .char 65] linear rfl ⟨trivial, trivial, trivial, trivial⟩).mpr ?_ 3
  exact ⟨⟨by decide, trivial⟩, ⟨by decide, rfl⟩, ⟨by decide, trivial⟩, trivial⟩

end OsZero.Zas

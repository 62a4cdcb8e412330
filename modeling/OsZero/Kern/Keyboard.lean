import Mathlib.Data.BitVec
import OsZero.Queue.Ringbuf

set_option autoImplicit false

namespace OsZero.Keyboard

open Runs Queue

def EVKBDRELEASE : BitVec 32 := 0x80000000
def KEYSYM_PRINT : BitVec 32 := 0x0fffff61
def KEYSYM_PAUSE : BitVec 32 := 0x0fffff13
def PS2KBD_NOSYM : BitVec 32 := 0

def PS2KBD_PREFIX_BYTE : BitVec 8 := 0xe0
def PS2KBD_UP_BYTE : BitVec 8 := 0xf0
def PS2KBD_SHIFT_CASE_BYTE3 : BitVec 8 := 0x12
def PS2KBD_NUM_CASE_BYTE2 : BitVec 8 := 0x12
def PS2KBD_PAUSE_BYTE1 : BitVec 8 := 0xe1
def PS2KBD_PRINT_BYTE2 : BitVec 8 := 0x12
def PS2KBD_PRINT_BYTE3 : BitVec 8 := 0xe0

-- The bytes that the port gives, one for each read; a read behind the last of them has
-- no result.
def ps2readkbd : List (BitVec 8) → Option (BitVec 8 × List (BitVec 8))
  | [] => none
  | u8 :: port => some (u8, port)

-- The branch for PRINT_BYTE2 stands behind one that compares with the same byte.
def ps2kbdintr (port : List (BitVec 8)) : Option (BitVec 32 × List (BitVec 8)) := do
  let (u8, port) ← ps2readkbd port
  if u8 = PS2KBD_PREFIX_BYTE then
    let (u8, port) ← ps2readkbd port
    if u8 = PS2KBD_UP_BYTE then
      let (u8, port) ← ps2readkbd port
      if u8 = PS2KBD_SHIFT_CASE_BYTE3 then
        let (u8, port) ← ps2readkbd port
        some (EVKBDRELEASE ||| u8.setWidth 32, port)
      else if u8 = PS2KBD_PRINT_BYTE3 then
        let (_, port) ← ps2readkbd port
        let (_, port) ← ps2readkbd port
        some (EVKBDRELEASE ||| KEYSYM_PRINT, port)
      else some (EVKBDRELEASE ||| u8.setWidth 32, port)
    else if u8 = PS2KBD_NUM_CASE_BYTE2 then
      let (u8, port) ← ps2readkbd port
      if u8 = PS2KBD_PRINT_BYTE3 then
        let (_, port) ← ps2readkbd port
        some (KEYSYM_PRINT, port)
      else some (u8.setWidth 32, port)
    else if u8 = PS2KBD_PRINT_BYTE2 then
      let (_, port) ← ps2readkbd port
      let (_, port) ← ps2readkbd port
      some (KEYSYM_PRINT, port)
    else some (u8.setWidth 32, port)
  else if u8 = PS2KBD_UP_BYTE then
    -- the byte of the key is read and not used
    let (_, port) ← ps2readkbd port
    some (EVKBDRELEASE, port)
  else if u8 = PS2KBD_PAUSE_BYTE1 then
    let (_, port) ← ps2readkbd port
    let (_, port) ← ps2readkbd port
    let (_, port) ← ps2readkbd port
    let (_, port) ← ps2readkbd port
    let (_, port) ← ps2readkbd port
    let (_, port) ← ps2readkbd port
    let (_, port) ← ps2readkbd port
    some (KEYSYM_PAUSE, port)
  else some (u8.setWidth 32, port)

def ps2kbdintrs : Nat → List (BitVec 8) → Option (List (BitVec 32) × List (BitVec 8))
  | 0, port => some ([], port)
  | count + 1, port => do
      let (keysym, port) ← ps2kbdintr port
      let (keysyms, port) ← ps2kbdintrs count port
      some (keysym :: keysyms, port)

-- What a keyboard sends in its scan code set 2: a key goes down or up, one byte and the
-- extended keys two; Print and Pause have codes of their own.
inductive Key where
  | down (code : BitVec 8)
  | up (code : BitVec 8)
  | extendedDown (code : BitVec 8)
  | extendedUp (code : BitVec 8)
  | printDown
  | printUp
  | pauseDown
deriving DecidableEq, Repr

def Key.bytes : Key → List (BitVec 8)
  | .down code => [code]
  | .up code => [0xf0, code]
  | .extendedDown code => [0xe0, code]
  | .extendedUp code => [0xe0, 0xf0, code]
  | .printDown => [0xe0, 0x12, 0xe0, 0x7c]
  | .printUp => [0xe0, 0xf0, 0x7c, 0xe0, 0xf0, 0x12]
  | .pauseDown => [0xe1, 0x14, 0x77, 0xe1, 0xf0, 0x14, 0xf0, 0x77]

-- No key has the code 0 or that of a prefix; 0x12 is no extended key.
def Key.Coded : Key → Prop
  | .down code => code ≠ 0 ∧ code ≠ 0xe0 ∧ code ≠ 0xf0 ∧ code ≠ 0xe1
  | .up code => code ≠ 0 ∧ code ≠ 0xe0 ∧ code ≠ 0xf0 ∧ code ≠ 0xe1
  | .extendedDown code => code ≠ 0 ∧ code ≠ 0xe0 ∧ code ≠ 0xf0 ∧ code ≠ 0xe1 ∧ code ≠ 0x12
  | .extendedUp code => code ≠ 0 ∧ code ≠ 0xe0 ∧ code ≠ 0xf0 ∧ code ≠ 0xe1 ∧ code ≠ 0x12
  | _ => True

-- The keysym that the handler is to give for a key, and the one that it gives where
-- it reads all the bytes of the key.
def Key.meant : Key → BitVec 32
  | .down code => code.setWidth 32
  | .up code => EVKBDRELEASE ||| code.setWidth 32
  | .extendedDown code => code.setWidth 32
  | .extendedUp code => EVKBDRELEASE ||| code.setWidth 32
  | .printDown => KEYSYM_PRINT
  | .printUp => EVKBDRELEASE ||| KEYSYM_PRINT
  | .pauseDown => KEYSYM_PAUSE

def Key.told : Key → BitVec 32
  | .up _ => EVKBDRELEASE
  | key => key.meant

def Key.plain : Key → Bool
  | .up _ => false
  | .printUp => false
  | _ => true

theorem intr_key (key : Key) (more : List (BitVec 8)) (coded : key.Coded) (whole : key ≠ .printUp) :
    ps2kbdintr (key.bytes ++ more) = some (key.told, more) := by
  cases key with
  | down code =>
      obtain ⟨-, prefixed, released, paused⟩ := coded
      have notPrefix : ¬ code = PS2KBD_PREFIX_BYTE := prefixed
      have notUp : ¬ code = PS2KBD_UP_BYTE := released
      have notPause : ¬ code = PS2KBD_PAUSE_BYTE1 := paused
      simp [ps2kbdintr, ps2readkbd, Key.bytes, notPrefix, notUp, notPause, Key.told, Key.meant]
  | up code => rfl
  | extendedDown code =>
      obtain ⟨-, -, released, -, shifted⟩ := coded
      have notUp : ¬ code = PS2KBD_UP_BYTE := released
      have notNum : ¬ code = PS2KBD_NUM_CASE_BYTE2 := shifted
      have notPrint : ¬ code = PS2KBD_PRINT_BYTE2 := shifted
      have extended : (0xe0 : BitVec 8) = PS2KBD_PREFIX_BYTE := rfl
      simp [ps2kbdintr, ps2readkbd, Key.bytes, extended, notUp, notNum, notPrint, Key.told, Key.meant]
  | extendedUp code =>
      obtain ⟨-, prefixed, -, -, shifted⟩ := coded
      have notShift : ¬ code = PS2KBD_SHIFT_CASE_BYTE3 := shifted
      have notPrint : ¬ code = PS2KBD_PRINT_BYTE3 := prefixed
      have extended : (0xe0 : BitVec 8) = PS2KBD_PREFIX_BYTE := rfl
      have goesUp : (0xf0 : BitVec 8) = PS2KBD_UP_BYTE := rfl
      simp [ps2kbdintr, ps2readkbd, Key.bytes, extended, goesUp, notShift, notPrint, Key.told, Key.meant]
  | printDown => rfl
  | printUp => exact (whole rfl).elim
  | pauseDown => rfl

-- The release of Print is taken for that of the key 0x7c, with half of its bytes left.
theorem intr_print_up (more : List (BitVec 8)) :
    ps2kbdintr (Key.printUp.bytes ++ more) = some (EVKBDRELEASE ||| 0x7c, 0xe0 :: 0xf0 :: 0x12 :: more) := rfl

theorem told_meant (key : Key) (plain : key.plain = true) : key.told = key.meant := by
  cases key <;> first | rfl | cases plain

theorem up_not_meant (code : BitVec 8) (coded : code ≠ 0) : EVKBDRELEASE ≠ (Key.up code).meant := by
  intro same
  apply coded
  have low := congrArg (BitVec.setWidth 8) same
  simpa [Key.meant, EVKBDRELEASE] using low.symm

theorem intrs_in_step (keys : List Key) (more : List (BitVec 8)) (coded : ∀ key ∈ keys, key.Coded) (whole : .printUp ∉ keys) :
    ps2kbdintrs keys.length (keys.flatMap Key.bytes ++ more) = some (keys.map Key.told, more) := by
  induction keys with
  | nil => rfl
  | cons key keys ih =>
      have first := intr_key key (keys.flatMap Key.bytes ++ more) (coded key (by simp)) fun same => whole (by simp [same])
      have rest := ih (fun other member => coded other (by simp [member])) fun member => whole (by simp [member])
      simp [ps2kbdintrs, first, rest, List.append_assoc]

-- One interrupt for each key reports what was meant exactly when no key but an extended
-- one is let go, and Print is not; without Print being let go the handler at least stays
-- in step with the keyboard.
theorem intrs_meant_iff (keys : List Key) (coded : ∀ key ∈ keys, key.Coded) :
    (ps2kbdintrs keys.length (keys.flatMap Key.bytes) = some (keys.map Key.meant, []) ↔ ∀ key ∈ keys, key.plain = true) ∧
    (.printUp ∉ keys → ∀ more, ps2kbdintrs keys.length (keys.flatMap Key.bytes ++ more) = some (keys.map Key.told, more)) ∧
    (∀ next more, ps2kbdintrs 2 (Key.printUp.bytes ++ next :: more) =
      some ([EVKBDRELEASE ||| 0x7c, EVKBDRELEASE ||| next.setWidth 32], more)) := by
  refine ⟨?_, fun whole more => intrs_in_step keys more coded whole, fun next more => rfl⟩
  induction keys with
  | nil => simp [ps2kbdintrs]
  | cons key keys ih =>
      have later : ∀ other ∈ keys, other.Coded := fun other member => coded other (by simp [member])
      by_cases up : key = .printUp
      · subst up
        constructor
        · intro ends
          simp only [List.length_cons, List.flatMap_cons, ps2kbdintrs, intr_print_up, bind, Option.bind, List.map_cons] at ends
          split at ends
          · cases ends
          · simp only [Option.some.injEq, Prod.mk.injEq, List.cons.injEq] at ends
            exact absurd ends.1.1 (by decide)
        · intro plain
          cases plain .printUp (by simp)
      · have first := intr_key key (keys.flatMap Key.bytes) (coded key (by simp)) up
        have split : ps2kbdintrs (key :: keys).length ((key :: keys).flatMap Key.bytes) = some ((key :: keys).map Key.meant, []) ↔
            key.told = key.meant ∧ ps2kbdintrs keys.length (keys.flatMap Key.bytes) = some (keys.map Key.meant, []) := by
          simp only [List.length_cons, List.flatMap_cons, ps2kbdintrs, first, bind, Option.bind, List.map_cons]
          cases rest : ps2kbdintrs keys.length (keys.flatMap Key.bytes) with
          | none => simp
          | some out =>
              obtain ⟨keysyms, left⟩ := out
              simp only [Option.some.injEq, Prod.mk.injEq, List.cons.injEq]
              exact ⟨fun ⟨⟨one, two⟩, three⟩ => ⟨one, two, three⟩, fun ⟨one, two, three⟩ => ⟨⟨one, two⟩, three⟩⟩
        rw [split, ih later]
        constructor
        · rintro ⟨same, rest⟩ other member
          rcases List.mem_cons.mp member with rfl | member
          · cases other with
            | up code =>
                have named := coded (.up code) (by simp)
                exact absurd same (up_not_meant code named.1)
            | printUp => exact absurd rfl up
            | down code => rfl
            | extendedDown code => rfl
            | extendedUp code => rfl
            | printDown => rfl
            | pauseDown => rfl
          · exact rest other member
        · intro plain
          exact ⟨told_meant key (plain key (by simp)), fun other member => plain other (by simp [member])⟩

theorem intrs_meant_iff_three :
    (ps2kbdintrs 3 [0x1c, 0xf0, 0x1c, 0xe0, 0x75] = some ([0x1c, EVKBDRELEASE ||| 0x1c, 0x75], []) ↔
        ∀ key ∈ [Key.down 0x1c, .up 0x1c, .extendedDown 0x75], key.plain = true) ∧
      (.printUp ∉ [Key.down 0x1c, .up 0x1c, .extendedDown 0x75] →
        ∀ more, ps2kbdintrs 3 ([0x1c, 0xf0, 0x1c, 0xe0, 0x75] ++ more) = some ([0x1c, EVKBDRELEASE, 0x75], more)) ∧
      (∀ next more, ps2kbdintrs 2 (Key.printUp.bytes ++ next :: more) =
        some ([EVKBDRELEASE ||| 0x7c, EVKBDRELEASE ||| next.setWidth 32], more)) :=
  intrs_meant_iff [.down 0x1c, .up 0x1c, .extendedDown 0x75] (by simp [Key.Coded])

-- The handler and the readers of its events, with the ring between them.
structure Kbd where
  port : List (BitVec 8)
  buf : Ringbuf (BitVec 32)

inductive KbdOp where
  | ps2kbdintr
  | ringget
deriving DecidableEq, Repr

-- An interrupt answers with the keysym that ps2kbdaddkey is given.
def kbdstep (kbd : Kbd) : KbdOp → Option (Kbd × BitVec 32)
  | .ps2kbdintr => do
      let (keysym, port) ← ps2kbdintr kbd.port
      let (buf, _) ← ringput PS2KBD_NOSYM kbd.buf keysym
      some (⟨port, buf⟩, keysym)
  | .ringget => do
      let (buf, keysym) ← ringget PS2KBD_NOSYM kbd.buf
      some (⟨kbd.port, buf⟩, keysym)

-- What comes of it: the interrupts tell the keys in their order, and a reader is never
-- given one.
def keystep (keys : List Key) : KbdOp → List Key × BitVec 32
  | .ps2kbdintr => (keys.tail, (keys.head?.map Key.told).getD PS2KBD_NOSYM)
  | .ringget => (keys, PS2KBD_NOSYM)

def Pending (keys : List Key) : KbdOp → Prop
  | .ps2kbdintr => keys ≠ []
  | .ringget => True

structure Starved (base : List (BitVec 32)) (nitem : Nat) (kbd : Kbd) (keys : List Key) : Prop where
  port : kbd.port = keys.flatMap Key.bytes
  buf : kbd.buf = Queue.ringinit base nitem
  coded : ∀ key ∈ keys, key.Coded
  whole : .printUp ∉ keys

theorem ringinit_put (base : List (BitVec 32)) (nitem : Nat) (keysym : BitVec 32) :
    ringput PS2KBD_NOSYM (Queue.ringinit base nitem) keysym = some (Queue.ringinit base nitem, PS2KBD_NOSYM) := by
  by_cases none : 0 = nitem <;> simp [ringput, Queue.ringinit, Ringbuf.wrapin, Ringbuf.lim, none]

theorem ringinit_get (base : List (BitVec 32)) (nitem : Nat) :
    ringget PS2KBD_NOSYM (Queue.ringinit base nitem) = some (Queue.ringinit base nitem, PS2KBD_NOSYM) := by
  by_cases none : 0 = nitem <;> simp [ringget, Queue.ringinit, Ringbuf.wrapout, Ringbuf.lim, none]

theorem kbdstep_starved (base : List (BitVec 32)) (nitem : Nat) (kbd : Kbd) (keys : List Key) (op : KbdOp)
    (starved : Starved base nitem kbd keys) (pending : Pending keys op) :
    ∃ next, kbdstep kbd op = some (next, (keystep keys op).2) ∧ Starved base nitem next (keystep keys op).1 := by
  obtain ⟨port, buf, coded, whole⟩ := starved
  cases op with
  | ringget =>
      have nothing := ringinit_get base nitem
      rw [← buf] at nothing
      exact ⟨kbd, by simp [kbdstep, nothing, keystep], port, buf, coded, whole⟩
  | ps2kbdintr =>
      obtain ⟨key, rest, rfl⟩ := List.exists_cons_of_ne_nil pending
      have read := intr_key key (rest.flatMap Key.bytes) (coded key (by simp)) fun same => whole (by simp [same])
      rw [← List.flatMap_cons, ← port] at read
      refine ⟨⟨rest.flatMap Key.bytes, Queue.ringinit base nitem⟩, by simp [kbdstep, read, buf, ringinit_put, keystep], rfl, rfl, ?_, ?_⟩
      · exact fun other member => coded other (List.mem_cons_of_mem _ member)
      · exact fun member => whole (List.mem_cons_of_mem _ member)

def portstep (kbd : Kbd) (op : KbdOp) : Option Kbd := (kbdstep kbd op).map Prod.fst

-- A step leaves the ring as it was set up, and a reader is given nothing.
def Unfed (base : List (BitVec 32)) (nitem : Nat) (kbd : Kbd) (op : KbdOp) : Prop :=
  ∀ next keysym, kbdstep kbd op = some (next, keysym) → next.buf = Queue.ringinit base nitem ∧ (op = .ringget → keysym = PS2KBD_NOSYM)

theorem kbdstep_unfed (base : List (BitVec 32)) (nitem : Nat) (kbd : Kbd) (op : KbdOp) (empty : kbd.buf = Queue.ringinit base nitem) :
    Unfed base nitem kbd op := by
  intro next keysym taken
  cases op with
  | ps2kbdintr =>
      simp only [kbdstep, empty, ringinit_put, Option.bind_eq_bind, Option.bind_eq_some_iff, Option.some.injEq] at taken
      obtain ⟨read, -, put, rfl, same⟩ := taken
      cases same
      exact ⟨rfl, fun reads => by cases reads⟩
  | ringget =>
      simp only [kbdstep, empty, ringinit_get, Option.bind_eq_bind, Option.bind_some, Option.some.injEq] at taken
      cases taken
      exact ⟨rfl, fun _ => rfl⟩

-- From the ring that ps2initkbd sets up on, whatever bytes the port gives, no key ever
-- comes out of the ring, in every order of interrupts and reads. Where the bytes are those
-- of keys and Print is not let go, each interrupt takes the bytes of one key.
theorem kbd_starves (base : List (BitVec 32)) (nitem : Nat) (ops : List KbdOp) :
    (∀ port, Meets portstep (Unfed base nitem) ⟨port, Queue.ringinit base nitem⟩ ops) ∧
      ∀ keys, (∀ key ∈ keys, Key.Coded key) → .printUp ∉ keys → Along keystep Pending keys ops →
        Refines kbdstep keystep (Starved base nitem) ⟨keys.flatMap Key.bytes, Queue.ringinit base nitem⟩ keys ops := by
  constructor
  · intro port
    refine meets_of_invariant portstep (fun kbd => kbd.buf = Queue.ringinit base nitem) (Unfed base nitem) ?_ _ ops rfl
    intro kbd op empty
    have unfed := kbdstep_unfed base nitem kbd op empty
    refine ⟨unfed, fun next taken => ?_⟩
    obtain ⟨⟨_, keysym⟩, done, rfl⟩ := Option.map_eq_some_iff.mp taken
    exact (unfed _ keysym done).1
  · intro keys coded whole pending
    exact refines_of_invariant kbdstep keystep (Starved base nitem) (Starved base nitem) Pending (fun _ _ starved => starved)
      (fun kbd keys op => kbdstep_starved base nitem kbd keys op) _ keys ops ⟨rfl, rfl, coded, whole⟩ pending

theorem kbd_starves_three :
    Refines kbdstep keystep (Starved (List.replicate 4 0) 4) ⟨[0x1c, 0xf0, 0x1c, 0xe0, 0x75], Queue.ringinit (List.replicate 4 0) 4⟩
      [.down 0x1c, .up 0x1c, .extendedDown 0x75] [.ps2kbdintr, .ringget, .ps2kbdintr, .ps2kbdintr, .ringget] :=
  (kbd_starves (List.replicate 4 0) 4 [.ps2kbdintr, .ringget, .ps2kbdintr, .ps2kbdintr, .ringget]).2
    [.down 0x1c, .up 0x1c, .extendedDown 0x75] (by simp [Key.Coded]) (by simp) (by simp [Along, keystep, Pending])

end OsZero.Keyboard
